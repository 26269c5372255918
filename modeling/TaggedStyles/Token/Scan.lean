import TaggedStyles.Token.Basic
import TaggedStyles.Error

/-! How far one token reaches. Every scan returns the characters it takes and the rest, so nothing is
lost or invented; a scan for a closing mark jumps over each hole it meets without looking inside. -/
namespace TaggedStyles
set_option autoImplicit false

/-! ## Character classes -/

/-- The spaces of a style text; other blank characters belong to words. -/
def isSpace (c : Char) : Bool := c == ' ' || c == '\n' || c == '\t' || c == '\r' || c == '\x0c'

/-- The characters at which a word ends, wherever it started. -/
def endsWord (c : Char) : Bool := isSpace c || "!\"#'():;@[\\]\x7b\x7d".toList.contains c

/-- The characters at which the name of an at-rule ends. -/
def endsAtWord (c : Char) : Bool := isSpace c || "\"#'()/;[\\]\x7b\x7d".toList.contains c

/-- What may not stand in a bracket group that is read as one token. -/
def breaksBrackets (c : Char) : Bool := "\n\r\"'(/\\".toList.contains c

/-- The characters that end a line of host code. -/
def isLineEnd (c : Char) : Bool := c == '\n' || c == '\r' || c == '\u2028' || c == '\u2029'

def isHexDigit (c : Char) : Bool := c.isDigit || ('a' ≤ c && c ≤ 'f') || ('A' ≤ c && c ≤ 'F')

/-! ## Scanning over holes -/

/-- Visit `n` bytes from byte `i` on, when all bytes before `skip` are to be passed unseen: each hole
that starts at a visited byte moves `skip` behind its end. -/
def passHoles (holes : List Hole) : (n i skip : Nat) → Nat
  | 0, _, skip => skip
  | n + 1, i, skip =>
    passHoles holes n (i + 1)
      (if i < skip then skip else ((Hole.lastAt? holes i).map (· + 1)).getD skip)

/-- Take characters up to the first place, outside holes, where `stop` holds. `stop` sees the text
from there on, and whether an odd run of backslashes stands right before it. `i` is the offset of the
text, the bytes before `skip` are passed unseen, and `odd` says whether an odd run of backslashes
came before. -/
def scan (holes : List Hole) (stop : Bool → Text → Bool) : (i skip : Nat) → (odd : Bool) → Text → Text × Text
  | _, _, _, [] => ([], [])
  | i, skip, odd, c :: cs =>
    let skip := passHoles holes c.utf8Size i skip
    if skip ≤ i && stop odd (c :: cs) then ([], c :: cs)
    else
      let (taken, rest) := scan holes stop (i + c.utf8Size) skip (c == '\\' && !odd) cs
      (c :: taken, rest)

theorem scan_append (holes : List Hole) (stop : Bool → Text → Bool) (i skip : Nat) (odd : Bool) (cs : Text) :
    (scan holes stop i skip odd cs).1 ++ (scan holes stop i skip odd cs).2 = cs := by
  induction cs generalizing i skip odd with
  | nil => rfl
  | cons c cs ih => simp only [scan]; split <;> simp [ih]

/-- Stop at a character of a class. -/
def atClass (p : Char → Bool) (_odd : Bool) : Text → Bool
  | [] => false
  | c :: _ => p c

/-- Stop at a character that no backslash escapes. -/
def atUnescaped (mark : Char) (odd : Bool) : Text → Bool
  | [] => false
  | c :: _ => c == mark && !odd

/-- Stop at a text. -/
def atText (mark : Text) (_odd : Bool) (cs : Text) : Bool := mark.isPrefixOf cs

/-- Stop where a word ends: at a character of that class or where a comment starts. -/
def atWordEnd (_odd : Bool) : Text → Bool
  | [] => false
  | c :: cs => endsWord c || ['/', '*'].isPrefixOf (c :: cs)

/-! ## Tokens by their first character -/

/-- A token found at the front of a text: its kind, its text and what follows. -/
structure Lexeme where
  kind : Token.Kind
  text : Text
  rest : Text
deriving DecidableEq

/-- Why no token was found: the text has no closing mark, or a hole ends inside a character. -/
inductive Blocked where
  | unclosed (cause : Cause)
  | split (offset : Nat)
deriving DecidableEq

namespace Lexeme

/-- `first` and everything up to the place that `stop` finds in `cs`, which starts at `i`. -/
def upTo (kind : Token.Kind) (holes : List Hole) (stop : Bool → Text → Bool) (first : Text) (i : Nat)
    (cs : Text) : Lexeme :=
  let (taken, rest) := scan holes stop i 0 false cs
  ⟨kind, first ++ taken, rest⟩

/-- `first` and everything through the closing mark that `stop` finds, which has `n` characters. -/
def through? (kind : Token.Kind) (holes : List Hole) (stop : Bool → Text → Bool) (n : Nat) (first : Text)
    (i : Nat) (cs : Text) : Option Lexeme :=
  let (taken, rest) := scan holes stop i 0 false cs
  if rest.isEmpty then none else some ⟨kind, first ++ taken ++ rest.take n, rest.drop n⟩

/-- A run of spaces. -/
def spaces (cs : Text) : Lexeme := ⟨.space, cs.takeWhile isSpace, cs.dropWhile isSpace⟩

/-- A string from quote to quote. Read leniently, an open one is its quote and one character. -/
def string (holes : List Hole) (lenient : Bool) (i : Nat) (quote : Char) (cs : Text) :
    Except Blocked Lexeme :=
  match through? .string holes (atUnescaped quote) 1 [quote] (i + 1) cs with
  | some l => .ok l
  | none =>
    if lenient then .ok ⟨.string, quote :: cs.take 1, cs.drop 1⟩
    else .error (.unclosed .unclosedString)

/-- A comment, after the two characters that open it. Read leniently, an open one takes the rest. -/
def comment (holes : List Hole) (lenient : Bool) (i : Nat) (cs : Text) : Except Blocked Lexeme :=
  match through? .comment holes (atText ['*', '/']) 2 ['/', '*'] (i + 2) cs with
  | some l => .ok l
  | none =>
    if lenient then .ok ⟨.comment, '/' :: '*' :: cs, []⟩
    else .error (.unclosed .unclosedComment)

/-- A word that starts with a backslash, of which `cs` is the text behind it. Backslashes in a row
belong together; if their number is odd they escape what follows: hexadecimal digits and one space,
or one character, but neither a slash nor a space. -/
def escape (cs : Text) : Lexeme :=
  let run := cs.takeWhile (· == '\\')
  let tail := cs.dropWhile (· == '\\')
  let first : Text := '\\' :: run
  match tail with
  | [] => ⟨.word, first, []⟩
  | c :: more =>
    if run.length % 2 = 1 || c == '/' || isSpace c then ⟨.word, first, c :: more⟩
    else if isHexDigit c then
      let digits := more.takeWhile isHexDigit
      match more.dropWhile isHexDigit with
      | ' ' :: rest => ⟨.word, first ++ c :: digits ++ [' '], rest⟩
      | rest => ⟨.word, first ++ c :: digits, rest⟩
    else ⟨.word, first ++ [c], more⟩

/-- A word that starts with `c`: exactly the hole that starts here, or else everything up to the end
of the word. A hole that ends inside its own first character is read as that character. -/
def word (holes : List Hole) (i : Nat) (c : Char) (cs : Text) : Except Blocked Lexeme :=
  match Hole.lastAt? holes i with
  | some last =>
    match Text.splitAt? (c :: cs) (max (last + 1 - i) c.utf8Size) with
    | some (text, rest) => .ok ⟨.word, text, rest⟩
    | none => .error (.split (last + 1))
  | none =>
    let skip := passHoles holes (c.utf8Size - 1) (i + 1) 0
    let (taken, rest) := scan holes atWordEnd (i + c.utf8Size) skip false cs
    .ok ⟨.word, c :: taken, rest⟩

/-- Whether a bracket group holds a quote, a slash, a backslash, a line break or another opening
bracket outside its holes, other than right after a line end. `before` is the character that came
last, if any. -/
def isBroken (holes : List Hole) : (before : Option Char) → (i skip : Nat) → Text → Bool
  | _, _, _, [] => false
  | before, i, skip, c :: cs =>
    if i < skip then isBroken holes before (i + c.utf8Size) skip cs
    else
      match Hole.lastAt? holes i with
      | some last => isBroken holes (some '\x7d') (i + c.utf8Size) (last + 1) cs
      | none =>
        (breaksBrackets c && before.any (!isLineEnd ·)) ||
          isBroken holes (some c) (i + c.utf8Size) skip cs

/-- Behind an opening bracket, after the word `url`: the address, unless it is quoted or set off by a
space. Read leniently, an open one is its bracket alone. -/
def address (holes : List Hole) (lenient : Bool) (i : Nat) (cs : Text) : Except Blocked Lexeme :=
  match through? .brackets holes (atUnescaped ')') 1 ['('] (i + 1) cs with
  | some l => .ok l
  | none =>
    if lenient then .ok ⟨.brackets, ['('], cs⟩
    else .error (.unclosed .unclosedBracket)

/-- Behind any other opening bracket: the whole group if it is simple, else the bracket alone. -/
def group (holes : List Hole) (i : Nat) (cs : Text) : Lexeme :=
  match through? .brackets holes (atClass (· == ')')) 1 ['('] (i + 1) cs with
  | some l => if isBroken holes none i 0 l.text then ⟨.openParen, ['('], cs⟩ else l
  | none => ⟨.openParen, ['('], cs⟩

/-- Whether an opening bracket after `word` and before `cs` opens an address. -/
def opensAddress (word cs : Text) : Bool :=
  word == "url".toList && !cs.head?.any fun c => c == '\'' || c == '"' || isSpace c

/-- The first token of a text that starts at offset `i`, when `word` is the last word that no opening
bracket has used up. -/
def first (holes : List Hole) (lenient : Bool) (word : Text) (i : Nat) :
    Text → Except Blocked (Option Lexeme)
  | [] => .ok none
  | c :: cs =>
    if isSpace c then .ok (some (spaces (c :: cs)))
    else
      match c with
      | '[' => .ok (some ⟨.openSquare, [c], cs⟩)
      | ']' => .ok (some ⟨.closeSquare, [c], cs⟩)
      | '\x7b' => .ok (some ⟨.openCurly, [c], cs⟩)
      | '\x7d' => .ok (some ⟨.closeCurly, [c], cs⟩)
      | ':' => .ok (some ⟨.colon, [c], cs⟩)
      | ';' => .ok (some ⟨.semicolon, [c], cs⟩)
      | ')' => .ok (some ⟨.closeParen, [c], cs⟩)
      | '(' =>
        if opensAddress word cs then some <$> address holes lenient i cs
        else .ok (some (group holes i cs))
      | '\'' | '"' => some <$> string holes lenient i c cs
      | '@' => .ok (some (upTo .atWord holes (atClass endsAtWord) ['@'] (i + 1) cs))
      | '\\' => .ok (some (escape cs))
      | _ =>
        match c, cs with
        | '/', '*' :: more => some <$> comment holes lenient i more
        | _, _ => some <$> Lexeme.word holes i c cs

end Lexeme
end TaggedStyles
