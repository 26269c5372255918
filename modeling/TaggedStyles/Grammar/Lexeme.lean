import TaggedStyles.Token.Scan
import TaggedStyles.Grammar.Identifier

/-! Scans of single lexemes of host code: blanks and comments, names, numbers, strings, regular
expressions, and the text of templates. A scan that goes wrong but knows where to go on says so with a
flag; one that does not has no result. -/
namespace TaggedStyles.Grammar
set_option autoImplicit false

/-- Whether a line ends, as far as strings are concerned. -/
def isStringEnd (c : Char) : Bool := c == '\n' || c == '\r'

/-! ## Blanks and comments -/

/-- What a passed character belongs to. -/
inductive Filler where
  | blank
  | line
  | block

/-- The text from the next token on, its offset, and whether a line ended before it or a comment is still
open. -/
structure Ahead where
  newline : Bool
  flawed : Bool := false
  offset : Nat
  rest : Text

/-- Pass blanks and comments. In a script the marks `<!--`, and `-->` on a new line, start a comment as
well. -/
def passFiller (script : Bool) : Filler → (newline : Bool) → (offset : Nat) → Text → Ahead
  | .block, newline, i, [] => ⟨newline, true, i, []⟩
  | _, newline, i, [] => ⟨newline, false, i, []⟩
  | .blank, newline, i, '/' :: '/' :: cs => passFiller script .line newline (i + 2) cs
  | .blank, newline, i, '/' :: '*' :: cs => passFiller script .block newline (i + 2) cs
  | .blank, newline, i, '<' :: '!' :: '-' :: '-' :: cs =>
    if script then passFiller script .line newline (i + 4) cs
    else ⟨newline, false, i, '<' :: '!' :: '-' :: '-' :: cs⟩
  | .blank, newline, i, '-' :: '-' :: '>' :: cs =>
    if script && newline then passFiller script .line newline (i + 3) cs
    else ⟨newline, false, i, '-' :: '-' :: '>' :: cs⟩
  | .blank, newline, i, c :: cs =>
    if isHostBlank c then passFiller script .blank (newline || isLineEnd c) (i + c.utf8Size) cs
    else ⟨newline, false, i, c :: cs⟩
  | .line, newline, i, c :: cs =>
    if isLineEnd c then passFiller script .blank true (i + c.utf8Size) cs
    else passFiller script .line newline (i + c.utf8Size) cs
  | .block, newline, i, '*' :: '/' :: cs => passFiller script .blank newline (i + 2) cs
  | .block, newline, i, c :: cs => passFiller script .block (newline || isLineEnd c) (i + c.utf8Size) cs

/-! ## Escapes -/

def hexValue (digits : Text) : Nat :=
  digits.foldl (fun n c =>
    16 * n + if c.isDigit then c.toNat - 48 else if 'a' ≤ c then c.toNat - 87 else c.toNat - 55) 0

/-- The number of a character written in hexadecimal digits behind `\u`, and how many characters that
takes. -/
def unicodeEscape? : Text → Option (Nat × Nat)
  | '\x7b' :: cs =>
    let digits := cs.takeWhile isHexDigit
    if !digits.isEmpty && (cs.drop digits.length).head? == some '\x7d' && hexValue digits ≤ 0x10FFFF then
      some (hexValue digits, digits.length + 2)
    else none
  | cs =>
    let digits := cs.take 4
    if digits.length = 4 && digits.all isHexDigit then some (hexValue digits, 4) else none

/-- What an escape stands for, given what is behind its backslash, and how many characters it takes there.
A template has no octal escapes. -/
def escape? (inTemplate : Bool) : Text → Option (Text × Nat)
  | [] => some ([], 0)
  | '\r' :: '\n' :: _ => some ([], 2)
  | 'x' :: cs =>
    let digits := cs.take 2
    if digits.length = 2 && digits.all isHexDigit then some ([Char.ofNat (hexValue digits)], 3) else none
  | 'u' :: cs => (unicodeEscape? cs).map fun (value, n) => ([Char.ofNat value], n + 1)
  | c :: cs =>
    if isLineEnd c then some ([], 1)
    else if c.isDigit then
      if inTemplate && (c != '0' || cs.head?.any Char.isDigit) then none
      else some ([if c == '0' then '\x00' else c], 1)
    else
      some ([match c with
        | 'b' => '\x08'
        | 'f' => '\x0c'
        | 'n' => '\n'
        | 'r' => '\r'
        | 't' => '\t'
        | 'v' => '\x0b'
        | c => c], 1)

/-! ## Strings -/

/-- What a scan took, whether it is wrong, and where it ended. -/
structure Taken where
  value : Text
  flawed : Bool := false
  offset : Nat
  rest : Text

/-- The rest of a string up to its quote. `skip` characters belong to an escape; the value comes reversed
in. -/
def stringBody (quote : Char) : (skip : Nat) → (value : Text) → (flawed : Bool) → (offset : Nat) → Text →
    Option Taken
  | _, _, _, _, [] => none
  | skip + 1, value, flawed, i, c :: cs => stringBody quote skip value flawed (i + c.utf8Size) cs
  | 0, value, flawed, i, c :: cs =>
    if c == quote then some ⟨value.reverse, flawed, i + c.utf8Size, cs⟩
    else if isStringEnd c then none
    else if c == '\\' then
      match escape? false cs with
      | some (text, n) => stringBody quote n (text.reverse ++ value) flawed (i + 1) cs
      | none => stringBody quote 0 value true (i + 1) cs
    else stringBody quote 0 (c :: value) flawed (i + c.utf8Size) cs

/-! ## Templates -/

/-- A piece of a template up to the mark that ends it: a hole if `hole` holds, else the backtick. `stop`
is the offset of the mark. An escape that means nothing is `flawed`. -/
structure Piece where
  hole : Bool
  flawed : Bool
  stop : Nat
  rest : Text

def templatePiece : (skip : Nat) → (flawed : Bool) → (offset : Nat) → Text → Option Piece
  | _, _, _, [] => none
  | skip + 1, flawed, i, c :: cs => templatePiece skip flawed (i + c.utf8Size) cs
  | 0, flawed, i, '\x60' :: cs => some ⟨false, flawed, i, cs⟩
  | 0, flawed, i, '$' :: '\x7b' :: cs => some ⟨true, flawed, i, cs⟩
  | 0, flawed, i, '\\' :: cs =>
    match escape? true cs with
    | some (_, n) => templatePiece n flawed (i + 1) cs
    | none => templatePiece 0 true (i + 1) cs
  | 0, flawed, i, c :: cs => templatePiece 0 flawed (i + c.utf8Size) cs

/-! ## Names -/

/-- The rest of a name, whose first characters come reversed in; `skip` characters belong to an escape. -/
def nameTail : (skip : Nat) → (name : Text) → (escaped flawed : Bool) → (offset : Nat) → Text →
    Taken × Bool
  | _, name, escaped, flawed, i, [] => (⟨name.reverse, flawed, i, []⟩, escaped)
  | skip + 1, name, escaped, flawed, i, c :: cs => nameTail skip name escaped flawed (i + c.utf8Size) cs
  | 0, name, _, flawed, i, '\\' :: 'u' :: cs =>
    match unicodeEscape? cs with
    | some (value, n) =>
      let c := Char.ofNat value
      let fits := value.isValidChar && if name.isEmpty then isNameStart c else isNamePart c
      nameTail (n + 1) (c :: name) true (flawed || !fits) (i + 1) ('u' :: cs)
    | none => nameTail 0 name true true (i + 1) ('u' :: cs)
  | 0, name, escaped, flawed, i, c :: cs =>
    if isNamePart c then nameTail 0 (c :: name) escaped flawed (i + c.utf8Size) cs
    else (⟨name.reverse, flawed || c == '\\', i, c :: cs⟩, escaped)

/-! ## Numbers -/

def areSeparated : Text → Bool
  | [] => true
  | ['_'] => false
  | '_' :: '_' :: _ => false
  | _ :: cs => areSeparated cs

/-- The digits in front, and whether there are any and all underscores stand between two of them. -/
def digitRun (isDigit : Char → Bool) (cs : Text) : Text × Bool :=
  let run := cs.takeWhile fun c => isDigit c || c == '_'
  (run, run.head?.any (· != '_') && areSeparated run)

/-- The length of a number's last part, and whether the part is right. -/
structure Digits where
  length : Nat
  fits : Bool

def Digits.after (n : Nat) (fits : Bool) (d : Digits) : Digits := ⟨n + d.length, fits && d.fits⟩

/-- A number must not run into a name or another number. -/
def numberEnd (cs : Text) : Digits := ⟨0, !cs.head?.any fun c => c.isDigit || c == '\\' || isNameStart c⟩

/-- An exponent behind its `e`. -/
def exponentDigits (cs : Text) : Digits :=
  let sign := if cs.head?.any fun c => c == '+' || c == '-' then 1 else 0
  let (run, fits) := digitRun Char.isDigit (cs.drop sign)
  ⟨sign + run.length, fits⟩

/-- An exponent, if there is one, and the end. -/
def exponentEnd (cs : Text) : Digits :=
  if cs.head?.any fun c => c == 'e' || c == 'E' then
    let e := exponentDigits cs.tail
    (numberEnd (cs.drop (e.length + 1))).after (e.length + 1) e.fits
  else numberEnd cs

/-- What follows the point of a number. -/
def fractionEnd (digitsNeeded : Bool) (cs : Text) : Digits :=
  let (run, fits) := if cs.head?.any Char.isDigit then digitRun Char.isDigit cs else ([], !digitsNeeded)
  (exponentEnd (cs.drop run.length)).after run.length fits

/-- A whole number with all that may follow its digits. -/
def decimalEnd (cs : Text) : Digits :=
  let (run, fits) := digitRun Char.isDigit cs
  let behind := cs.drop run.length
  match behind with
  | '.' :: more => (fractionEnd false more).after (run.length + 1) fits
  | 'n' :: more => (numberEnd more).after (run.length + 1) fits
  | _ => (exponentEnd behind).after run.length fits

def basedEnd (isDigit : Char → Bool) (cs : Text) : Digits :=
  let (run, fits) := digitRun isDigit cs
  let behind := cs.drop run.length
  if behind.head? == some 'n' then (numberEnd behind.tail).after (run.length + 1) fits
  else (numberEnd behind).after run.length fits

/-- A number that starts with a needless zero: to the base eight, or decimal if a digit says so. -/
def zeroEnd (cs : Text) : Digits :=
  let run := cs.takeWhile Char.isDigit
  let decimal := run.any fun c => c == '8' || c == '9'
  match decimal, cs.drop run.length with
  | true, '.' :: more => (fractionEnd false more).after (run.length + 1) true
  | true, 'e' :: more => (exponentDigits more).after (run.length + 1) true
  | _, behind => (numberEnd behind).after run.length true

/-- The length of the number in front of a text that starts with a digit, or with a point and a digit. -/
def numberLength : Text → Digits
  | '.' :: cs => (fractionEnd true cs).after 1 true
  | '0' :: c :: cs =>
    if c == 'b' || c == 'B' then (basedEnd (fun c => c == '0' || c == '1') cs).after 2 true
    else if c == 'o' || c == 'O' then (basedEnd (fun c => '0' ≤ c && c ≤ '7') cs).after 2 true
    else if c == 'x' || c == 'X' then (basedEnd isHexDigit cs).after 2 true
    else if c == 'e' || c == 'E' then (exponentDigits cs).after 2 true
    else if c == '.' then (fractionEnd false cs).after 2 true
    else if c == 'n' then (numberEnd cs).after 2 true
    else if c.isDigit then (zeroEnd (c :: cs)).after 1 true
    else (numberEnd (c :: cs)).after 1 true
  | cs => decimalEnd cs

/-! ## Regular expressions -/

/-- The rest of a regular expression behind its slash; `inClass` says whether square brackets are open. -/
def regexBody : (escaped inClass : Bool) → (offset : Nat) → Text → Option (Nat × Text)
  | _, _, _, [] => none
  | escaped, inClass, i, c :: cs =>
    if isLineEnd c then none
    else if escaped then regexBody false inClass (i + c.utf8Size) cs
    else if c == '/' && !inClass then some (i + 1, cs)
    else regexBody (c == '\\') (c == '[' || (inClass && c != ']')) (i + c.utf8Size) cs

/-- The flags of a regular expression. -/
def isFlag (c : Char) : Bool := c.isAlphanum || c == '$' || c == '_'

def areFlags : Text → Bool
  | [] => true
  | c :: cs => "gimsuydv".toList.contains c && !cs.contains c && areFlags cs

/-! ## Examples -/

example : (numberLength "1_0.5e-7)".toList).length = 8 := by decide
example : (numberLength "0x1Fn".toList).fits && !(numberLength "1.5n".toList).fits := by decide
example : (numberLength "010.b".toList).length = 3 := by decide
example : (unicodeEscape? "\x7b0010FFFF\x7d".toList) = some (0x10FFFF, 10) := by decide
example : (templatePiece 0 false 0 "a\\0$\x7bb".toList).map (·.stop) = some 3 := by decide

end TaggedStyles.Grammar
