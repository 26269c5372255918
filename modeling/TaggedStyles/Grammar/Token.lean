import TaggedStyles.Grammar.Lexeme

/-! Tokens of host code. A token keeps the text from its start on, so that it can be read anew where its
place gives it another meaning: a slash may start a regular expression, and a closing angle bracket may
be the first character of an operator. -/
namespace TaggedStyles.Grammar
set_option autoImplicit false

/-- What a token is. -/
inductive Sign where
  /-- A name or a keyword. -/
  | word (text : Text)
  /-- A name behind a number sign. -/
  | secret (text : Text)
  | number
  | string (value : Text)
  | mark (text : Text)
  | ending
  | unknown
deriving DecidableEq

structure Token where
  sign : Sign
  /-- Whether a word is written with escapes. -/
  escaped : Bool := false
  /-- Whether a line ends in front of the token. -/
  newline : Bool := false
  start : Nat
  source : Text
  stop : Nat
  rest : Text

/-! ## Marks -/

abbrev openBrace : String := "\x7b"

abbrev closeBrace : String := "\x7d"

abbrev backtick : String := "\x60"

/-- The marks of host code; of those that stand at a place the longest counts. A closing angle bracket is
a mark of its own, and so is the backtick in front of a template. -/
def marks : List Text :=
  ["...".toList, "===".toList, "!==".toList, "**=".toList, "<<=".toList, "&&=".toList, "||=".toList,
   "??=".toList, "=>".toList, "<=".toList, "==".toList, "!=".toList, "**".toList, "++".toList, "--".toList,
   "<<".toList, "&&".toList, "||".toList, "??".toList, "?.".toList, "+=".toList, "-=".toList, "*=".toList,
   "/=".toList, "%=".toList, "&=".toList, "|=".toList, "^=".toList, openBrace.toList, closeBrace.toList,
   "(".toList, ")".toList, "[".toList, "]".toList, ";".toList, ",".toList, "<".toList, ">".toList,
   "+".toList, "-".toList, "*".toList, "/".toList, "%".toList, "&".toList, "|".toList, "^".toList,
   "!".toList, "~".toList, "?".toList, ":".toList, "=".toList, ".".toList, "@".toList, backtick.toList]

def angleMarks : List Text := [">>>=".toList, ">>>".toList, ">>=".toList, ">>".toList, ">=".toList]

/-- The mark at the front of a text. A question mark, a dot and a digit are two tokens. -/
def markAt? (cs : Text) : Option Text :=
  (marks.find? (·.isPrefixOf cs)).map fun m =>
    if m == "?.".toList && (cs[2]?).any Char.isDigit then ['?'] else m

/-! ## Words -/

/-- The words that cannot be names. -/
def reserved : List Text :=
  ["break".toList, "case".toList, "catch".toList, "class".toList, "const".toList, "continue".toList,
   "debugger".toList, "default".toList, "delete".toList, "do".toList, "else".toList, "enum".toList,
   "export".toList, "extends".toList, "false".toList, "finally".toList, "for".toList, "function".toList,
   "if".toList, "import".toList, "in".toList, "instanceof".toList, "new".toList, "null".toList,
   "return".toList, "super".toList, "switch".toList, "this".toList, "throw".toList, "true".toList,
   "try".toList, "typeof".toList, "var".toList, "void".toList, "while".toList, "with".toList]

/-- The words that are names only in some places. -/
def reservedInPart : List Text :=
  ["await".toList, "yield".toList, "implements".toList, "interface".toList, "let".toList,
   "package".toList, "private".toList, "protected".toList, "public".toList, "static".toList]

namespace Sign

def isMark (s : String) : Sign → Bool
  | mark m => m == s.toList
  | _ => false

def isWord (s : String) : Sign → Bool
  | word w => w == s.toList
  | _ => false

/-- One of some marks. -/
def isMarkIn (ss : List String) (k : Sign) : Bool := ss.any k.isMark

/-- One of some words. -/
def isWordIn (ss : List String) (k : Sign) : Bool := ss.any k.isWord

def isAnyWord : Sign → Bool
  | word _ => true
  | _ => false

def isName : Sign → Bool
  | word w => !reserved.contains w
  | _ => false

def isString : Sign → Bool
  | string _ => true
  | _ => false

def isSecret : Sign → Bool
  | secret _ => true
  | _ => false

def isLiteral : Sign → Bool
  | number | string _ => true
  | k => k.isWordIn ["null", "true", "false"]

end Sign

/-! ## Reading tokens -/

namespace Token

/-- The token at the front of a text, where no blank stands, and whether it is wrong. -/
def read (newline : Bool) (i : Nat) (cs : Text) : Token × Bool :=
  let token (sign : Sign) (escaped : Bool) (stop : Nat) (rest : Text) : Token :=
    ⟨sign, escaped, newline, i, cs, stop, rest⟩
  let named (sign : Text → Sign) (front : Nat) (text : Text) : Token × Bool :=
    let (name, escaped) := nameTail 0 [] false false (i + front) text
    (token (sign name.value) escaped name.offset name.rest, name.flawed)
  match cs with
  | [] => (token .ending false i [], false)
  | c :: more =>
    if isNameStart c || c == '\\' then named .word 0 cs
    else if c == '#' then
      if more.head?.any fun c => isNameStart c || c == '\\' then named .secret 1 more
      else (token .unknown false (i + 1) more, true)
    else if c.isDigit || (c == '.' && more.head?.any Char.isDigit) then
      let number := numberLength cs
      (token (if number.fits then .number else .unknown) false (i + number.length) (cs.drop number.length),
        !number.fits)
    else if c == '\'' || c == '"' then
      match stringBody c 0 [] false (i + 1) more with
      | some s => (token (.string s.value) false s.offset s.rest, s.flawed)
      | none => (token .unknown false (i + 1) more, true)
    else
      match markAt? cs with
      | some m => (token (.mark m) false (i + Text.size m) (cs.drop m.length), false)
      | none => (token .unknown false (i + c.utf8Size) more, true)

/-- The first token behind a place, and whether it is wrong or an open comment is in front of it. -/
def next (script newline : Bool) (i : Nat) (cs : Text) : Token × Bool :=
  let ahead := passFiller script .blank newline i cs
  let (token, flawed) := read ahead.newline ahead.offset ahead.rest
  (token, flawed || ahead.flawed)

/-- The token as an operator, if it is a closing angle bracket that can start one. -/
def widened (t : Token) : Token :=
  if t.sign.isMark ">" then
    match angleMarks.find? (·.isPrefixOf t.source) with
    | some m => { t with sign := .mark m, stop := t.start + m.length, rest := t.source.drop m.length }
    | none => t
  else t

def narrowed (t : Token) : Token :=
  match t.sign, t.source with
  | .mark _, c :: cs => { t with sign := .mark [c], stop := t.start + 1, rest := cs }
  | _, _ => t

end Token
end TaggedStyles.Grammar
