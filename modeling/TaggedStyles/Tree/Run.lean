import TaggedStyles.Token.Basic
import TaggedStyles.Error
import TaggedStyles.Tree.Basic

/-! Runs of tokens: the pieces that a declaration, a rule or an at-rule is made of. Each function
splits a run or reads a cleaned value off it. -/
namespace TaggedStyles
set_option autoImplicit false

namespace Run

/-! ## Ends of a run -/

/-- Split off the longest end of which every token has a property. -/
def splitEnd (p : Token → Bool) (ts : List Token) : List Token × List Token :=
  ((ts.reverse.dropWhile p).reverse, (ts.reverse.takeWhile p).reverse)

def isSpaceToken (t : Token) : Bool := t.kind = .space

/-- The last place in the run that is known. -/
def lastAnchor? (ts : List Token) : Option Nat := ts.reverse.findSome? Token.anchor?

/-! ## Cleaned values -/

/-- Whether a comment may be dropped on account of this neighbour. -/
def isGap : Option Token → Bool
  | none => true
  | some t => t.kind = .space

/-- The value of a run behind `before`, when `value` has been read, and whether nothing was dropped.
A comment is kept only between two tokens other than spaces, and not after a comma. A space at the
end is dropped unless the property is a custom one. -/
def cleanFrom (custom : Bool) : (before : Option Token) → (value : Text) → (whole : Bool) → List Token → Text × Bool
  | _, value, whole, [] => (value, whole)
  | before, value, whole, t :: ts =>
    if t.kind = .space && ts.isEmpty && !custom then (value, false)
    else if t.kind = .comment && (isGap before || isGap ts.head? || value.getLast? = some ',') then
      cleanFrom custom (some t) value false ts
    else cleanFrom custom (some t) (value ++ t.text) whole ts

/-- The cleaned value of a run, with the text of the run if they differ. -/
def clean (custom : Bool) (ts : List Token) : Text × Option RawValue :=
  match cleanFrom custom none [] true ts with
  | (value, true) => (value, none)
  | (value, false) => (value, some ⟨value, Token.joined ts⟩)

/-! ## In front of a selector -/

/-- The length of the lines at the front of a run that hold nothing but holes, when `passed` tokens
have been passed and `cut` is that length so far. -/
def holeLinesFrom (holes : List Hole) (passed cut : Nat) : List Token → Nat
  | [] => cut
  | t :: ts =>
    if t.kind = .space then
      if '\n' ∈ t.text then
        if ts.head?.any (Token.isHole holes) then holeLinesFrom holes (passed + 1) (passed + 1) ts
        else passed + 1
      else holeLinesFrom holes (passed + 1) cut ts
    else if t.isHole holes then holeLinesFrom holes (passed + 1) cut ts
    else cut

/-- Split holes on lines of their own off the front of a run that starts with a hole. Something has to
stay. -/
def splitHoleLines (holes : List Hole) (ts : List Token) : List Token × List Token :=
  if ts.head?.any (Token.isHole holes) then
    let cut := holeLinesFrom holes 0 0 ts
    if cut < ts.length then (ts.take cut, ts.drop cut) else ([], ts)
  else ([], ts)

/-! ## Pieces of a declaration -/

/-- Drop tokens up to the property into `before`: holes on their own, which a space or another hole
follows, and all that is no word. The error is a last token that has nothing behind it. -/
def splitProperty (holes : List Hole) (before : Text) : List Token → Except Token (Text × List Token)
  | [] => .ok (before, [])
  | t :: ts =>
    let alone := t.isHole holes && ts.head?.any fun u => u.kind = .space || u.isHole holes
    if t.kind = .word && !alone then .ok (before, t :: ts)
    else if ts.isEmpty then .error t
    else splitProperty holes (before ++ t.text) ts

def endsProperty (t : Token) : Bool := t.kind = .colon || t.kind = .space || t.kind = .comment

/-- A letter or digit of ASCII, or an underscore. -/
def isWordCharacter (c : Char) : Bool := c.isAlphanum || c == '_'

/-- The tokens through the first colon, and what follows. The error is a proper word among them. -/
def splitColon (between : Text) : List Token → Except Token (Text × List Token)
  | [] => .ok (between, [])
  | t :: ts =>
    if t.kind = .colon then .ok (between ++ t.text, ts)
    else if t.kind = .word && t.text.any isWordCharacter then .error t
    else splitColon (between ++ t.text) ts

/-- Whether the first character that is not blank is an exclamation mark. -/
def opensMark (t : Text) : Bool := t.trim.head? = some '!'

/-- Take tokens off the end of a run in front of `mark` until an exclamation mark is reached; `n` is
the place of the next token to be looked at. -/
def unwindMark : (n : Nat) → List Token → (mark : Text) → List Token × Text
  | 0, ts, mark => (ts, mark)
  | n + 1, ts, mark =>
    if opensMark mark && (ts[n + 1]?).any (!isSpaceToken ·) then (ts, mark)
    else unwindMark n ts.dropLast ((ts.getLast?.map (·.text)).getD [] ++ mark)

/-- The usual spelling of the important mark. -/
def usualMark : Text := " !important".toList

/-- Split the important mark off a value: what stays, whether there is a mark, and its spelling unless
it is the usual one. -/
def splitImportant (ts : List Token) : List Token × Bool × Option Text :=
  let (kept, trivia) := splitEnd Token.isTrivia ts
  match kept.getLast? with
  | none => (ts, false, none)
  | some last =>
    let word := last.text.map Char.toLower
    if word = "!important".toList then
      let (value, spaces) := splitEnd isSpaceToken kept.dropLast
      let mark := Token.joined spaces ++ last.text ++ Token.joined trivia
      (value, true, if mark = usualMark then none else some mark)
    else if word = "important".toList then
      let (value, mark) := unwindMark (kept.length - 1) ts []
      if opensMark mark then (value, true, some mark) else (ts, false, none)
    else (ts, false, none)

/-! ## A colon in a value -/

/-- What a colon in a value tells. -/
inductive ColonVerdict where
  | absent
  | double (colon : Token)
  | within (before : List Token)
deriving DecidableEq

/-- Look for a colon outside round brackets; `passed` are the tokens before, latest first, `before` the
one that counts as standing in front, and `depth` the number of open brackets. A colon behind the
word `progid` is none. -/
def findColon (passed : List Token) (before : Option Token) (depth : Nat) : List Token → ColonVerdict
  | [] => .absent
  | t :: ts =>
    let depth := if t.kind = .openParen then depth + 1 else if t.kind = .closeParen then depth - 1 else depth
    if depth = 0 && t.kind = .colon then
      match before with
      | none => .double t
      | some b =>
        if b.kind = .word && b.text = "progid".toList then findColon (t :: passed) before depth ts
        else .within passed
    else findColon (t :: passed) (some t) depth ts

/-- The cause and place of the error in a value with a colon, if it is one: either the value starts
with the colon, or a semicolon is missing behind the word before the last one in front of it. -/
def colonFault? (ts : List Token) : Option (Cause × Nat) :=
  match findColon [] none 0 ts with
  | .absent => none
  | .double colon => some (.doubleColon, colon.start.getD 0)
  | .within passed =>
    match (passed.filter (!isSpaceToken ·))[1]? <|> passed.getLast? with
    | none => none
    | some t =>
      some (.missedSemicolon,
        if t.kind = .word then (t.last.map (· + 1)).getD 0 else t.start.getD 0)

end Run
end TaggedStyles
