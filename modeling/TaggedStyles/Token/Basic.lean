import TaggedStyles.Position

/-! Tokens of a style text, and its holes. -/
namespace TaggedStyles
set_option autoImplicit false

/-- A place where host code stands in a style text: from its first byte to its last, both included.
The usual hole is a dollar sign with braces around an expression. -/
structure Hole where
  start : Nat
  last : Nat
deriving DecidableEq

namespace Hole

/-- Whether the hole is not reversed and lies in a text of `size` bytes. -/
def fits (size : Nat) (h : Hole) : Bool := h.start ≤ h.last && h.last < size

/-- The last byte of the hole that starts at byte `i`; of several the shortest one counts. -/
def lastAt? (holes : List Hole) (i : Nat) : Option Nat :=
  (holes.filterMap fun h => if h.start = i then some h.last else none).min?

end Hole

namespace Token

/-- `brackets` is a whole group in round brackets that is read as one token. -/
inductive Kind where
  | word | space | string | comment | atWord | brackets
  | openParen | closeParen | openSquare | closeSquare | openCurly | closeCurly | colon | semicolon
deriving DecidableEq

end Token

/-- One token. A space has no offsets, a punctuation mark only that of its start, and every other
token also that of its last character. -/
structure Token where
  kind : Token.Kind
  text : Text
  start : Option Nat := none
  last : Option Nat := none
deriving DecidableEq

namespace Token

def space (text : Text) : Token := ⟨.space, text, none, none⟩

def punctuation (kind : Kind) (c : Char) (start : Nat) : Token := ⟨kind, [c], some start, none⟩

/-- A token with both offsets: its last character starts where the text before it ends. -/
def ranged (kind : Kind) (text : Text) (start : Nat) : Token :=
  ⟨kind, text, some start, some (start + Text.size text.dropLast)⟩

/-- Spaces and comments. -/
def isTrivia (t : Token) : Bool := t.kind = .space || t.kind = .comment

/-- Whether the token is exactly one of the holes. -/
def isHole (holes : List Hole) (t : Token) : Bool :=
  t.kind = .word &&
    match t.start.bind (Hole.lastAt? holes) with
    | some last => t.last = some last
    | none => false

/-- The offset of the last character, or else of the first. -/
def anchor? (t : Token) : Option Nat := t.last <|> t.start

end Token

/-- The texts of some tokens, one after the other. -/
def Token.joined (ts : List Token) : Text := ts.flatMap (·.text)

end TaggedStyles
