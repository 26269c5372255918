import TaggedStyles.Text.Basic

/-! Positions in a source. -/
namespace TaggedStyles
set_option autoImplicit false

/-- A place in a source: a byte offset, and a line and column counted from 1. Columns count
characters. -/
structure Position where
  offset : Nat
  line : Nat
  column : Nat
deriving DecidableEq

/-- The front of a source. -/
def Position.front : Position := ⟨0, 1, 1⟩

/-- Where something begins and, if known, ends. -/
structure Span where
  start : Position
  stop : Option Position := none
deriving DecidableEq

end TaggedStyles
