import TaggedStyles.Token.Basic

/-! Fragments: the style texts found in a host source, before they are parsed. -/
namespace TaggedStyles
set_option autoImplicit false

/-- The bytes of a source from `start` up to `stop`. -/
structure Range where
  start : Nat
  stop : Nat
deriving DecidableEq

/-- A style text in its source: its text, the bytes between its backticks, its holes with their marks,
and the position where it starts. -/
structure Fragment where
  text : Text
  rangeStart : Nat
  rangeEnd : Nat
  holes : List Range := []
  location : Position := Position.front
deriving DecidableEq

namespace Fragment

/-- Whether a fragment stands in a hole of another, behind the first byte of the hole and in front of
its last. -/
def isNestedIn (f other : Fragment) : Bool :=
  other.holes.any fun hole => hole.start < f.rangeStart && f.rangeEnd < hole.stop

/-- A fragment that is nested in none of some fragments stands on its own. -/
def isComponentAmong (fs : List Fragment) (f : Fragment) : Bool := !fs.any f.isNestedIn

/-- The holes as offsets into the text of the fragment. -/
def localHoles (f : Fragment) : List Hole :=
  f.holes.map fun hole => ⟨hole.start - f.rangeStart, hole.stop - (f.rangeStart + 1)⟩

end Fragment
end TaggedStyles
