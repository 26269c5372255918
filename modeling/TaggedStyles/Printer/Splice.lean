import TaggedStyles.Text.Basic
import TaggedStyles.Sorted

/-! Splicing: nested style texts that stand in a raw are replaced by what they print now. -/
namespace TaggedStyles
set_option autoImplicit false

/-- A nested style text: where it stands in the source, what it prints and what is written there. -/
structure Rendered where
  start : Nat
  stop : Nat
  content : Text
  written : Text
deriving DecidableEq

namespace Rendered

/-- By start; of two with the same start the longer one first. -/
def le (a b : Rendered) : Bool := a.start < b.start || (a.start = b.start && b.stop ≤ a.stop)

/-- Of some style texts in order, those that start behind the end of the last one kept. -/
def outermostFrom (bound : Nat) : List Rendered → List Rendered
  | [] => []
  | r :: rs => if bound ≤ r.start then r :: outermostFrom r.stop rs else outermostFrom bound rs

/-- Those that lie in the bytes from `start` up to `stop` and in no other that does. -/
def outermost (start stop : Nat) (rs : List Rendered) : List Rendered :=
  outermostFrom 0 (sorted le (rs.filter fun r => start ≤ r.start && r.stop ≤ stop))

/-- Whether a style text stands where its offsets say in a text that starts at `start`. -/
def standsIn (text : Text) (start : Nat) (r : Rendered) : Bool :=
  r.start ≤ r.stop && text.slice? (r.start - start) (r.stop - start) = some r.written

/-- Put the contents in their places. `cursor` is the offset at which the text starts. -/
def fillIn (cursor : Nat) (text : Text) : List Rendered → Text
  | [] => text
  | r :: rs =>
    match text.splitAt? (r.start - cursor), text.suffix? (r.stop - cursor) with
    | some (before, _), some rest => before ++ r.content ++ fillIn r.stop rest rs
    | _, _ => text

end Rendered

/-- The opening of a hole. -/
def holeMark : Text := ['$', '\x7b']

/-- Splice style texts into a raw that ends at offset `stop` of the source. If one of them does not stand
where it should, because the raw has been edited, the first place that reads like it is taken. -/
def splice (rendered : List Rendered) (text : Text) (stop : Nat) : Text :=
  if !text.includes holeMark then text
  else
    let start := stop - text.size
    let outermost := Rendered.outermost start stop rendered
    if outermost.all (Rendered.standsIn text start) then Rendered.fillIn start text outermost
    else outermost.foldl (fun text r => text.replaceFirst r.written r.content) text

end TaggedStyles
