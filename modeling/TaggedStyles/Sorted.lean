/-! Stable sorting by insertion: elements that compare equal keep their order. It goes by recursion on the list, so
that what is printed for a closed document evaluates. -/
namespace TaggedStyles
set_option autoImplicit false

/-- Put an element in front of the first one that it may stand before. -/
def insertSorted {α : Type} (le : α → α → Bool) (a : α) : List α → List α
  | [] => [a]
  | b :: bs => if le a b then a :: b :: bs else b :: insertSorted le a bs

def sorted {α : Type} (le : α → α → Bool) : List α → List α
  | [] => []
  | a :: as => insertSorted le a (sorted le as)

end TaggedStyles
