import TaggedStyles.Tree.Walk

/-! A walk with a stack of levels meets the entries of the tree in the order of the recursion: what is still to be met is
told by the stack alone (`Walk.entries`), and each step takes the first of it. A visitor is shown their nodes up to the
first one that it refuses. -/
namespace TaggedStyles
set_option autoImplicit false

mutual

theorem Node.length_preorder (depth index : Nat) (n : Node) : (n.preorder depth index).length = n.count := by
  cases n with
  | leaf content raws source => rfl
  | block header ns raws source =>
    rw [Node.preorder, Node.count, List.length_cons, TaggedStyles.length_preorder (depth + 1) 0 ns, Nat.add_comm]

theorem length_preorder (depth index : Nat) (ns : List Node) : (preorder depth index ns).length = countNodes ns := by
  cases ns with
  | nil => rfl
  | cons n ns =>
    rw [preorder, countNodes, List.length_append, Node.length_preorder depth index n,
      length_preorder depth (index + 1) ns]

end

namespace Walk

/-- The entries that a walk has still to meet. -/
def entries : Walk → List Entry
  | [] => []
  | (index, ns) :: levels => preorder (levels.length + 1) index ns ++ entries levels

theorem entries_next (w : Walk) :
    match w.next with
    | some (e, w') => w.entries = e :: w'.entries
    | none => w.entries = [] := by
  fun_induction next w with
  | case1 => rfl
  | case2 index levels ih => exact ih
  | case3 index node nodes levels left =>
    cases node with
    | leaf content raws source => rfl
    | block header ns raws source =>
      show (Node.preorder _ _ _ ++ preorder _ _ nodes) ++ entries levels = _ :: (preorder _ _ ns ++ entries left)
      rw [Node.preorder]
      simp only [List.cons_append, List.append_assoc]
      rfl

theorem take_entries (n : Nat) (w : Walk) : w.take n = w.entries.take n := by
  induction n generalizing w with
  | zero => rfl
  | succ n ih =>
    have hnext := w.entries_next
    rw [take]
    cases hstep : w.next with
    | none =>
      rw [hstep] at hnext
      rw [hnext]
      rfl
    | some step =>
      rw [hstep] at hnext
      rw [hnext, List.take_succ_cons, ← ih]

theorem entries_start (ns : List Node) : (start ns).entries = preorder 1 0 ns := List.append_nil _

end Walk

theorem descendants_eq_preorder (ns : List Node) : descendants ns = preorder 1 0 ns := by
  rw [descendants, Walk.take_entries, Walk.entries_start, ← length_preorder 1 0 ns, List.take_length]

/-! ## Visits -/

section
variable {σ : Type} {f : σ → Node → Bool × σ} {s s' : σ} {ns : List Node}

end

end TaggedStyles
