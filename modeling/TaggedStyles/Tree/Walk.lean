import TaggedStyles.Tree.Basic

/-! Walks over the nodes below a place, parents before children. `Walk.next` is one step with the
levels still to be walked in a stack; `descendants` are all its entries. `preorder` says the same by
recursion on the tree. -/
namespace TaggedStyles
set_option autoImplicit false

/-- A node met on a walk: its depth, from 1, and its place among its siblings, from 0. -/
structure Entry where
  node : Node
  depth : Nat
  index : Nat

/-! ## By recursion -/

mutual

/-- The entries of a node at a place and of everything below it. -/
def Node.preorder (depth index : Nat) : Node → List Entry
  | .leaf c r s => [⟨.leaf c r s, depth, index⟩]
  | .block h ns r s => ⟨.block h ns r s, depth, index⟩ :: preorder (depth + 1) 0 ns

/-- The entries of the siblings from place `index` on and of everything below them. -/
def preorder (depth index : Nat) : List Node → List Entry
  | [] => []
  | n :: ns => n.preorder depth index ++ preorder depth (index + 1) ns

end

mutual

/-- The number of nodes of a tree. -/
def Node.count : Node → Nat
  | .leaf .. => 1
  | .block _ ns _ _ => 1 + countNodes ns

def countNodes : List Node → Nat
  | [] => 0
  | n :: ns => n.count + countNodes ns

end

/-! ## Step by step -/

/-- The levels still to be walked, innermost first: each has the nodes left and the place of the first
of them. -/
abbrev Walk := List (Nat × List Node)

namespace Walk

def start (nodes : List Node) : Walk := [(0, nodes)]

/-- The next entry. Its depth is the number of levels it was found under; its children come next. -/
def next : Walk → Option (Entry × Walk)
  | [] => none
  | (_, []) :: levels => next levels
  | (index, node :: nodes) :: levels =>
    let left := (index + 1, nodes) :: levels
    some (⟨node, levels.length + 1, index⟩,
      match node.nodes? with
      | some children => (0, children) :: left
      | none => left)

/-- The first `n` entries. -/
def take : Nat → Walk → List Entry
  | 0, _ => []
  | n + 1, w =>
    match w.next with
    | some (entry, w') => entry :: take n w'
    | none => []

/-- The number of nodes still to be walked. -/
def unread : Walk → Nat
  | [] => 0
  | (_, ns) :: levels => countNodes ns + unread levels

theorem unread_next {w w' : Walk} {e : Entry} (h : w.next = some (e, w')) : w'.unread < w.unread := by
  fun_induction next w with
  | case1 => cases h
  | case2 index levels ih => simpa [unread, countNodes] using ih h
  | case3 index node nodes levels left =>
    obtain ⟨-, rfl⟩ := Prod.mk.inj (Option.some.inj h)
    cases node with
    | leaf c r s => simp [left, unread, countNodes, Node.count, Node.nodes?]
    | block h ns r s => simp [left, unread, countNodes, Node.count, Node.nodes?]; omega

/-- Show the nodes of one entry after the other to a visitor, which keeps a state, until it answers `false`; tell
whether it never did. -/
def visit {σ : Type} (f : σ → Node → Bool × σ) (s : σ) (w : Walk) : Bool × σ :=
  match _h : w.next with
  | none => (true, s)
  | some (e, w') =>
    match f s e.node with
    | (true, s') => visit f s' w'
    | (false, s') => (false, s')
termination_by w.unread
decreasing_by exact unread_next _h

end Walk

/-- Everything below a place with these children, in document order. -/
def descendants (nodes : List Node) : List Entry :=
  (Walk.start nodes).take (countNodes nodes)

/-! ## Visits -/

/-- Walk everything below a place with a visitor. -/
def walk {σ : Type} (f : σ → Node → Bool × σ) (s : σ) (nodes : List Node) : Bool × σ :=
  (Walk.start nodes).visit f s

/-- Walk with a visitor that is shown the nodes of one kind only. -/
def walkOnly {σ : Type} (kind : Node → Bool) (f : σ → Node → Bool × σ) (s : σ) (nodes : List Node) :
    Bool × σ :=
  walk (fun s n => if kind n then f s n else (true, s)) s nodes

section
variable {σ : Type} (f : σ → Node → Bool × σ) (s : σ) (nodes : List Node)

def walkDeclarations : Bool × σ := walkOnly Node.isDeclaration f s nodes

def walkRules : Bool × σ := walkOnly Node.isRule f s nodes

def walkAtRules : Bool × σ := walkOnly Node.isAtRule f s nodes

def walkComments : Bool × σ := walkOnly Node.isComment f s nodes

end

end TaggedStyles
