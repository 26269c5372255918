import Mathlib.Data.List.Forall2
import TaggedStyles.Document.Edit
import TaggedStyles.Proofs.Tree.Walk

/-! A walk meets every place of the tree once. The places are the paths that reach a node; a walk comes to them in
lexicographic order, so to a node before all that stands in it and to that before the siblings behind it. -/
namespace TaggedStyles
set_option autoImplicit false

/-! ## The places of a tree -/

mutual

/-- The paths that reach something from a node, itself included. -/
def Node.places : Node → List (List Nat)
  | .leaf .. => [[]]
  | .block _ ns _ _ => [] :: placesFrom 0 ns

/-- The paths that reach something from some siblings, of which the first has place `index`. -/
def placesFrom (index : Nat) : List Node → List (List Nat)
  | [] => []
  | n :: ns => n.places.map (index :: ·) ++ placesFrom (index + 1) ns

end

theorem Node.mem_places {n : Node} {p : List Nat} :
    p ∈ n.places ↔ p = [] ∨ ∃ ns, n.nodes? = some ns ∧ p ∈ placesFrom 0 ns := by
  cases n <;> simp [Node.places, Node.nodes?]

theorem mem_placesFrom {ns : List Node} {index : Nat} {p : List Nat} :
    p ∈ placesFrom index ns ↔ ∃ i q n, p = (index + i) :: q ∧ ns[i]? = some n ∧ q ∈ n.places := by
  induction ns generalizing index with
  | nil => simp [placesFrom]
  | cons m ms ih =>
    rw [placesFrom, List.mem_append, List.mem_map, ih]
    constructor
    · rintro (⟨q, hq, rfl⟩ | ⟨i, q, n, rfl, hn, hq⟩)
      · exact ⟨0, q, m, rfl, rfl, hq⟩
      · exact ⟨i + 1, q, n, by rw [Nat.add_assoc, Nat.add_comm 1], hn, hq⟩
    · rintro ⟨i, q, n, rfl, hn, hq⟩
      cases i with
      | zero =>
        obtain rfl := Option.some.inj hn
        exact .inl ⟨q, hq, rfl⟩
      | succ i => exact .inr ⟨i, q, n, by rw [Nat.add_assoc, Nat.add_comm 1], hn, hq⟩

theorem Node.at?_cons {ns : List Node} {i : Nat} {p : List Nat} (hp : p ≠ []) :
    Node.at? (i :: p) ns = (ns[i]?.bind Node.nodes?).bind (Node.at? p) := by
  cases p with
  | nil => exact absurd rfl hp
  | cons j p => rfl

theorem Node.at?_concat {ns : List Node} {i : Nat} {p : List Nat} (hp : p ≠ []) :
    Node.at? (p ++ [i]) ns = ((Node.at? p ns).bind Node.nodes?).bind (·[i]?) := by
  induction p generalizing ns with
  | nil => exact absurd rfl hp
  | cons j p ih =>
    by_cases hnil : p = []
    · subst hnil
      rfl
    · rw [List.cons_append, Node.at?_cons (by simp), Node.at?_cons hnil]
      cases ns[j]?.bind Node.nodes? with
      | none => rfl
      | some children => exact ih hnil

theorem mem_placesFrom_iff_at? {p : List Nat} {ns : List Node} :
    p ∈ placesFrom 0 ns ↔ (Node.at? p ns).isSome = true := by
  induction p generalizing ns with
  | nil => simp [mem_placesFrom, Node.at?]
  | cons i p ih =>
    have hmem : i :: p ∈ placesFrom 0 ns ↔ ∃ n, ns[i]? = some n ∧ p ∈ n.places := by
      rw [mem_placesFrom]
      constructor
      · rintro ⟨j, q, n, hpath, hn, hq⟩
        rw [Nat.zero_add] at hpath
        obtain ⟨rfl, rfl⟩ := List.cons.inj hpath
        exact ⟨n, hn, hq⟩
      · rintro ⟨n, hn, hq⟩
        exact ⟨i, p, n, by rw [Nat.zero_add], hn, hq⟩
    rw [hmem]
    by_cases hp : p = []
    · subst hp
      simp [Node.mem_places, Node.at?, Option.isSome_iff_exists]
    · simp only [Node.at?_cons hp, Node.mem_places, hp, false_or, ih, Option.isSome_iff_exists,
        Option.bind_eq_some_iff]
      grind

/-! ## The order of the places -/

mutual

theorem Node.places_increase (n : Node) : n.places.Pairwise (List.Lex (· < ·)) := by
  cases n with
  | leaf content raws source => exact List.pairwise_singleton _ _
  | block header ns raws source =>
    rw [Node.places, List.pairwise_cons]
    refine ⟨fun p hp => ?_, placesFrom_increase 0 ns⟩
    obtain ⟨i, q, -, rfl, -⟩ := mem_placesFrom.1 hp
    exact .nil

theorem placesFrom_increase (index : Nat) (ns : List Node) : (placesFrom index ns).Pairwise (List.Lex (· < ·)) := by
  cases ns with
  | nil => exact .nil
  | cons n ns =>
    rw [placesFrom, List.pairwise_append, List.pairwise_map]
    refine ⟨(Node.places_increase n).imp .cons, placesFrom_increase (index + 1) ns, ?_⟩
    intro p hp q hq
    obtain ⟨p, -, rfl⟩ := List.mem_map.1 hp
    obtain ⟨i, q, -, rfl, -⟩ := mem_placesFrom.1 hq
    exact .rel (by omega)

end

/-! ## The entries at the places -/

/-- An entry for the node that a path reaches from some siblings with `above` levels above them. -/
structure Entry.StandsAt (nodes : List Node) (above : Nat) (p : List Nat) (x : Entry) : Prop where
  node : Node.at? p nodes = some x.node
  depth : x.depth = above + p.length
  index : p.getLast? = some x.index

theorem Entry.StandsAt.outwards {nodes children : List Node} {above index : Nat} {p : List Nat} {x : Entry}
    (h : x.StandsAt children (above + 1) p) (hchildren : nodes[index]?.bind Node.nodes? = some children) :
    x.StandsAt nodes above (index :: p) := by
  obtain ⟨hnode, hdepth, hindex⟩ := h
  have hp : p ≠ [] := by
    rintro rfl
    cases hindex
  refine ⟨?_, ?_, ?_⟩
  · rw [Node.at?_cons hp, hchildren, Option.bind_some, hnode]
  · rw [hdepth, List.length_cons, Nat.add_right_comm, Nat.add_assoc]
  · rw [List.getLast?_cons, hindex]
    rfl

mutual

theorem Node.places_preorder {nodes : List Node} {above index : Nat} (n : Node) (hn : nodes[index]? = some n) :
    List.Forall₂ (Entry.StandsAt nodes above) (n.places.map (index :: ·)) (n.preorder (above + 1) index) := by
  cases n with
  | leaf content raws source => exact .cons ⟨hn, rfl, rfl⟩ .nil
  | block header ns raws source =>
    have hbelow : List.Forall₂ (Entry.StandsAt ns (above + 1)) (placesFrom 0 ns) (preorder (above + 2) 0 ns) :=
      placesFrom_preorder 0 ns rfl
    have hchildren : nodes[index]?.bind Node.nodes? = some ns := by
      rw [hn]
      rfl
    exact .cons ⟨hn, rfl, rfl⟩ (List.forall₂_map_left_iff.2 (hbelow.imp fun p x h => h.outwards hchildren))

/-- The entries of the siblings from a place on stand at the paths from there on. -/
theorem placesFrom_preorder {nodes : List Node} {above : Nat} (index : Nat) (ns : List Node)
    (hns : nodes.drop index = ns) :
    List.Forall₂ (Entry.StandsAt nodes above) (placesFrom index ns) (preorder (above + 1) index ns) := by
  cases ns with
  | nil => exact .nil
  | cons n ns =>
    have hn : nodes[index]? = some n := by rw [← List.head?_drop, hns, List.head?_cons]
    have hmore : nodes.drop (index + 1) = ns := by rw [← List.tail_drop, hns, List.tail_cons]
    exact List.rel_append (Node.places_preorder n hn) (placesFrom_preorder (index + 1) ns hmore)

end

/-! ## Walks -/

end TaggedStyles
