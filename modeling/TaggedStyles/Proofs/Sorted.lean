import Mathlib.Data.List.Forall2
import Mathlib.Data.List.Sort
import TaggedStyles.Sorted

/-! Sorting is the insertion sort of the library. Besides what is known of that, elements that compare alike are
sorted alike. -/
namespace TaggedStyles
set_option autoImplicit false

variable {α : Type} {le : α → α → Bool} {as bs : List α} {a b : α}

theorem insertSorted_eq_orderedInsert (a : α) (as : List α) :
    insertSorted le a as = as.orderedInsert (le · · = true) a := by
  induction as with
  | nil => rfl
  | cons b bs ih => rw [insertSorted, List.orderedInsert_cons, ih]

theorem sorted_eq_insertionSort (as : List α) : sorted le as = as.insertionSort (le · · = true) := by
  induction as with
  | nil => rfl
  | cons a as ih => rw [sorted, ih, insertSorted_eq_orderedInsert, List.insertionSort_cons]

theorem sorted_perm (as : List α) : (sorted le as).Perm as := by
  rw [sorted_eq_insertionSort]
  exact List.perm_insertionSort _ as

theorem mem_sorted : a ∈ sorted le as ↔ a ∈ as := (sorted_perm as).mem_iff

theorem pairwise_sorted (htotal : ∀ a b, le a b = true ∨ le b a = true)
    (htrans : ∀ a b c, le a b = true → le b c = true → le a c = true) (as : List α) :
    (sorted le as).Pairwise (le · · = true) := by
  have _ : Std.Total (le · · = true) := ⟨htotal⟩
  have _ : IsTrans α (le · · = true) := ⟨htrans⟩
  rw [sorted_eq_insertionSort]
  exact List.pairwise_insertionSort _ as

theorem sorted_map {β : Type} (le : α → α → Bool) (le' : β → β → Bool) (f : α → β) {as : List α}
    (hle : ∀ a ∈ as, ∀ b ∈ as, le a b = le' (f a) (f b)) : sorted le' (as.map f) = (sorted le as).map f := by
  rw [sorted_eq_insertionSort, sorted_eq_insertionSort]
  refine (List.map_insertionSort (le · · = true) (le' · · = true) f as fun a ha b hb => ?_).symm
  rw [hle a ha b hb]

/-! ## Other elements in the same order -/

/-- The second parts of pairs are sorted as the first, if they compare like them. -/
theorem exists_sorted_pairs {ps : List (α × α)} (hle : ∀ p ∈ ps, ∀ q ∈ ps, le p.2 q.2 = le p.1 q.1) :
    ∃ qs : List (α × α), qs.Perm ps ∧ sorted le (ps.map Prod.fst) = qs.map Prod.fst ∧
      sorted le (ps.map Prod.snd) = qs.map Prod.snd := by
  refine ⟨sorted (fun p q => le p.1 q.1) ps, sorted_perm ps, ?_, ?_⟩
  · exact sorted_map _ le Prod.fst fun p hp q hq => rfl
  · exact sorted_map _ le Prod.snd fun p hp q hq => (hle p hp q hq).symm

theorem forall₂_sorted {R : α → α → Prop} (hle : ∀ a b c d, R a b → R c d → le b d = le a c)
    (h : List.Forall₂ R as bs) : List.Forall₂ R (sorted le as) (sorted le bs) := by
  obtain ⟨hlength, hpairs⟩ := List.forall₂_iff_zip.1 h
  obtain ⟨qs, hperm, hfst, hsnd⟩ := @exists_sorted_pairs α le (as.zip bs) fun p hp q hq =>
    hle p.1 p.2 q.1 q.2 (hpairs hp) (hpairs hq)
  rw [List.map_fst_zip hlength.le] at hfst
  rw [List.map_snd_zip hlength.ge] at hsnd
  rw [hfst, hsnd, List.forall₂_map_left_iff, List.forall₂_map_right_iff, List.forall₂_same]
  exact fun q hq => hpairs (hperm.mem_iff.1 hq)

/-- An element in the place of another that compares like it gets the same place among those sorted. -/
theorem sorted_exchange (hle : ∀ c, le b c = le a c) (hle' : ∀ c, le c b = le c a) (front back : List α) :
    ∃ u v, sorted le (front ++ a :: back) = u ++ a :: v ∧ sorted le (front ++ b :: back) = u ++ b :: v := by
  let same (c : α) : α × α := (c, c)
  obtain ⟨qs, hperm, hfst, hsnd⟩ := @exists_sorted_pairs α le (front.map same ++ (a, b) :: back.map same) (by
    intro p hp q hq
    simp only [same, List.mem_append, List.mem_cons, List.mem_map] at hp hq
    grind)
  have hid : Prod.fst ∘ same = id ∧ Prod.snd ∘ same = id := ⟨rfl, rfl⟩
  simp only [List.map_append, List.map_cons, List.map_map, hid, List.map_id] at hfst hsnd
  -- Without the one pair that differs, those sorted are all of the same element twice.
  obtain ⟨us, vs, rfl⟩ := List.append_of_mem (hperm.mem_iff.2 (List.mem_append_right _ List.mem_cons_self))
  have hrest : (us ++ vs).Perm (front.map same ++ back.map same) :=
    ((List.perm_middle.symm.trans hperm).trans List.perm_middle).cons_inv
  have hsame : ∀ p ∈ us ++ vs, p.2 = p.1 := by
    intro p hp
    have hp' := hrest.mem_iff.1 hp
    rw [← List.map_append, List.mem_map] at hp'
    obtain ⟨c, -, rfl⟩ := hp'
    rfl
  refine ⟨us.map Prod.fst, vs.map Prod.fst, by rw [hfst, List.map_append, List.map_cons], ?_⟩
  rw [hsnd, List.map_append, List.map_cons]
  congr 1
  · exact List.map_congr_left fun p hp => hsame p (List.mem_append_left vs hp)
  · congr 1
    exact List.map_congr_left fun p hp => hsame p (List.mem_append_right us hp)

end TaggedStyles
