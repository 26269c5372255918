import Mathlib.Data.List.Nodup
import Mathlib.Data.List.Pairwise
import TaggedStyles.Proofs.Printer.Exchange

/-! Splicing is replacement. What is kept of a list of style texts are those that lie in no other one of the window, in
the order of their places and whatever the order of the list. Copying with every bound checked (`splice?`) never fails,
and where the kept ones stand as they say, only their places change. -/
namespace TaggedStyles
set_option autoImplicit false

namespace Rendered
variable {start stop cursor : Nat} {text : Text} {rs ss : List Rendered} {r x : Rendered}

/-! ## The outermost -/

/-- In a window, and in no other style text that is in it too. -/
def OnItsOwn (start stop : Nat) (rs : List Rendered) (r : Rendered) : Prop :=
  r.Within start stop ∧ ∀ s ∈ rs, s.Within start stop → ¬r.Inside s

instance (start stop : Nat) (rs : List Rendered) (r : Rendered) : Decidable (r.OnItsOwn start stop rs) :=
  inferInstanceAs (Decidable (_ ∧ ∀ s ∈ rs, _ → ¬_))

theorem Apart.start_ne (h : r.Apart x) (hr : r.start ≤ r.stop) (hx : x.start ≤ x.stop) : r.start ≠ x.start := by
  simp only [Apart, Inside] at h
  omega

theorem nodup_of_apart (hapart : rs.Pairwise Apart) (hle : ∀ r ∈ rs, r.start ≤ r.stop) : rs.Nodup :=
  hapart.imp_of_mem fun _ hx h => h.ne (hle _ hx)

theorem eq_of_start (hapart : rs.Pairwise Apart) (hle : ∀ r ∈ rs, r.start ≤ r.stop) (hr : r ∈ rs) (hx : x ∈ rs)
    (hstart : r.start = x.start) : r = x := by
  by_contra hne
  have hsymm : Std.Symm Apart := ⟨fun _ _ h => h.symm⟩
  exact (hapart.forall hr hx hne).start_ne (hle r hr) (hle x hx) hstart

theorem outermost_perm (hapart : rs.Pairwise Apart) (hle : ∀ r ∈ rs, r.start ≤ r.stop) :
    (outermost start stop rs).Perm (rs.filter (OnItsOwn start stop rs)) := by
  have hkept : (outermost start stop rs).Nodup := by
    have hsorted : (sorted le (rs.filter fun r => start ≤ r.start && r.stop ≤ stop)).Nodup :=
      (sorted_perm _).nodup_iff.2 ((nodup_of_apart hapart hle).filter _)
    exact hsorted.sublist (outermostFrom_sublist 0 _)
  rw [List.perm_ext_iff_of_nodup hkept ((nodup_of_apart hapart hle).filter _)]
  intro r
  rw [List.mem_filter, decide_eq_true_eq]
  constructor
  · intro hr
    obtain ⟨hmem, hwithin⟩ := mem_outermost hr
    exact ⟨hmem, hwithin, fun s hs => not_inside_of_mem_outermost hapart hle hr hs⟩
  · rintro ⟨hmem, hwithin, hmax⟩
    exact mem_outermost_of_max hapart hle hmem hwithin hmax

/-- The order of the list makes no difference, since no two start at one place. -/
theorem outermost_of_perm (hapart : rs.Pairwise Apart) (hle : ∀ r ∈ rs, r.start ≤ r.stop) (hperm : ss.Perm rs) :
    outermost start stop ss = outermost start stop rs := by
  have hwindow := hperm.filter fun r => start ≤ r.start && r.stop ≤ stop
  have hmem : ∀ us : List Rendered, us.Perm rs →
      ∀ r ∈ sorted le (us.filter fun r => start ≤ r.start && r.stop ≤ stop), r ∈ rs := fun us hus r hr =>
    hus.subset (List.mem_filter.1 (mem_sorted.1 hr)).1
  have hsame : sorted le (ss.filter fun r => start ≤ r.start && r.stop ≤ stop) =
      sorted le (rs.filter fun r => start ≤ r.start && r.stop ≤ stop) := by
    refine List.Perm.eq_of_pairwise (fun a b ha hb hab hba => ?_) (pairwise_sorted le_total le_trans _)
      (pairwise_sorted le_total le_trans _) ((sorted_perm _).trans (hwindow.trans (sorted_perm _).symm))
    refine eq_of_start hapart hle (hmem ss hperm a ha) (hmem rs (.refl rs) b hb) ?_
    simp only [le, Bool.or_eq_true, Bool.and_eq_true, decide_eq_true_eq] at hab hba
    omega
  rw [outermost, hsame, outermost]

/-! ## Copying with its bounds checked -/

/-- The difference of two offsets, if it is not below zero. -/
def minus? (a b : Nat) : Option Nat := if b ≤ a then some (a - b) else none

theorem minus?_of_le {a b : Nat} (h : b ≤ a) : minus? a b = some (a - b) := if_pos h

/-- Copy a text that starts at offset `start` of the source from `cursor` on, with the contents in their places. There
is no copy if a difference falls below zero, or if a bound is out of order, out of range or inside a character. -/
def copy? (start : Nat) (text : Text) : (cursor : Nat) → List Rendered → Option Text
  | cursor, [] => text.slice? cursor text.size
  | cursor, r :: rs => do
    let front ← minus? r.start start
    let back ← minus? r.stop start
    let gap ← text.slice? cursor front
    let rest ← copy? start text back rs
    return gap ++ r.content ++ rest

/-- Whether a style text stands where its offsets say, if these are in the text that starts at `start`. -/
def standsIn? (text : Text) (start : Nat) (r : Rendered) : Option Bool := do
  let front ← minus? r.start start
  let back ← minus? r.stop start
  return text.slice? front back = some r.written

theorem standsIn?_eq (hwithin : start ≤ r.start) (hle : r.start ≤ r.stop) :
    r.standsIn? text start = some (r.standsIn text start) := by
  rw [standsIn?, minus?_of_le hwithin, minus?_of_le (Nat.le_trans hwithin hle), standsIn, decide_eq_true hle,
    Bool.true_and]
  rfl

theorem copy?_eq {before : Text} (hrow : InRow (start + before.size) rs)
    (hstands : ∀ r ∈ rs, r.standsIn (before ++ text) start = true) :
    copy? start (before ++ text) before.size rs = some (fillIn (start + before.size) text rs) := by
  induction rs generalizing before text with
  | nil =>
    rw [copy?, fillIn, Text.slice?_eq_some]
    exact ⟨before, [], (List.append_nil _).symm, rfl, (Text.size_append before text).symm⟩
  | cons r rs ih =>
    obtain ⟨hbound, hrow⟩ := hrow
    have hr := hstands r List.mem_cons_self
    simp only [standsIn, Bool.and_eq_true, decide_eq_true_eq] at hr
    obtain ⟨hle, hslice⟩ := hr
    obtain ⟨a, rest, htext, ha, hstop⟩ := Text.slice?_eq_some.1 hslice
    obtain ⟨gap, rfl, rfl⟩ := Text.exists_between (htext.trans (List.append_assoc _ _ _)) (by omega)
    rw [Text.size_append] at ha
    have hgap : (before ++ (gap ++ (r.written ++ rest))).slice? before.size (r.start - start) = some gap :=
      Text.slice?_eq_some.2 ⟨before, r.written ++ rest, (List.append_assoc _ _ _).symm, rfl, ha⟩
    have hsplit : (gap ++ (r.written ++ rest)).splitAt? (r.start - (start + before.size)) =
        some (gap, r.written ++ rest) := Text.splitAt?_eq_some.2 ⟨rfl, by omega⟩
    have hsuffix : (gap ++ (r.written ++ rest)).suffix? (r.stop - (start + before.size)) = some rest :=
      Text.suffix?_eq_some.2 ⟨gap ++ r.written, (List.append_assoc _ _ _).symm, by rw [Text.size_append]; omega⟩
    have hback : r.stop - start = (before ++ gap ++ r.written).size := by
      rw [Text.size_append, Text.size_append]
      omega
    have hwhole : before ++ (gap ++ (r.written ++ rest)) = before ++ gap ++ r.written ++ rest := by
      simp only [List.append_assoc]
    have hplace : r.stop = start + (before ++ gap ++ r.written).size := by omega
    have hmore : copy? start (before ++ (gap ++ (r.written ++ rest))) (r.stop - start) rs =
        some (fillIn r.stop rest rs) := by
      rw [hback, hwhole]
      rw [hplace] at hrow ⊢
      refine ih hrow fun s hs => ?_
      rw [← hwhole]
      exact hstands s (List.mem_cons_of_mem r hs)
    rw [copy?, minus?_of_le (by omega), minus?_of_le (by omega), fillIn, hsplit, hsuffix]
    simp only [Option.bind_eq_bind, Option.bind_some, hgap, hmore, Option.pure_def]

end Rendered

/-- Splicing with every bound checked. -/
def splice? (rendered : List Rendered) (text : Text) (stop : Nat) : Option Text :=
  if !text.includes holeMark then some text
  else do
    let start := stop - text.size
    let outermost := Rendered.outermost start stop rendered
    let stand ← outermost.mapM (Rendered.standsIn? text start)
    if stand.all id then Rendered.copy? start text 0 outermost
    else return outermost.foldl (fun text r => text.replaceFirst r.written r.content) text

/-! ## Splicing -/

section
open Rendered
variable {rendered : List Rendered} {text : Text} {stop : Nat}

theorem mapM_eq_some {α β : Type} {f : α → Option β} {g : α → β} {as : List α} (h : ∀ a ∈ as, f a = some (g a)) :
    as.mapM f = some (as.map g) := by
  induction as with
  | nil => rfl
  | cons a as ih =>
    rw [List.mapM_cons, h a List.mem_cons_self, ih fun b hb => h b (List.mem_cons_of_mem a hb)]
    rfl

/-- No bound is wrong, wherever the style texts are, as long as none of them is reversed. -/
theorem splice?_eq (hle : ∀ r ∈ rendered, r.start ≤ r.stop) :
    splice? rendered text stop = some (splice rendered text stop) := by
  unfold splice? splice
  by_cases hmark : (!text.includes holeMark) = true
  · rw [if_pos hmark, if_pos hmark]
  · rw [if_neg hmark, if_neg hmark]
    simp only
    have hstand := @mapM_eq_some _ _ (standsIn? text (stop - text.size)) (standsIn text (stop - text.size))
      (outermost (stop - text.size) stop rendered) fun r hr =>
        standsIn?_eq (mem_outermost hr).2.1 (hle r (mem_outermost hr).1)
    rw [hstand]
    simp only [Option.bind_eq_bind, Option.bind_some, List.all_map, Function.id_comp, Option.pure_def]
    split
    · rename_i hall
      exact @copy?_eq (stop - text.size) text _ [] (outermost_inRow _ _ _) (List.all_eq_true.1 hall)
    · rfl

/-- Of style texts that are apart or strictly one in another, those that lie in no other one of the window are replaced
if they stand in it as they say: all of them, in their places and nowhere else. The order of the list makes no
difference, no bound that splicing takes is wrong, and where those style texts print as they are written nothing
changes, whether they stand there or not. -/
theorem splice_replaces (hmark : text.includes holeMark = true) (hle : ∀ r ∈ rendered, r.start ≤ r.stop)
    (hapart : rendered.Pairwise Apart) :
    let start := stop - text.size
    let kept := rendered.filter (OnItsOwn start stop rendered)
    splice? rendered text stop = some (splice rendered text stop) ∧
    (∀ rendered', rendered'.Perm rendered → splice rendered' text stop = splice rendered text stop) ∧
    ((∀ r ∈ kept, text.slice? (r.start - start) (r.stop - start) = some r.written) →
      ∃ row, row.Perm kept ∧ Fills start text row (splice rendered text stop)) ∧
    ((∀ r ∈ kept, r.content = r.written) → splice rendered text stop = text) := by
  intro start kept
  have hkept : (outermost start stop rendered).Perm kept := outermost_perm hapart hle
  refine ⟨splice?_eq hle, fun rendered' hperm => splice_congr (outermost_of_perm hapart hle hperm), fun hstands => ?_,
    fun hsame => splice_of_outermost_unchanged fun r hr => hsame r (hkept.subset hr)⟩
  refine ⟨_, hkept, splice_fills hmark fun r hr => ?_⟩
  rw [standsIn, decide_eq_true (hle r (mem_outermost hr).1), hstands r (hkept.subset hr), Bool.true_and,
    decide_eq_true rfl]

/-- Out of order: a text of no length in a hole, one inside of a longer one, one in front of the window, and that longer
one. -/
theorem splice_replaces_unordered :
    let rendered : List Rendered := [⟨109, 109, "!".toList, []⟩, ⟨104, 104, "?".toList, []⟩,
      ⟨90, 99, "z".toList, "not there".toList⟩, ⟨103, 105, "xyz".toList, "ab".toList⟩]
    splice? rendered "é$\x7bab\x7d $\x7b\x7d".toList 110 = some "é$\x7bxyz\x7d $\x7b!\x7d".toList ∧
    ∀ rendered', rendered'.Perm rendered →
      splice rendered' "é$\x7bab\x7d $\x7b\x7d".toList 110 = "é$\x7bxyz\x7d $\x7b!\x7d".toList := by
  intro rendered
  have hsplice : splice rendered "é$\x7bab\x7d $\x7b\x7d".toList 110 = "é$\x7bxyz\x7d $\x7b!\x7d".toList := by decide +kernel
  have hmark : Text.includes "é$\x7bab\x7d $\x7b\x7d".toList holeMark = true := by decide +kernel
  have hle : ∀ r ∈ rendered, r.start ≤ r.stop := by decide +kernel
  have hapart : rendered.Pairwise Apart := by decide +kernel
  obtain ⟨hchecked, horder, -, -⟩ := @splice_replaces rendered _ 110 hmark hle hapart
  exact ⟨hchecked.trans (congrArg some hsplice), fun rendered' hperm => (horder rendered' hperm).trans hsplice⟩

end
end TaggedStyles
