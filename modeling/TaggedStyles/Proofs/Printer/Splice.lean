import TaggedStyles.Printer.Splice
import TaggedStyles.Proofs.Sorted
import TaggedStyles.Proofs.Text.Slice

/-! What splicing does. Of style texts that are apart or strictly one in another, the outermost in a window
stand in a row, and filling them in changes the text in their places only. Style texts that still print as
they are written change nothing at all. -/
namespace TaggedStyles
set_option autoImplicit false

/-! ## Replacing -/

theorem Text.replaceFirst_self (text part : Text) : text.replaceFirst part part = text := by
  induction text with
  | nil => cases part <;> rfl
  | cons c cs ih =>
    rw [Text.replaceFirst]
    split
    · rename_i h
      obtain ⟨rest, hrest⟩ := List.isPrefixOf_iff_prefix.1 h
      rw [← hrest, List.drop_left]
    · rw [ih]

namespace Rendered
variable {start stop cursor bound : Nat} {text out : Text} {rs : List Rendered} {r x : Rendered}

/-! ## Rows -/

/-- Style texts one behind the other from an offset on. -/
def InRow : Nat → List Rendered → Prop
  | _, [] => True
  | bound, r :: rs => bound ≤ r.start ∧ InRow r.stop rs

theorem outermostFrom_inRow (bound : Nat) (rs : List Rendered) : InRow bound (outermostFrom bound rs) := by
  induction rs generalizing bound with
  | nil => exact trivial
  | cons r rs ih =>
    rw [outermostFrom]
    split
    · exact ⟨‹_›, ih r.stop⟩
    · exact ih bound

theorem outermostFrom_sublist (bound : Nat) (rs : List Rendered) : (outermostFrom bound rs).Sublist rs := by
  induction rs generalizing bound with
  | nil => exact List.Sublist.refl _
  | cons r rs ih =>
    rw [outermostFrom]
    split
    · exact (ih r.stop).cons_cons r
    · exact (ih bound).cons r

/-- In the bytes from `start` up to `stop`. -/
def Within (start stop : Nat) (r : Rendered) : Prop := start ≤ r.start ∧ r.stop ≤ stop

instance (start stop : Nat) (r : Rendered) : Decidable (r.Within start stop) := inferInstanceAs (Decidable (_ ∧ _))

theorem Within.mono {start' stop' : Nat} (h : r.Within start stop) (hstart : start' ≤ start)
    (hstop : stop ≤ stop') :
    r.Within start' stop' :=
  ⟨Nat.le_trans hstart h.1, Nat.le_trans h.2 hstop⟩

theorem mem_outermost (h : r ∈ outermost start stop rs) : r ∈ rs ∧ r.Within start stop := by
  have hmem := mem_sorted.1 ((outermostFrom_sublist 0 _).subset h)
  rw [List.mem_filter, Bool.and_eq_true, decide_eq_true_eq, decide_eq_true_eq] at hmem
  exact hmem

theorem InRow.le_start (h : InRow bound rs) (hle : ∀ r ∈ rs, r.start ≤ r.stop) : ∀ r ∈ rs, bound ≤ r.start := by
  induction rs generalizing bound with
  | nil => simp
  | cons s rs ih =>
    intro r hr
    rcases List.mem_cons.1 hr with rfl | hr
    · exact h.1
    · have hs := hle s List.mem_cons_self
      have hlater := ih h.2 (fun r hr => hle r (List.mem_cons_of_mem s hr)) r hr
      have hbound := h.1
      omega

/-- All in front of a member of a row ends in front of it, and all behind it starts behind it. -/
theorem InRow.apart {ls ms : List Rendered} (h : InRow bound (ls ++ x :: ms))
    (hle : ∀ r ∈ ls ++ x :: ms, r.start ≤ r.stop) :
    (∀ r ∈ ls, r.stop ≤ x.start) ∧ ∀ r ∈ ms, x.stop ≤ r.start := by
  induction ls generalizing bound with
  | nil => exact ⟨by simp, h.2.le_start fun r hr => hle r (List.mem_cons_of_mem x hr)⟩
  | cons l ls ih =>
    have hmore : ∀ r ∈ ls ++ x :: ms, r.start ≤ r.stop := fun r hr => hle r (List.mem_cons_of_mem l hr)
    obtain ⟨hls, hms⟩ := ih h.2 hmore
    refine ⟨fun r hr => ?_, hms⟩
    rcases List.mem_cons.1 hr with rfl | hr
    · exact h.2.le_start hmore x (List.mem_append_right _ List.mem_cons_self)
    · exact hls r hr

/-! ## Style texts one in another -/

/-- Strictly inside another style text. -/
def Inside (r other : Rendered) : Prop := other.start < r.start ∧ r.stop < other.stop

instance (r other : Rendered) : Decidable (r.Inside other) := inferInstanceAs (Decidable (_ ∧ _))

/-- Apart with something in between, or one strictly inside the other. -/
def Apart (r other : Rendered) : Prop :=
  r.stop < other.start ∨ other.stop < r.start ∨ r.Inside other ∨ other.Inside r

instance (r other : Rendered) : Decidable (r.Apart other) := inferInstanceAs (Decidable (_ ∨ _))

theorem Apart.symm {other : Rendered} (h : r.Apart other) : other.Apart r := by
  unfold Apart at *
  rcases h with h | h | h | h
  · exact .inr (.inl h)
  · exact .inl h
  · exact .inr (.inr (.inr h))
  · exact .inr (.inr (.inl h))

theorem Apart.ne {other : Rendered} (h : r.Apart other) (hle : other.start ≤ other.stop) : r ≠ other := by
  rintro rfl
  simp only [Apart, Inside] at h
  omega

theorem le_total (a b : Rendered) : le a b = true ∨ le b a = true := by
  simp only [le, Bool.or_eq_true, Bool.and_eq_true, decide_eq_true_eq]
  omega

theorem le_trans (a b c : Rendered) (hab : le a b = true) (hbc : le b c = true) : le a c = true := by
  simp only [le, Bool.or_eq_true, Bool.and_eq_true, decide_eq_true_eq] at *
  omega

/-- A style text that is in no other of a list in order is found, if nothing kept before reaches it. -/
theorem mem_outermostFrom (hsorted : rs.Pairwise (le · · = true)) (hapart : rs.Pairwise Apart)
    (hle : ∀ r ∈ rs, r.start ≤ r.stop) (hx : x ∈ rs) (hmax : ∀ r ∈ rs, ¬ x.Inside r)
    (hbound : bound ≤ x.start) :
    x ∈ outermostFrom bound rs := by
  induction rs generalizing bound with
  | nil => simp at hx
  | cons r rs ih =>
    obtain ⟨hr, hsorted⟩ := List.pairwise_cons.1 hsorted
    obtain ⟨hra, hapart⟩ := List.pairwise_cons.1 hapart
    rw [outermostFrom]
    rcases List.mem_cons.1 hx with rfl | hx
    · rw [if_pos hbound]
      exact List.mem_cons_self
    · have hmore := fun bound hbound => @ih bound hsorted hapart
        (fun r hr => hle r (List.mem_cons_of_mem _ hr)) hx
        (fun r hr => hmax r (List.mem_cons_of_mem _ hr)) hbound
      split
      · refine List.mem_cons_of_mem _ (hmore _ ?_)
        have hlex := hr x hx
        have hapartx := hra x hx
        have hmaxr := hmax r List.mem_cons_self
        have hlx := hle x (List.mem_cons_of_mem _ hx)
        simp only [le, Bool.or_eq_true, Bool.and_eq_true, decide_eq_true_eq] at hlex
        simp only [Apart, Inside] at hapartx hmaxr
        omega
      · exact hmore _ hbound

theorem pairwise_sorted_window (hapart : rs.Pairwise Apart) (start stop : Nat) :
    (sorted le (rs.filter fun r => start ≤ r.start && r.stop ≤ stop)).Pairwise Apart :=
  (sorted_perm _).symm.pairwise (hapart.filter _) fun h => h.symm

theorem mem_outermost_of_max (hapart : rs.Pairwise Apart) (hle : ∀ r ∈ rs, r.start ≤ r.stop) (hx : x ∈ rs)
    (hwithin : x.Within start stop) (hmax : ∀ r ∈ rs, r.Within start stop → ¬ x.Inside r) :
    x ∈ outermost start stop rs := by
  have hmem : ∀ r ∈ sorted le (rs.filter fun r => start ≤ r.start && r.stop ≤ stop),
      r ∈ rs ∧ r.Within start stop := by
    intro r hr
    have hr := List.mem_filter.1 (mem_sorted.1 hr)
    rw [Bool.and_eq_true, decide_eq_true_eq, decide_eq_true_eq] at hr
    exact hr
  refine mem_outermostFrom (pairwise_sorted le_total le_trans _) (pairwise_sorted_window hapart start stop)
    (fun r hr => hle r (hmem r hr).1) ?_ (fun r hr => hmax r (hmem r hr).1 (hmem r hr).2) (Nat.zero_le _)
  refine mem_sorted.2 (List.mem_filter.2 ⟨hx, ?_⟩)
  rw [Bool.and_eq_true, decide_eq_true_eq, decide_eq_true_eq]
  exact hwithin

/-- What is kept is in nothing else, as long as all that starts in front of the bound ends there. -/
theorem not_inside_of_mem_outermostFrom (hsorted : rs.Pairwise (le · · = true)) (hapart : rs.Pairwise Apart)
    (hle : ∀ r ∈ rs, r.start ≤ r.stop) (hbound : ∀ r ∈ rs, r.start < bound → r.stop ≤ bound)
    (hx : x ∈ outermostFrom bound rs) : ∀ r ∈ rs, ¬ x.Inside r := by
  induction rs generalizing bound with
  | nil => simp
  | cons s rs ih =>
    obtain ⟨hs, hsorted⟩ := List.pairwise_cons.1 hsorted
    obtain ⟨hsa, hapart⟩ := List.pairwise_cons.1 hapart
    have hles := hle s List.mem_cons_self
    have hmore : ∀ r ∈ rs, r.start ≤ r.stop := fun r hr => hle r (List.mem_cons_of_mem s hr)
    rw [outermostFrom] at hx
    intro r hr hin
    split at hx
    · have hbound' : ∀ r ∈ rs, r.start < s.stop → r.stop ≤ s.stop := by
        intro k hk hlt
        have hsk := hs k hk
        have hapartk := hsa k hk
        have hlek := hmore k hk
        simp only [le, Bool.or_eq_true, Bool.and_eq_true, decide_eq_true_eq] at hsk
        simp only [Apart, Inside] at hapartk
        omega
      rcases List.mem_cons.1 hx with rfl | hx
      · rcases List.mem_cons.1 hr with rfl | hr
        · exact Nat.lt_irrefl _ hin.1
        · have hxr := hs r hr
          obtain ⟨hin1, hin2⟩ := hin
          simp only [le, Bool.or_eq_true, Bool.and_eq_true, decide_eq_true_eq] at hxr
          omega
      · rcases List.mem_cons.1 hr with rfl | hr
        · have hbehind := (outermostFrom_inRow r.stop rs).le_start
            (fun k hk => hmore k ((outermostFrom_sublist r.stop rs).subset hk)) x hx
          have hlex := hmore x ((outermostFrom_sublist r.stop rs).subset hx)
          obtain ⟨hin1, hin2⟩ := hin
          omega
        · exact ih hsorted hapart hmore hbound' hx r hr hin
    · rename_i hlt
      rcases List.mem_cons.1 hr with rfl | hr
      · have hbehind := (outermostFrom_inRow bound rs).le_start
          (fun k hk => hmore k ((outermostFrom_sublist bound rs).subset hk)) x hx
        have hend := hbound r List.mem_cons_self (by omega)
        have hlex := hmore x ((outermostFrom_sublist bound rs).subset hx)
        obtain ⟨hin1, hin2⟩ := hin
        omega
      · exact ih hsorted hapart hmore (fun k hk => hbound k (List.mem_cons_of_mem s hk)) hx r hr hin

theorem not_inside_of_mem_outermost (hapart : rs.Pairwise Apart) (hle : ∀ r ∈ rs, r.start ≤ r.stop)
    (hx : x ∈ outermost start stop rs) (hr : r ∈ rs) (hwithin : r.Within start stop) : ¬ x.Inside r := by
  have hmem : r ∈ sorted le (rs.filter fun r => start ≤ r.start && r.stop ≤ stop) := by
    refine mem_sorted.2 (List.mem_filter.2 ⟨hr, ?_⟩)
    rw [Bool.and_eq_true, decide_eq_true_eq, decide_eq_true_eq]
    exact hwithin
  exact not_inside_of_mem_outermostFrom (pairwise_sorted le_total le_trans _)
    (pairwise_sorted_window hapart start stop) (fun k hk => hle k (List.mem_filter.1 (mem_sorted.1 hk)).1)
    (fun _ _ hlt => absurd hlt (Nat.not_lt_zero _)) hx r hmem

/-! ## Filling in -/

/-- Contents in their places: what a text becomes if each style text that is written in it gets its content. -/
inductive Fills : Nat → Text → List Rendered → Text → Prop
  | nil {cursor : Nat} {text : Text} : Fills cursor text [] text
  | cons {cursor : Nat} {gap text out : Text} {r : Rendered} {rs : List Rendered} :
      cursor + gap.size = r.start → Fills r.stop text rs out →
      Fills cursor (gap ++ r.written ++ text) (r :: rs) (gap ++ r.content ++ out)

theorem fillIn_fills {before : Text} (hrow : InRow (start + before.size) rs)
    (hstands : ∀ r ∈ rs, r.standsIn (before ++ text) start = true) :
    Fills (start + before.size) text rs (fillIn (start + before.size) text rs) := by
  induction rs generalizing before text with
  | nil => exact .nil
  | cons r rs ih =>
    obtain ⟨hbound, hrow⟩ := hrow
    have hr := hstands r List.mem_cons_self
    simp only [standsIn, Bool.and_eq_true, decide_eq_true_eq] at hr
    obtain ⟨hle, hslice⟩ := hr
    obtain ⟨a, rest, htext, ha, hstop⟩ := Text.slice?_eq_some.1 hslice
    obtain ⟨gap, rfl, rfl⟩ := Text.exists_between (htext.trans (List.append_assoc _ _ _)) (by omega)
    rw [Text.size_append] at ha
    have hsplit : (gap ++ (r.written ++ rest)).splitAt? (r.start - (start + before.size)) =
        some (gap, r.written ++ rest) := Text.splitAt?_eq_some.2 ⟨rfl, by omega⟩
    have hsuffix : (gap ++ (r.written ++ rest)).suffix? (r.stop - (start + before.size)) = some rest :=
      Text.suffix?_eq_some.2 ⟨gap ++ r.written, (List.append_assoc _ _ _).symm, by rw [Text.size_append]; omega⟩
    have hstop' : r.stop = start + (before ++ gap ++ r.written).size := by
      rw [Text.size_append, Text.size_append]
      omega
    have hmore : Fills r.stop rest rs (fillIn r.stop rest rs) := by
      rw [hstop'] at hrow ⊢
      refine ih hrow fun s hs => ?_
      have hstands' := hstands s (List.mem_cons_of_mem r hs)
      rwa [← List.append_assoc, ← List.append_assoc] at hstands'
    rw [fillIn, hsplit, hsuffix, ← List.append_assoc]
    exact .cons (by omega) hmore

namespace Fills

theorem eq_of_unchanged (h : Fills cursor text rs out) (hall : ∀ r ∈ rs, r.content = r.written) :
    out = text := by
  induction h with
  | nil => rfl
  | cons _ _ ih =>
    rw [hall _ List.mem_cons_self, ih fun r hr => hall r (List.mem_cons_of_mem _ hr)]

theorem size_le (h : Fills cursor text rs out) (hgrow : ∀ r ∈ rs, r.written.size ≤ r.content.size) :
    text.size ≤ out.size := by
  induction h with
  | nil => exact Nat.le_refl _
  | @cons cursor gap text out r rs _ _ ih =>
    have hr := hgrow r List.mem_cons_self
    have hmore := ih fun k hk => hgrow k (List.mem_cons_of_mem r hk)
    simp only [Text.size_append]
    omega

theorem size_eq (h : Fills cursor text rs out) (hgrow : ∀ r ∈ rs, r.written.size ≤ r.content.size)
    (hsize : out.size = text.size) : ∀ r ∈ rs, r.content.size = r.written.size := by
  induction h with
  | nil => simp
  | @cons cursor gap text out r rs _ hfills ih =>
    have hr := hgrow r List.mem_cons_self
    have hgrow' : ∀ k ∈ rs, k.written.size ≤ k.content.size := fun k hk => hgrow k (List.mem_cons_of_mem r hk)
    have hmore := hfills.size_le hgrow'
    simp only [Text.size_append] at hsize
    intro k hk
    rcases List.mem_cons.1 hk with rfl | hk
    · omega
    · exact ih hgrow' (by omega) k hk

/-- Where one style text alone prints differently, only its place changes. -/
theorem replace {ls ms : List Rendered} (h : Fills cursor text (ls ++ x :: ms) out)
    (hls : ∀ r ∈ ls, r.content = r.written) (hms : ∀ r ∈ ms, r.content = r.written)
    (hsize : ∀ r ∈ ls, r.start + r.written.size = r.stop) :
    ∃ a c, text = a ++ x.written ++ c ∧ out = a ++ x.content ++ c ∧ cursor + a.size = x.start := by
  induction ls generalizing cursor text out with
  | nil =>
    cases h with
    | @cons _ gap text out _ _ hgap hmore =>
      exact ⟨gap, text, rfl, by rw [hmore.eq_of_unchanged hms], hgap⟩
  | cons l ls ih =>
    cases h with
    | @cons _ gap text out _ _ hgap hmore =>
      obtain ⟨a, c, rfl, rfl, ha⟩ := ih hmore (fun r hr => hls r (List.mem_cons_of_mem l hr))
        fun r hr => hsize r (List.mem_cons_of_mem l hr)
      have hl := hsize l List.mem_cons_self
      refine ⟨gap ++ l.written ++ a, c, by simp only [List.append_assoc], ?_, ?_⟩
      · rw [hls l List.mem_cons_self]
        simp only [List.append_assoc]
      · rw [Text.size_append, Text.size_append]
        omega

end Fills

end Rendered

/-! ## Splicing -/

section
open Rendered
variable {rendered : List Rendered} {text : Text} {stop : Nat}

theorem outermost_inRow (start stop : Nat) (rs : List Rendered) : InRow start (outermost start stop rs) := by
  have hrow : InRow 0 (outermost start stop rs) := outermostFrom_inRow 0 _
  have hwithin := fun r => @mem_outermost start stop rs r
  cases hrs : outermost start stop rs with
  | nil => exact trivial
  | cons r more =>
    rw [hrs] at hrow hwithin
    exact ⟨(hwithin r List.mem_cons_self).2.1, hrow.2⟩

theorem splice_fills (hmark : text.includes holeMark = true)
    (hstands : ∀ r ∈ outermost (stop - text.size) stop rendered, r.standsIn text (stop - text.size) = true) :
    Fills (stop - text.size) text (outermost (stop - text.size) stop rendered) (splice rendered text stop) := by
  have hfills := @fillIn_fills (stop - text.size) text _ [] (outermost_inRow _ _ _) hstands
  unfold splice
  rw [hmark, if_neg (by simp)]
  simp only
  rw [if_pos (List.all_eq_true.2 hstands)]
  exact hfills

/-- With the first text that reads like each of some style texts replaced, one after the other. -/
def replaceEach (rs : List Rendered) (text : Text) : Text :=
  rs.foldl (fun text r => text.replaceFirst r.written r.content) text

theorem replaceEach_of_unchanged {rs : List Rendered} (h : ∀ r ∈ rs, r.content = r.written) :
    replaceEach rs text = text := by
  unfold replaceEach
  induction rs with
  | nil => rfl
  | cons r rs ih =>
    rw [List.foldl_cons, h r List.mem_cons_self, Text.replaceFirst_self]
    exact ih fun s hs => h s (List.mem_cons_of_mem r hs)

/-- What a raw that ends at an offset is printed as: nothing is spliced into it unless a hole is open in it; the
outermost style texts in its window are filled in if all of them stand where they should; and if one does not, they are
found by what they read like. -/
structure SplicedAs (rendered : List Rendered) (text : Text) (stop : Nat) (out : Text) : Prop where
  plain : text.includes holeMark = false → out = text
  filled : text.includes holeMark = true →
    (∀ r ∈ outermost (stop - text.size) stop rendered, r.standsIn text (stop - text.size) = true) →
    Fills (stop - text.size) text (outermost (stop - text.size) stop rendered) out
  found : text.includes holeMark = true →
    (∃ r ∈ outermost (stop - text.size) stop rendered, r.standsIn text (stop - text.size) = false) →
    out = replaceEach (outermost (stop - text.size) stop rendered) text

theorem splicedAs_splice (rendered : List Rendered) (text : Text) (stop : Nat) :
    SplicedAs rendered text stop (splice rendered text stop) := by
  refine ⟨fun hmark => ?_, splice_fills, fun hmark hastray => ?_⟩
  · rw [splice, hmark]
    rfl
  · obtain ⟨r, hr, hastray⟩ := hastray
    have hnot : ¬ (outermost (stop - text.size) stop rendered).all (standsIn text (stop - text.size)) = true := by
      intro hall
      rw [List.all_eq_true.1 hall r hr] at hastray
      cases hastray
    rw [splice, hmark, if_neg (by simp)]
    exact if_neg hnot

/-- If what is kept prints as it is written nothing changes, whether it is found at its offsets or by its texts. -/
theorem splice_of_outermost_unchanged
    (hall : ∀ r ∈ outermost (stop - text.size) stop rendered, r.content = r.written) :
    splice rendered text stop = text := by
  have hsplice := splicedAs_splice rendered text stop
  by_cases hmark : text.includes holeMark = true
  · by_cases hstands :
        ∀ r ∈ outermost (stop - text.size) stop rendered, r.standsIn text (stop - text.size) = true
    · exact (hsplice.filled hmark hstands).eq_of_unchanged hall
    · rw [hsplice.found hmark (by simpa using hstands), replaceEach_of_unchanged hall]
  · exact hsplice.plain (by simpa using hmark)

/-- Style texts that print as they are written change nothing. -/
theorem splice_of_unchanged
    (h : ∀ r ∈ rendered, r.Within (stop - text.size) stop → r.content = r.written) :
    splice rendered text stop = text :=
  splice_of_outermost_unchanged fun r hr => h r (mem_outermost hr).1 (mem_outermost hr).2

/-- Where the outermost style texts in a window stand as they say, and `x` is the only one of them that prints
differently, splicing changes the place of `x`. -/
theorem splice_one {x : Rendered} (hmark : text.includes holeMark = true) (hapart : rendered.Pairwise Apart)
    (hle : ∀ r ∈ rendered, r.start ≤ r.stop) (hx : x ∈ outermost (stop - text.size) stop rendered)
    (hstands : ∀ r ∈ outermost (stop - text.size) stop rendered, r.standsIn text (stop - text.size) = true)
    (hsize : ∀ r ∈ rendered, r.start + r.written.size = r.stop)
    (hothers : ∀ r ∈ outermost (stop - text.size) stop rendered, r ≠ x → r.content = r.written) :
    ∃ a c, text = a ++ x.written ++ c ∧ splice rendered text stop = a ++ x.content ++ c ∧
      stop - text.size + a.size = x.start := by
  have hfills := splice_fills hmark hstands
  have hmem := fun r hr => (@mem_outermost (stop - text.size) stop rendered r hr).1
  have hlex := hle x (hmem x hx)
  have hpair : (outermost (stop - text.size) stop rendered).Pairwise Apart :=
    (pairwise_sorted_window hapart _ _).sublist (outermostFrom_sublist 0 _)
  obtain ⟨ls, ms, hsplit⟩ := List.append_of_mem hx
  rw [hsplit] at hfills hmem hpair hothers
  rw [List.pairwise_append, List.pairwise_cons] at hpair
  obtain ⟨-, ⟨hxms, -⟩, hlsx⟩ := hpair
  refine hfills.replace (fun r hr => ?_) (fun r hr => ?_) fun r hr => hsize r (hmem r (List.mem_append_left _ hr))
  · exact hothers r (List.mem_append_left _ hr) ((hlsx r hr x List.mem_cons_self).ne hlex)
  · refine hothers r (List.mem_append_right _ (List.mem_cons_of_mem x hr)) ?_
    exact (hxms r hr).symm.ne hlex

end
end TaggedStyles
