import TaggedStyles.Proofs.Printer.Splice

/-! Two renderings of the same style texts. They are spliced into the same places, so where a single content is
another, what comes out differs in that place only; what is written around it is printed around it in both. -/
namespace TaggedStyles
set_option autoImplicit false

namespace Rendered
variable {start stop bound cursor : Nat} {text t t' out out' : Text} {rs us vs : List Rendered} {x y u v : Rendered}

/-! ## Style texts in the same places -/

/-- In the same place, with the same written there. -/
structure Twin (x y : Rendered) : Prop where
  start : y.start = x.start
  stop : y.stop = x.stop
  written : y.written = x.written

theorem Twin.eq_of_content (h : x.Twin y) (hcontent : y.content = x.content) : y = x := by
  obtain ⟨start, stop, content, written⟩ := x
  obtain ⟨hstart, hstop, hwritten⟩ := h
  simp only at hstart hstop hwritten hcontent
  rw [← hstart, ← hstop, ← hcontent, ← hwritten]

theorem Twin.standsIn (h : x.Twin y) : y.standsIn text start = x.standsIn text start := by
  unfold Rendered.standsIn
  rw [h.start, h.stop, h.written]

theorem forall₂_outermostFrom {R : Rendered → Rendered → Prop} (htwin : ∀ x y, R x y → x.Twin y)
    (h : List.Forall₂ R us vs) :
    List.Forall₂ R (outermostFrom bound us) (outermostFrom bound vs) := by
  induction h generalizing bound with
  | nil => exact .nil
  | @cons x y us vs hxy _ ih =>
    have hsame := htwin x y hxy
    rw [outermostFrom, outermostFrom, hsame.start, hsame.stop]
    split
    · exact .cons hxy ih
    · exact ih

/-- The outermost in a window are found by their places alone. -/
theorem forall₂_outermost {R : Rendered → Rendered → Prop} (htwin : ∀ x y, R x y → x.Twin y)
    (h : List.Forall₂ R us vs) :
    List.Forall₂ R (outermost start stop us) (outermost start stop vs) := by
  refine forall₂_outermostFrom htwin (forall₂_sorted (fun a b c d hab hcd => ?_) (List.rel_filter ?_ h))
  · unfold le
    rw [(htwin a b hab).start, (htwin a b hab).stop, (htwin c d hcd).start, (htwin c d hcd).stop]
  · intro a b hab
    simp only [(htwin a b hab).start, (htwin a b hab).stop]

/-! ## One content in the place of another -/

/-- Two prints of a text that starts at an offset: `x` is printed in one where `y` is in the other, and around
them nothing is lost that is written in the text. -/
def Swaps (x y : Rendered) (start : Nat) (text t t' : Text) : Prop :=
  ∃ a b c d, text = a ++ x.written ++ d ∧ start + a.size = x.start ∧ a.Sublist b ∧ d.Sublist c ∧
    t = b ++ x.content ++ c ∧ t' = b ++ y.content ++ c

namespace Swaps

theorem self : Swaps x y x.start x.written x.content y.content :=
  ⟨[], [], [], [], by simp, rfl, .slnil, .slnil, by simp, by simp⟩

theorem around {a b c d : Text} (h : Swaps x y (start + a.size) text t t') (hfront : a.Sublist b)
    (hback : d.Sublist c) :
    Swaps x y start (a ++ text ++ d) (b ++ t ++ c) (b ++ t' ++ c) := by
  obtain ⟨a', b', c', d', rfl, hplace, hfront', hback', rfl, rfl⟩ := h
  refine ⟨a ++ a', b ++ b', c' ++ c, d' ++ d, ?_, ?_, hfront.append hfront', hback'.append hback, ?_, ?_⟩
  · simp only [List.append_assoc]
  · rw [Text.size_append]
    omega
  · simp only [List.append_assoc]
  · simp only [List.append_assoc]

/-- If one style text is printed differently because another one in it is, that is all that changes. -/
theorem trans (h : Swaps u v start text t t') (hin : Swaps x y u.start u.written u.content v.content) :
    Swaps x y start text t t' := by
  obtain ⟨a, b, c, d, rfl, hplace, hfront, hback, rfl, rfl⟩ := h
  rw [← hplace] at hin
  exact hin.around hfront hback

end Swaps

namespace Fills

theorem sublist (h : Fills cursor text rs out) (hgrow : ∀ r ∈ rs, r.written.Sublist r.content) :
    text.Sublist out := by
  induction h with
  | nil => exact .refl _
  | @cons cursor gap text out r rs _ _ ih =>
    have hmore := ih fun k hk => hgrow k (List.mem_cons_of_mem r hk)
    exact ((List.Sublist.refl gap).append (hgrow r List.mem_cons_self)).append hmore

theorem unique (h : Fills cursor text rs out) (h' : Fills cursor text rs out') : out' = out := by
  induction h generalizing out' with
  | nil =>
    cases h'
    rfl
  | @cons cursor gap text out r rs hgap _ ih =>
    generalize hwhole : gap ++ r.written ++ text = whole at h'
    cases h' with
    | @cons _ gap' text' out' _ _ hgap' hmore' =>
      rw [List.append_assoc, List.append_assoc] at hwhole
      obtain ⟨rfl, hrest⟩ := Text.append_inj_of_size hwhole (by omega)
      obtain rfl := List.append_cancel_left hrest
      rw [ih hmore']

theorem swaps {ls ms : List Rendered} (h : Fills cursor text (ls ++ u :: ms) out)
    (h' : Fills cursor text (ls ++ v :: ms) out') (htwin : u.Twin v)
    (hsize : ∀ r ∈ ls, r.start + r.written.size = r.stop)
    (hgrow : ∀ r ∈ ls ++ ms, r.written.Sublist r.content) :
    Swaps u v cursor text out out' := by
  induction ls generalizing cursor text out out' with
  | nil =>
    cases h with
    | @cons _ gap text out _ _ hgap hmore =>
      generalize hwhole : gap ++ u.written ++ text = whole at h'
      cases h' with
      | @cons _ gap' text' out' _ _ hgap' hmore' =>
        have hstart := htwin.start
        rw [htwin.stop] at hmore'
        rw [htwin.written, List.append_assoc, List.append_assoc] at hwhole
        obtain ⟨rfl, hrest⟩ := Text.append_inj_of_size hwhole (by omega)
        obtain rfl := List.append_cancel_left hrest
        rw [hmore.unique hmore', htwin.written]
        exact ⟨gap, gap, out, text, rfl, hgap, .refl _, hmore.sublist hgrow, rfl, rfl⟩
  | cons l ls ih =>
    cases h with
    | @cons _ gap text out _ _ hgap hmore =>
      generalize hwhole : gap ++ l.written ++ text = whole at h'
      cases h' with
      | @cons _ gap' text' out' _ _ hgap' hmore' =>
        rw [List.append_assoc, List.append_assoc] at hwhole
        obtain ⟨rfl, hrest⟩ := Text.append_inj_of_size hwhole (by omega)
        obtain rfl := List.append_cancel_left hrest
        have hl := hsize l List.mem_cons_self
        have hin := ih hmore hmore' (fun r hr => hsize r (List.mem_cons_of_mem l hr))
          fun r hr => hgrow r (List.mem_cons_of_mem l hr)
        have hplace : cursor + (gap ++ l.written).size = l.stop := by
          rw [Text.size_append]
          omega
        rw [← hplace] at hin
        have hwide := hin.around ((List.Sublist.refl gap).append (hgrow l List.mem_cons_self)) (.refl [])
        simpa only [List.append_nil, List.append_assoc] using hwide

end Fills

end Rendered

/-! ## Splicing -/

/-- Splicing looks at the outermost in its window only. -/
theorem splice_congr {rendered rendered' : List Rendered} {text : Text} {stop : Nat}
    (h : Rendered.outermost (stop - text.size) stop rendered' =
      Rendered.outermost (stop - text.size) stop rendered) :
    splice rendered' text stop = splice rendered text stop := by
  unfold splice
  simp only [h]

end TaggedStyles
