import Mathlib.Data.List.Pairwise
import TaggedStyles.Proofs.Document.Assembly
import TaggedStyles.Proofs.Token.Holes

/-! Fragments one in another. With a byte between any two that are not nested, nesting is what the ranges say:
fragments around one place form a chain, from a component inwards. -/
namespace TaggedStyles.Fragment
set_option autoImplicit false

/-- Fragments that fit their source, with proper holes. Any two have something in between or one is in a hole
of the other. -/
structure Separate (source : Text) (fs : List Fragment) : Prop where
  placed : ∀ f ∈ fs, f.Placed source
  proper : ∀ f ∈ fs, Hole.Proper f.text f.localHoles
  apart : fs.Pairwise fun f g =>
    f.rangeEnd < g.rangeStart ∨ g.rangeEnd < f.rangeStart ∨ f.isNestedIn g = true ∨ g.isNestedIn f = true

instance (source : Text) (fs : List Fragment) : Decidable (Separate source fs) :=
  decidable_of_iff
    ((∀ f ∈ fs, f.Placed source) ∧ (∀ f ∈ fs, Hole.Proper f.text f.localHoles) ∧
      fs.Pairwise fun f g =>
        f.rangeEnd < g.rangeStart ∨ g.rangeEnd < f.rangeStart ∨ f.isNestedIn g = true ∨ g.isNestedIn f = true)
    ⟨fun h => ⟨h.1, h.2.1, h.2.2⟩, fun h => ⟨h.placed, h.proper, h.apart⟩⟩

/-- The range of a fragment has the range of another in it. -/
def Spans (g f : Fragment) : Prop := g.rangeStart ≤ f.rangeStart ∧ f.rangeEnd ≤ g.rangeEnd

instance (g f : Fragment) : Decidable (g.Spans f) := inferInstanceAs (Decidable (_ ∧ _))

theorem Spans.refl (f : Fragment) : f.Spans f := ⟨Nat.le_refl _, Nat.le_refl _⟩

theorem Spans.trans {f g k : Fragment} (hfg : f.Spans g) (hgk : g.Spans k) : f.Spans k :=
  ⟨Nat.le_trans hfg.1 hgk.1, Nat.le_trans hgk.2 hfg.2⟩

/-- In a hole of another fragment, with no fragment between the two. -/
def DirectlyIn (fs : List Fragment) (f g : Fragment) : Prop :=
  f.isNestedIn g = true ∧ ∀ k ∈ fs, ¬ (f.isNestedIn k = true ∧ k.isNestedIn g = true)

instance (fs : List Fragment) (f g : Fragment) : Decidable (DirectlyIn fs f g) :=
  inferInstanceAs (Decidable (_ ∧ ∀ k ∈ fs, ¬ _))

namespace Separate
variable {source : Text} {fs : List Fragment} {f g k : Fragment}

theorem consistent (hs : Separate source fs)
    (hordered : (fs.filter (isComponentAmong fs)).Pairwise (·.rangeStart < ·.rangeStart)) :
    Consistent source fs := by
  refine ⟨hs.placed, hs.apart.imp fun {f g} h => ?_, hordered⟩
  rcases h with h | h | h | h
  · exact .inl (Nat.le_of_lt h)
  · exact .inr (.inl (Nat.le_of_lt h))
  · exact .inr (.inr (.inl h))
  · exact .inr (.inr (.inr h))

/-! ## Ranges -/

theorem start_le (hs : Separate source fs) (hf : f ∈ fs) : f.rangeStart ≤ f.rangeEnd := by
  have hsize := (hs.placed f hf).size
  omega

theorem apart_of_ne (hs : Separate source fs) (hf : f ∈ fs) (hg : g ∈ fs) (hne : f ≠ g) :
    f.rangeEnd < g.rangeStart ∨ g.rangeEnd < f.rangeStart ∨ f.isNestedIn g = true ∨ g.isNestedIn f = true := by
  have hsymm : Std.Symm fun f g : Fragment => f.rangeEnd < g.rangeStart ∨ g.rangeEnd < f.rangeStart ∨
      f.isNestedIn g = true ∨ g.isNestedIn f = true := by
    refine ⟨fun f g h => ?_⟩
    rcases h with h | h | h | h
    · exact .inr (.inl h)
    · exact .inl h
    · exact .inr (.inr (.inr h))
    · exact .inr (.inr (.inl h))
  exact hs.apart.forall hf hg hne

theorem nested_iff (hs : Separate source fs) (hf : f ∈ fs) (hg : g ∈ fs) :
    f.isNestedIn g = true ↔ g.rangeStart < f.rangeStart ∧ f.rangeEnd < g.rangeEnd := by
  refine ⟨(hs.placed g hg).inside, fun hin => ?_⟩
  have hlef := hs.start_le hf
  have hleg := hs.start_le hg
  by_cases hself : f = g
  · subst hself
    omega
  · rcases hs.apart_of_ne hf hg hself with h | h | h | h
    · omega
    · omega
    · exact h
    · have hout := (hs.placed f hf).inside h
      omega

theorem eq_or_nested (hs : Separate source fs) (hf : f ∈ fs) (hg : g ∈ fs) (h : g.Spans f) :
    f = g ∨ f.isNestedIn g = true := by
  have hlef := hs.start_le hf
  obtain ⟨hstart, hstop⟩ := h
  by_cases hself : f = g
  · exact .inl hself
  · rcases hs.apart_of_ne hf hg hself with h | h | h | h
    · omega
    · omega
    · exact .inr h
    · have hout := (hs.placed f hf).inside h
      omega

theorem eq_of_range (hs : Separate source fs) (hf : f ∈ fs) (hg : g ∈ fs) (hstart : f.rangeStart = g.rangeStart)
    (hstop : f.rangeEnd = g.rangeEnd) : f = g := by
  refine (hs.eq_or_nested hf hg ⟨by omega, by omega⟩).resolve_right fun h => ?_
  have hin := (hs.placed g hg).inside h
  omega

theorem spans_of_nested (hs : Separate source fs) (hg : g ∈ fs) (h : f.isNestedIn g = true) : g.Spans f := by
  have hin := (hs.placed g hg).inside h
  exact ⟨by omega, by omega⟩

/-- Two fragments around one place are the same or nested. -/
theorem chain (hs : Separate source fs) (hf : f ∈ fs) (hg : g ∈ fs) (hk : k ∈ fs) (hfk : f.Spans k)
    (hgk : g.Spans k) :
    f = g ∨ f.isNestedIn g = true ∨ g.isNestedIn f = true := by
  have hle := hs.start_le hk
  obtain ⟨hf1, hf2⟩ := hfk
  obtain ⟨hg1, hg2⟩ := hgk
  by_cases hself : f = g
  · exact .inl hself
  · rcases hs.apart_of_ne hf hg hself with h | h | h
    · omega
    · omega
    · exact .inr h

theorem nodup (hs : Separate source fs) : fs.Nodup := by
  refine hs.apart.imp_of_mem fun {f g} hf _ h => ?_
  rintro rfl
  have hle := hs.start_le hf
  have hself := (hs.placed f hf).not_nested_self
  rw [hself] at h
  rcases h with h | h | h | h
  · omega
  · omega
  · cases h
  · cases h

/-! ## Chains -/

theorem exists_directlyIn (hs : Separate source fs) (hf : f ∈ fs) (h : f.isNestedIn g = true) :
    ∃ k ∈ fs, k.Spans f ∧ k.DirectlyIn fs g := by
  induction hn : f.rangeStart using Nat.strongRecOn generalizing f with | ind n ih =>
  by_cases hdirect : f.DirectlyIn fs g
  · exact ⟨f, hf, .refl f, hdirect⟩
  · obtain ⟨k, hk, hfk, hkg⟩ : ∃ k ∈ fs, f.isNestedIn k = true ∧ k.isNestedIn g = true := by
      by_cases hex : ∃ k ∈ fs, f.isNestedIn k = true ∧ k.isNestedIn g = true
      · exact hex
      · exact absurd ⟨h, fun k hk hboth => hex ⟨k, hk, hboth⟩⟩ hdirect
    -- The one further out starts further to the left.
    have hout := (hs.placed k hk).inside hfk
    obtain ⟨j, hj, hspans, hjg⟩ := ih k.rangeStart (by omega) hk hkg rfl
    exact ⟨j, hj, hspans.trans (hs.spans_of_nested hk hfk), hjg⟩

theorem directlyIn_unique {F : Fragment} (hs : Separate source fs) (hF : F ∈ fs) (hg : g ∈ fs) (hk : k ∈ fs)
    (hgF : g.Spans F) (hkF : k.Spans F) (hgf : g.DirectlyIn fs f) (hkf : k.DirectlyIn fs f) : k = g := by
  rcases hs.chain hk hg hF hkF hgF with heq | hnested | hnested
  · exact heq
  · exact absurd ⟨hnested, hgf.1⟩ (hkf.2 g hg)
  · exact absurd ⟨hnested, hkf.1⟩ (hgf.2 k hk)

/-- Every fragment is in a component or is one. -/
theorem exists_component_spans (hs : Separate source fs) (hf : f ∈ fs) :
    ∃ g ∈ fs, g.Spans f ∧ g.isComponentAmong fs = true := by
  induction hn : f.rangeStart using Nat.strongRecOn generalizing f with | ind n ih =>
  by_cases hcomponent : f.isComponentAmong fs = true
  · exact ⟨f, hf, .refl f, hcomponent⟩
  · obtain ⟨k, hk, hfk⟩ : ∃ k ∈ fs, f.isNestedIn k = true := by
      simpa [isComponentAmong_iff] using hcomponent
    have hout := (hs.placed k hk).inside hfk
    obtain ⟨g, hg, hspans, hgc⟩ := ih k.rangeStart (by omega) hk rfl
    exact ⟨g, hg, hspans.trans (hs.spans_of_nested hk hfk), hgc⟩

/-! ## Holes around fragments -/

/-- Between two places outside holes, a fragment that is nested stands in a hole that is there too. -/
theorem exists_hole (hs : Separate source fs) (hg : g ∈ fs) (h : f.isNestedIn g = true) {i j : Nat}
    (hi : Hole.Whole g.localHoles i) (hj : Hole.Whole g.localHoles j) (hfi : g.rangeStart + i ≤ f.rangeStart)
    (hfj : f.rangeEnd ≤ g.rangeStart + j) (hle : f.rangeStart ≤ f.rangeEnd) :
    ∃ hole ∈ g.localHoles, i ≤ hole.start ∧ hole.last < j ∧ g.rangeStart + hole.start < f.rangeStart ∧
      f.rangeEnd ≤ g.rangeStart + hole.last := by
  obtain ⟨range, hrange, hin⟩ := List.any_eq_true.1 h
  rw [Bool.and_eq_true, decide_eq_true_eq, decide_eq_true_eq] at hin
  have hplace := (hs.placed g hg).holes range hrange
  have hmem : (⟨range.start - g.rangeStart, range.stop - (g.rangeStart + 1)⟩ : Hole) ∈ g.localHoles :=
    List.mem_map.2 ⟨range, hrange, rfl⟩
  have hwholei := hi _ hmem
  have hwholej := hj _ hmem
  simp only at hwholei hwholej
  refine ⟨_, hmem, ?_, ?_, ?_, ?_⟩
  · show i ≤ range.start - g.rangeStart
    omega
  · show range.stop - (g.rangeStart + 1) < j
    omega
  · show g.rangeStart + (range.start - g.rangeStart) < f.rangeStart
    omega
  · show f.rangeEnd ≤ g.rangeStart + (range.stop - (g.rangeStart + 1))
    omega

end Separate

end TaggedStyles.Fragment
