import Mathlib.Data.List.Nodup
import TaggedStyles.Proofs.Document.Nesting

/-! Rendering from the inside out. When a fragment is rendered, all fragments in it have been, and none around
it. What stands in a raw of its root then lines up, and the style texts that are spliced in are those directly
in the fragment. -/
namespace TaggedStyles.Fragment
set_option autoImplicit false

/-! ## What has been rendered -/

/-- `x` is a fragment as it is rendered, with a content of which `P` holds. -/
structure RendersAs (P : Fragment → Text → Prop) (f : Fragment) (x : Rendered) : Prop where
  start : x.start = f.rangeStart
  stop : x.stop = f.rangeEnd
  written : x.written = f.text
  content : P f x.content

/-- What is rendered before `f`: all in it, nothing around it, and not the fragment itself. -/
structure RendersInner (fs : List Fragment) (P : Fragment → Text → Prop) (f : Fragment) (done : List Rendered) :
    Prop where
  each : ∀ x ∈ done, ∃ g ∈ fs, ¬ g.Spans f ∧ g.RendersAs P x
  inner : ∀ g ∈ fs, g.isNestedIn f = true → ∃ x ∈ done, g.RendersAs P x
  apart : done.Pairwise Rendered.Apart

/-- Part of the text of a fragment, between two places outside its holes. -/
structure Window (f : Fragment) (a t c : Text) : Prop where
  text : f.text = a ++ t ++ c
  left : Hole.Whole f.localHoles a.size
  right : Hole.Whole f.localHoles (a.size + t.size)

variable {source : Text} {fs : List Fragment} {f g k : Fragment} {P : Fragment → Text → Prop} {x y : Rendered}
  {done : List Rendered} {a t c : Text}

namespace RendersInner

theorem start_le (hs : Separate source fs) (h : RendersInner fs P f done) : ∀ x ∈ done, x.start ≤ x.stop := by
  intro x hx
  obtain ⟨g, hg, -, hgx⟩ := h.each x hx
  rw [hgx.start, hgx.stop]
  exact hs.start_le hg

theorem written_size (hs : Separate source fs) (h : RendersInner fs P f done) :
    ∀ x ∈ done, x.start + x.written.size = x.stop := by
  intro x hx
  obtain ⟨g, hg, -, hgx⟩ := h.each x hx
  rw [hgx.start, hgx.stop, hgx.written]
  exact (hs.placed g hg).size

theorem eq_of_range (hs : Separate source fs) (h : RendersInner fs P f done) (hx : x ∈ done) (hy : y ∈ done)
    (hstart : x.start = y.start) (hstop : x.stop = y.stop) : x = y := by
  have hsymm : Std.Symm Rendered.Apart := ⟨fun _ _ => Rendered.Apart.symm⟩
  have hle := h.start_le hs x hx
  by_cases heq : x = y
  · exact heq
  · have hapart := h.apart.forall hx hy heq
    simp only [Rendered.Apart, Rendered.Inside] at hapart
    omega

end RendersInner

namespace Window

theorem size_le (hs : Separate source fs) (hf : f ∈ fs) (hw : Window f a t c) :
    f.rangeStart + (a.size + t.size) ≤ f.rangeEnd := by
  have hsize := (hs.placed f hf).size
  have hsizes := congrArg Text.size hw.text
  rw [Text.size_append, Text.size_append] at hsizes
  omega

theorem nested (hs : Separate source fs) (hf : f ∈ fs) (hw : Window f a t c) (hdone : RendersInner fs P f done)
    (hx : x ∈ done) (hin : x.Within (f.rangeStart + a.size) (f.rangeStart + (a.size + t.size))) :
    ∃ g ∈ fs, g.RendersAs P x ∧ g.isNestedIn f = true := by
  obtain ⟨g, hg, hout, hgx⟩ := hdone.each x hx
  have hstart := hgx.start
  have hstop := hgx.stop
  have hle := hw.size_le hs hf
  obtain ⟨hin1, hin2⟩ := hin
  refine ⟨g, hg, hgx, (hs.eq_or_nested hg hf ⟨by omega, by omega⟩).resolve_left ?_⟩
  rintro rfl
  exact hout ⟨Nat.le_refl _, Nat.le_refl _⟩

theorem slice (hs : Separate source fs) (hf : f ∈ fs) (hw : Window f a t c) :
    source.slice? (f.rangeStart + a.size) (f.rangeStart + (a.size + t.size)) = some t :=
  Text.slice?_of_slice? (hs.placed f hf).text (Text.slice?_eq_some.2 ⟨a, c, hw.text, rfl, rfl⟩)

theorem standsIn (hs : Separate source fs) (hf : f ∈ fs) (hw : Window f a t c)
    (hdone : RendersInner fs P f done) (hx : x ∈ done)
    (hin : x.Within (f.rangeStart + a.size) (f.rangeStart + (a.size + t.size))) :
    x.standsIn t (f.rangeStart + a.size) = true := by
  obtain ⟨g, hg, hgx, -⟩ := hw.nested hs hf hdone hx hin
  have hwritten :=
    Text.slice?_inner (hw.slice hs hf) (hs.placed g hg).text (hgx.start ▸ hin.1) (hgx.stop ▸ hin.2)
  unfold Rendered.standsIn
  rw [hgx.start, hgx.stop, hgx.written, hwritten]
  simpa using hs.start_le hg

/-- Around a fragment that stands in a window, there is a whole hole in the window. -/
theorem exists_hole (hs : Separate source fs) (hf : f ∈ fs) (hw : Window f a t c) (hg : g ∈ fs)
    (hgf : g.isNestedIn f = true) (hfrom : f.rangeStart + a.size ≤ g.rangeStart)
    (hto : g.rangeEnd ≤ f.rangeStart + (a.size + t.size)) :
    ∃ hole ∈ f.localHoles, a.size ≤ hole.start ∧ hole.last < a.size + t.size ∧
      f.rangeStart + hole.start < g.rangeStart ∧ g.rangeEnd ≤ f.rangeStart + hole.last :=
  hs.exists_hole hf hgf hw.left hw.right hfrom hto (hs.start_le hg)

theorem includes (hs : Separate source fs) (hf : f ∈ fs) (hw : Window f a t c) (hg : g ∈ fs)
    (hgf : g.isNestedIn f = true) (hfrom : f.rangeStart + a.size ≤ g.rangeStart)
    (hto : g.rangeEnd ≤ f.rangeStart + (a.size + t.size)) : t.includes holeMark = true := by
  obtain ⟨hole, hhole, hole1, hole2, -, -⟩ := hw.exists_hole hs hf hg hgf hfrom hto
  have hmarked := (hs.proper f hf).marked hole hhole
  have horder := hmarked.order
  have hopens : t.slice? (hole.start - a.size) (hole.start + 2 - a.size) = some holeMark :=
    Text.slice?_inner (Text.slice?_eq_some.2 ⟨a, c, hw.text, rfl, rfl⟩) hmarked.opens hole1 (by omega)
  obtain ⟨u, v, rfl, -, -⟩ := Text.slice?_eq_some.1 hopens
  exact Text.includes_append u holeMark v

theorem closed (hs : Separate source fs) (hf : f ∈ fs) (hw : Window f a t c) (hg : g ∈ fs) (hk : k ∈ fs)
    (hgk : g.isNestedIn k = true) (hkf : k.isNestedIn f = true) (hfrom : f.rangeStart + a.size ≤ g.rangeStart)
    (hto : g.rangeEnd ≤ f.rangeStart + (a.size + t.size)) :
    f.rangeStart + a.size ≤ k.rangeStart ∧ k.rangeEnd ≤ f.rangeStart + (a.size + t.size) := by
  have hsize := (hs.placed f hf).size
  have hin := (hs.placed k hk).inside hgk
  have hout := (hs.placed f hf).inside hkf
  have hleg := hs.start_le hg
  have hfront : Hole.Whole f.localHoles 0 := fun _ _ hlt => absurd hlt (Nat.not_lt_zero _)
  obtain ⟨hole, hhole, -, -, hole1, hole2⟩ := hs.exists_hole hf hkf hfront (hs.proper f hf).whole_end (by omega)
    (by omega) (hs.start_le hk)
  have hleft := hw.left hole hhole
  have hright := hw.right hole hhole
  omega

theorem directlyIn_of_mem_outermost (hs : Separate source fs) (hf : f ∈ fs) (hw : Window f a t c)
    (hdone : RendersInner fs P f done)
    (hx : x ∈ Rendered.outermost (f.rangeStart + a.size) (f.rangeStart + (a.size + t.size)) done) :
    ∃ g ∈ fs, g.RendersAs P x ∧ g.DirectlyIn fs f ∧ f.rangeStart + a.size ≤ g.rangeStart ∧
      g.rangeEnd ≤ f.rangeStart + (a.size + t.size) := by
  obtain ⟨hxd, hin⟩ := Rendered.mem_outermost hx
  obtain ⟨g, hg, hxg, hgf⟩ := hw.nested hs hf hdone hxd hin
  rw [Rendered.Within, hxg.start, hxg.stop] at hin
  refine ⟨g, hg, hxg, ⟨hgf, fun k hk hboth => ?_⟩, hin⟩
  obtain ⟨hgk, hkf⟩ := hboth
  obtain ⟨y, hy, hyk⟩ := hdone.inner k hk hkf
  have hin' := hw.closed hs hf hg hk hgk hkf hin.1 hin.2
  rw [← hyk.start, ← hyk.stop] at hin'
  refine Rendered.not_inside_of_mem_outermost hdone.apart (hdone.start_le hs) hx hy hin' ?_
  rw [Rendered.Inside, hxg.start, hxg.stop, hyk.start, hyk.stop]
  exact (hs.placed k hk).inside hgk

theorem exists_outermost (hs : Separate source fs) (hf : f ∈ fs) (hw : Window f a t c)
    (hdone : RendersInner fs P f done) (hg : g ∈ fs) (hdirect : g.DirectlyIn fs f)
    (hfrom : f.rangeStart + a.size ≤ g.rangeStart) (hto : g.rangeEnd ≤ f.rangeStart + (a.size + t.size)) :
    ∃ x ∈ Rendered.outermost (f.rangeStart + a.size) (f.rangeStart + (a.size + t.size)) done,
      g.RendersAs P x := by
  obtain ⟨x, hx, hxg⟩ := hdone.inner g hg hdirect.1
  have hin : x.Within (f.rangeStart + a.size) (f.rangeStart + (a.size + t.size)) := by
    rw [Rendered.Within, hxg.start, hxg.stop]
    exact ⟨hfrom, hto⟩
  refine ⟨x, Rendered.mem_outermost_of_max hdone.apart (hdone.start_le hs) hx hin fun y hy hin' hxy => ?_, hxg⟩
  obtain ⟨k, hk, hyk, hkf⟩ := hw.nested hs hf hdone hy hin'
  rw [Rendered.Inside, hxg.start, hxg.stop, hyk.start, hyk.stop] at hxy
  exact hdirect.2 k hk ⟨(hs.nested_iff hg hk).2 hxy, hkf⟩

end Window

theorem exists_window {seam : Nat → Prop} {o : Nat} {ps qs : List Piece} {t p : Text} {stop : Nat}
    (h : Lays (Hole.Clear f.text f.localHoles) seam o 0 (ps ++ .raw t (some stop) :: qs) f.text p) :
    ∃ a c a' c', p = a' ++ t ++ c' ∧ Window f a t c ∧ stop = o + (a.size + t.size) ∧
      Lays (Hole.Clear f.text f.localHoles) seam o 0 ps a a' ∧
      Lays (Hole.Clear f.text f.localHoles) seam o (a.size + t.size) qs c c' := by
  obtain ⟨w, w', p₁, p₂, hw, hp, hfront, hback⟩ := h.split
  rw [Nat.zero_add] at hback
  cases hback with
  | @raw _ _ _ c c' hleft hright hmore =>
    rw [← List.append_assoc] at hw hp
    exact ⟨w, c, p₁, c', hp, ⟨hw, hleft.whole, hright.whole⟩, rfl, hfront, hmore⟩

/-! ## Order of rendering -/

/-- A fragment and its root. -/
structure HasRoot (fs : List Fragment) (f : Fragment) (r : Root) : Prop where
  start : r.rangeStart = f.rangeStart
  stop : r.rangeEnd = f.rangeEnd
  component : r.isComponent = f.isComponentAmong fs
  written : r.isComponent = false → r.written? = some f.text

theorem HasRoot.of_role {r r' : Root} (h : HasRoot fs f r) (hstart : r'.rangeStart = r.rangeStart)
    (hstop : r'.rangeEnd = r.rangeEnd) (hrole : r'.role = r.role) : HasRoot fs f r' := by
  have hcomponent := Root.isComponent_of_role hrole
  refine ⟨hstart.trans h.start, hstop.trans h.stop, hcomponent.trans h.component, ?_⟩
  rw [hcomponent, Root.written_of_role hrole]
  exact h.written

theorem Becomes.readClear {file : Option String} {r : Root} (hs : Separate source fs) (hf : f ∈ fs)
    (h : f.Becomes file fs r) :
    ∃ role, r.ReadFrom (Hole.Clear f.text f.localHoles) ⟨f.text, f.location, file⟩ f.localHoles role :=
  let ⟨role, hrole⟩ := h.parse
  ⟨role, (Root.parse_spec (hs.proper f hf).cuts hrole).1⟩

theorem Becomes.hasRoot {file : Option String} {r : Root} (hs : Separate source fs) (hf : f ∈ fs)
    (h : f.Becomes file fs r) : HasRoot fs f r := by
  obtain ⟨role, hread⟩ := h.readFrom
  have hstart : r.rangeStart = f.location.offset := hread.rangeStart
  have hstop : r.rangeEnd = f.location.offset + f.text.size := hread.rangeEnd
  have hoffset := (hs.placed f hf).location
  have hsize := (hs.placed f hf).size
  exact ⟨by omega, by omega, h.component, h.written⟩

theorem Becomes.lays {file : Option String} {r : Root} (hs : Separate source fs) (hf : f ∈ fs)
    (h : f.Becomes file fs r) :
    Lays (Hole.Clear f.text f.localHoles) (· ∈ Excerpt.seams ⟨f.text, f.location, file⟩ f.localHoles) f.rangeStart 0
      r.pieces f.text r.css := by
  obtain ⟨role, hread⟩ := h.readClear hs hf
  have hlays := hread.lays
  simp only [(hs.placed f hf).location] at hlays
  exact hlays

/-- Each raw with its end is a window of the fragment. -/
theorem Becomes.window {file : Option String} {r : Root} (hs : Separate source fs) (hf : f ∈ fs)
    (h : f.Becomes file fs r) {stop : Nat} (hpiece : Piece.raw t (some stop) ∈ r.pieces) :
    ∃ a c, Window f a t c ∧ stop = f.rangeStart + (a.size + t.size) := by
  have hlays := h.lays hs hf
  obtain ⟨ps, qs, hpieces⟩ := List.append_of_mem hpiece
  rw [hpieces] at hlays
  obtain ⟨a, c, -, -, -, hw, hstop, -, -⟩ := exists_window hlays
  exact ⟨a, c, hw, hstop⟩

theorem hasRoots {file : Option String} {roots : List Root} (hs : Separate source fs)
    (hroots : List.Forall₂ (Becomes file fs) fs roots) : List.Forall₂ (HasRoot fs) fs roots :=
  forall₂_imp_of_mem hroots fun _ hf _ _ h => h.hasRoot hs hf

theorem becomes_zip {file : Option String} {roots : List Root} (hroots : List.Forall₂ (Becomes file fs) fs roots) :
    List.Forall₂ (fun f r => (f, r) ∈ fs.zip roots ∧ f.Becomes file fs r) fs roots := by
  obtain ⟨hlen, hzip⟩ := List.forall₂_iff_zip.1 hroots
  exact List.forall₂_iff_zip.2 ⟨hlen, fun hmem => ⟨hmem, hzip hmem⟩⟩

theorem exists_fragment {file : Option String} {roots : List Root} {r : Root}
    (hroots : List.Forall₂ (Becomes file fs) fs roots) (hr : r ∈ roots) :
    ∃ f, (f, r) ∈ fs.zip roots ∧ f.Becomes file fs r := by
  obtain ⟨f, -, hf⟩ := forall₂_mem_right (becomes_zip hroots) hr
  exact ⟨f, hf⟩

/-- A nested root prints what `P` says of its fragment. -/
def ShowsRoot (fs : List Fragment) (P : Fragment → Text → Prop) (r : Root) (t : Text) : Prop :=
  r.isComponent = false ∧ ∃ f ∈ fs, HasRoot fs f r ∧ P f t

/-- The range of a root, as a style text to compare with others. -/
def place (r : Root) : Rendered := ⟨r.rangeStart, r.rangeEnd, [], []⟩

variable {r : Root} {roots members : List Root}

theorem rendersAs_of_showsRoot (h : Rendered.Renders (ShowsRoot fs P) r x) :
    ∃ f ∈ fs, HasRoot fs f r ∧ f.RendersAs P x := by
  obtain ⟨hnested, f, hf, hroot, hcontent⟩ := h.content
  refine ⟨f, hf, hroot, h.start.trans hroot.start, h.stop.trans hroot.stop, ?_, hcontent⟩
  rw [h.written, hroot.written hnested, Option.getD_some]

theorem roots_apart (hs : Separate source fs) (hroots : List.Forall₂ (HasRoot fs) fs roots) :
    (Rendered.inOrder roots).Pairwise fun r s => (place r).Apart (place s) := by
  have hranges : fs.Pairwise fun f g =>
      Rendered.Apart ⟨f.rangeStart, f.rangeEnd, [], []⟩ ⟨g.rangeStart, g.rangeEnd, [], []⟩ := by
    refine hs.apart.imp_of_mem fun {f g} hf hg h => ?_
    rcases h with h | h | h | h
    · exact .inl h
    · exact .inr (.inl h)
    · exact .inr (.inr (.inl ((hs.placed g hg).inside h)))
    · exact .inr (.inr (.inr ((hs.placed f hf).inside h)))
  have hplaces : roots.Pairwise fun r s => (place r).Apart (place s) := by
    refine forall₂_pairwise hroots hranges fun f r g s hfr hgs h => ?_
    rw [← hfr.start, ← hfr.stop, ← hgs.start, ← hgs.stop] at h
    exact h
  exact (sorted_perm _).symm.pairwise (hplaces.filter _) fun h => h.symm

theorem nested_of_nested (hf : f ∈ fs) (hgf : g.isNestedIn f = true) : g.isComponentAmong fs = false := by
  by_cases hcomponent : g.isComponentAmong fs = true
  · have hnot := isComponentAmong_iff.1 hcomponent f hf
    rw [hgf] at hnot
    cases hnot
  · simpa using hcomponent

/-- Some nested roots, rendered one after the other, if all in `f` are among them and none around it. -/
theorem rendersInner_of_forall₂ (hs : Separate source fs) (hroots : List.Forall₂ (HasRoot fs) fs roots)
    (hdone : List.Forall₂ (Rendered.Renders (ShowsRoot fs P)) members done)
    (hapart : members.Pairwise fun r s => (place r).Apart (place s))
    (hnone : ∀ s ∈ members, ∀ g ∈ fs, HasRoot fs g s → ¬ g.Spans f)
    (hall : ∀ s ∈ roots, ∀ g ∈ fs, HasRoot fs g s → g.isNestedIn f = true → s ∈ members) :
    RendersInner fs P f done := by
  refine ⟨fun x hx => ?_, fun g hg hgf => ?_, ?_⟩
  · obtain ⟨s, hsm, hsx⟩ := forall₂_mem_right hdone hx
    obtain ⟨g, hg, hgs, hgx⟩ := rendersAs_of_showsRoot hsx
    exact ⟨g, hg, hnone s hsm g hg hgs, hgx⟩
  · obtain ⟨s, hsr, hgs⟩ := forall₂_mem_left hroots hg
    obtain ⟨x, hx, hsx⟩ := forall₂_mem_left hdone (hall s hsr g hg hgs hgf)
    obtain ⟨k, hk, hks, hkx⟩ := rendersAs_of_showsRoot hsx
    obtain rfl := hs.eq_of_range hk hg (hks.start.symm.trans hgs.start) (hks.stop.symm.trans hgs.stop)
    exact ⟨x, hx, hkx⟩
  · refine forall₂_pairwise hdone hapart fun r x s y hrx hsy h => ?_
    simp only [place, Rendered.Apart, Rendered.Inside, ← hrx.start, ← hrx.stop, ← hsy.start, ← hsy.stop] at h
    exact h

theorem rendersInner_of_component (hs : Separate source fs) (hf : f ∈ fs)
    (hcomponent : f.isComponentAmong fs = true) (hroots : List.Forall₂ (HasRoot fs) fs roots)
    (hdone : List.Forall₂ (Rendered.Renders (ShowsRoot fs P)) (Rendered.inOrder roots) done) :
    RendersInner fs P f done := by
  refine rendersInner_of_forall₂ hs hroots hdone (roots_apart hs hroots) (fun s hsm g hg hgs hspans => ?_)
    fun s hsr g hg hgs hgf => ?_
  · have hnested := (Rendered.mem_inOrder.1 hsm).2
    rcases hs.eq_or_nested hf hg hspans with rfl | hfg
    · rw [hgs.component, hcomponent] at hnested
      cases hnested
    · rw [isComponentAmong_iff.1 hcomponent g hg] at hfg
      cases hfg
  · exact Rendered.mem_inOrder.2 ⟨hsr, hgs.component.trans (nested_of_nested hf hgf)⟩

/-- When a nested root is rendered, all in it have been and nothing around it. -/
theorem rendersInner_of_split {earlier later : List Root} (hs : Separate source fs)
    (hroots : List.Forall₂ (HasRoot fs) fs roots) (hsplit : Rendered.inOrder roots = earlier ++ r :: later)
    (hdone : List.Forall₂ (Rendered.Renders (ShowsRoot fs P)) earlier done) (hf : f ∈ fs)
    (hfr : HasRoot fs f r) :
    RendersInner fs P f done := by
  have hapart := roots_apart hs hroots
  have hsorted := Rendered.inOrder_sorted roots
  rw [hsplit, List.pairwise_append, List.pairwise_cons] at hapart
  rw [hsplit, List.pairwise_append] at hsorted
  have hstart := hfr.start
  have hstop := hfr.stop
  refine rendersInner_of_forall₂ hs hroots hdone hapart.1 (fun s hsm g hg hgs hspans => ?_)
    fun s hsr g hg hgs hgf => ?_
  · -- What comes before is neither here nor longer.
    have hsr := hapart.2.2 s hsm r List.mem_cons_self
    have hshorter := hsorted.2.2 s hsm r List.mem_cons_self
    have hle := hs.start_le hf
    have hgstart := hgs.start
    have hgstop := hgs.stop
    obtain ⟨hspans1, hspans2⟩ := hspans
    simp only [place, Rendered.Apart, Rendered.Inside] at hsr
    simp only [Rendered.lengthLe, decide_eq_true_eq] at hshorter
    omega
  · have hin := (hs.placed f hf).inside hgf
    have hle := hs.start_le hg
    have hgstart := hgs.start
    have hgstop := hgs.stop
    exact Rendered.mem_earlier hsplit hsr (hgs.component.trans (nested_of_nested hf hgf)) (by omega)

/-- By induction from the inside out: what holds of the print of a nested root, if it holds of all that are
rendered before, holds of all nested roots. -/
theorem inTurn_shows {front rest : List Root} (hs : Separate source fs)
    (hroots : List.Forall₂ (HasRoot fs) fs roots)
    (hstep : ∀ f ∈ fs, ∀ r ∈ roots, HasRoot fs f r → r.isComponent = false → ∀ done, RendersInner fs P f done →
      P f (r.print done)) (hsplit : Rendered.inOrder roots = front ++ rest) :
    List.Forall₂ (Rendered.Renders (ShowsRoot fs P)) front (Rendered.inTurn front) := by
  refine Rendered.inTurn_renders (fun earlier r later hsplit done hdone => ?_) hsplit
  have hr : r ∈ Rendered.inOrder roots := by rw [hsplit]; simp
  obtain ⟨hr, hnested⟩ := Rendered.mem_inOrder.1 hr
  obtain ⟨f, hf, hfr⟩ := forall₂_mem_right hroots hr
  exact ⟨hnested, f, hf, hfr, hstep f hf r hr hfr hnested done
    (rendersInner_of_split hs hroots hsplit hdone hf hfr)⟩

theorem ofRoots_shows (hs : Separate source fs) (hroots : List.Forall₂ (HasRoot fs) fs roots)
    (hstep : ∀ f ∈ fs, ∀ r ∈ roots, HasRoot fs f r → r.isComponent = false → ∀ done, RendersInner fs P f done →
      P f (r.print done)) :
    List.Forall₂ (Rendered.Renders (ShowsRoot fs P)) (Rendered.inOrder roots) (Rendered.ofRoots roots) :=
  inTurn_shows hs hroots hstep (List.append_nil _).symm

end TaggedStyles.Fragment
