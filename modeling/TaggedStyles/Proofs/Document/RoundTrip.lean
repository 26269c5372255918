import TaggedStyles.Document.Parser
import TaggedStyles.Proofs.Document.Inner
import TaggedStyles.Proofs.Host.Spans

/-! When an unedited document prints back as its source. Printing never loses anything: it adds a semicolon to
each severed declaration that is printed from its tree, and what stands between components that are not in the
order of the source is printed again. So the source comes back exactly if there is nothing of both kinds. -/
namespace TaggedStyles
set_option autoImplicit false

/-! ## Fragments that are printed from their trees -/

namespace Fragment

/-- Where `f` is printed from its tree, so is `h`: it is `f`, or raws reach over it and over all between. -/
inductive Reveals (fs : List Fragment) (roots : List Root) : Fragment → Fragment → Prop
  | self {f : Fragment} : Reveals fs roots f f
  | inner {f g h : Fragment} {r : Root} : (f, r) ∈ fs.zip roots → g ∈ fs → g.DirectlyIn fs f →
      r.Covers g.rangeStart g.rangeEnd → Reveals fs roots g h → Reveals fs roots f h

/-- No declaration of the fragment is ended by an at-word. -/
def Unsevered (file : Option String) (f : Fragment) : Prop :=
  ∀ c ∈ (⟨f.text, f.location, file⟩ : Excerpt).constructs f.localHoles, c.severed = false

instance (file : Option String) (f : Fragment) : Decidable (f.Unsevered file) :=
  inferInstanceAs (Decidable (∀ c ∈ _, _))

theorem Reveals.mem {fs : List Fragment} {roots : List Root} {f g : Fragment} (h : Reveals fs roots f g)
    (hf : f ∈ fs) : g ∈ fs := by
  induction h with
  | self => exact hf
  | inner _ hg _ _ _ ih => exact ih hg

/-- Nothing is added in a fragment when it is printed from its tree. -/
def Sound (file : Option String) (fs : List Fragment) (roots : List Root) (f : Fragment) : Prop :=
  ∀ g, Reveals fs roots f g → g.Unsevered file

/-- What is printed for a fragment is not shorter than it, and is the fragment exactly if it is sound. -/
structure Grows (file : Option String) (fs : List Fragment) (roots : List Root) (f : Fragment) (t : Text) :
    Prop where
  size : f.text.size ≤ t.size
  eq : Sound file fs roots f → t = f.text
  sound : t.size = f.text.size → Sound file fs roots f

variable {source : Text} {fs : List Fragment} {roots : List Root} {file : Option String} {f g : Fragment}
  {r : Root} {a t c : Text} {done : List Rendered}

/-- Splicing into a raw adds something only if one of the fragments directly there is not sound. -/
theorem Window.splice_grows (hs : Separate source fs) (hf : f ∈ fs) (hw : Window f a t c)
    (hdone : RendersInner fs (Grows file fs roots) f done) :
    t.size ≤ (splice done t (f.rangeStart + (a.size + t.size))).size ∧
    ((∀ g ∈ fs, g.DirectlyIn fs f → f.rangeStart + a.size ≤ g.rangeStart →
        g.rangeEnd ≤ f.rangeStart + (a.size + t.size) → Sound file fs roots g) →
      splice done t (f.rangeStart + (a.size + t.size)) = t) ∧
    ((splice done t (f.rangeStart + (a.size + t.size))).size = t.size → ∀ g ∈ fs, g.DirectlyIn fs f →
      f.rangeStart + a.size ≤ g.rangeStart → g.rangeEnd ≤ f.rangeStart + (a.size + t.size) →
      Sound file fs roots g) := by
  have hwindow : f.rangeStart + (a.size + t.size) - t.size = f.rangeStart + a.size := by omega
  by_cases hnone : ∀ x ∈ done, ¬ x.Within (f.rangeStart + a.size) (f.rangeStart + (a.size + t.size))
  · have hsame : splice done t (f.rangeStart + (a.size + t.size)) = t := by
      refine splice_of_unchanged fun x hx hin => ?_
      rw [hwindow] at hin
      exact absurd hin (hnone x hx)
    rw [hsame]
    refine ⟨Nat.le_refl _, fun _ => rfl, fun _ g hg hdirect hfrom hto => ?_⟩
    obtain ⟨x, hx, -⟩ := hw.exists_outermost hs hf hdone hg hdirect hfrom hto
    obtain ⟨hxd, hin⟩ := Rendered.mem_outermost hx
    exact absurd hin (hnone x hxd)
  · obtain ⟨x₀, hx₀, hin₀⟩ :
        ∃ x ∈ done, x.Within (f.rangeStart + a.size) (f.rangeStart + (a.size + t.size)) := by
      simpa using hnone
    obtain ⟨g₀, hg₀, hxg₀, hgf₀⟩ := hw.nested hs hf hdone hx₀ hin₀
    have hmark := hw.includes hs hf hg₀ hgf₀ (hxg₀.start ▸ hin₀.1) (hxg₀.stop ▸ hin₀.2)
    have hmem := fun x =>
      @Rendered.mem_outermost (f.rangeStart + a.size) (f.rangeStart + (a.size + t.size)) done x
    have hfills := @splice_fills done t (f.rangeStart + (a.size + t.size)) hmark
    rw [hwindow] at hfills
    have hfills := hfills fun x hx => hw.standsIn hs hf hdone (hmem x hx).1 (hmem x hx).2
    have hgrow : ∀ x ∈ Rendered.outermost (f.rangeStart + a.size) (f.rangeStart + (a.size + t.size)) done,
        x.written.size ≤ x.content.size := by
      intro x hx
      obtain ⟨g, -, hxg, -⟩ := hw.directlyIn_of_mem_outermost hs hf hdone hx
      rw [hxg.written]
      exact hxg.content.size
    refine ⟨hfills.size_le hgrow, fun hsound => hfills.eq_of_unchanged fun x hx => ?_,
      fun hsize g hg hdirect hfrom hto => ?_⟩
    · obtain ⟨g, hg, hxg, hdirect, hfrom, hto⟩ := hw.directlyIn_of_mem_outermost hs hf hdone hx
      rw [hxg.written]
      exact hxg.content.eq (hsound g hg hdirect hfrom hto)
    · obtain ⟨x, hx, hxg⟩ := hw.exists_outermost hs hf hdone hg hdirect hfrom hto
      have hsame := hfills.size_eq hgrow hsize x hx
      rw [hxg.written] at hsame
      exact hxg.content.sound hsame

/-- By the pieces of a root: its own semicolons and what is spliced into its raws are all that is added. -/
theorem prints_grows (hs : Separate source fs) (hf : f ∈ fs) (hmem : (f, r) ∈ fs.zip roots)
    (hr : f.Becomes file fs r) (hdone : RendersInner fs (Grows file fs roots) f done) :
    Grows file fs roots f (Piece.prints done r.pieces) := by
  obtain ⟨role, hparse⟩ := hr.parse
  have hcuts := (hs.proper f hf).cuts
  obtain ⟨hread, -, -⟩ := Root.parse_spec hcuts hparse
  have hcss : r.css = f.text ↔ f.Unsevered file := Root.css_eq_text_iff hcuts hparse
  have hlays := hr.lays hs hf
  have htexts := hlays.texts
  have hown := hlays.size_le
  have hraws := fun t stop => @Becomes.window _ _ _ t file r hs hf hr stop
  have hgrow : ∀ t stop, Piece.raw t (some stop) ∈ r.pieces → t.size ≤ (splice done t stop).size := by
    intro t stop hpiece
    obtain ⟨a, c, hw, rfl⟩ := hraws t stop hpiece
    exact (hw.splice_grows hs hf hdone).1
  obtain ⟨hle, heq⟩ := Piece.size_prints hgrow
  rw [htexts] at hle heq
  refine ⟨by omega, fun hsound => ?_, fun hsize => ?_⟩
  · have hprints : Piece.prints done r.pieces = Piece.texts r.pieces := by
      refine Piece.prints_of_splice_eq fun t stop hpiece => ?_
      obtain ⟨a, c, hw, rfl⟩ := hraws t stop hpiece
      refine (hw.splice_grows hs hf hdone).2.1 fun g hg hdirect hfrom hto => ?_
      have hcover : r.Covers g.rangeStart g.rangeEnd :=
        ⟨(t, _), (Root.raw_mem_pieces_iff hread.complete).1 hpiece, by simp only; omega, hto⟩
      exact fun h hgh => hsound h (.inner hmem hg hdirect hcover hgh)
    rw [hprints, htexts]
    exact hcss.2 (hsound f .self)
  · have hsame : r.css = f.text := (hlays.eq_of_size (by omega)).symm
    have hall := heq (by omega)
    intro h hfh
    cases hfh with
    | self => exact hcss.1 hsame
    | @inner _ g _ s hs' hg hdirect hcover hgh =>
      obtain rfl := eq_of_mem_zip hs.nodup hs' hmem
      obtain ⟨⟨t, stop⟩, hraw, hfrom, hto⟩ := hcover
      have hpiece := (Root.raw_mem_pieces_iff hread.complete).2 hraw
      obtain ⟨a, c, hw, rfl⟩ := hraws t stop hpiece
      simp only at hfrom hto
      exact (hw.splice_grows hs hf hdone).2.2 (hall t _ hpiece) g hg hdirect (by omega) hto h hgh

end Fragment

/-! ## Documents -/

namespace Document
variable {source : Text} {fs : List Fragment} {file : Option String} {d : Document}

/-- Each component grows as its tree says, with all nested roots rendered. -/
theorem components_grow (hs : Fragment.Separate source fs) (hd : Document.assemble source fs file = .ok d) :
    ∀ x ∈ Fragment.showns fs (Rendered.ofRoots d.roots) fs d.roots,
      ∃ f ∈ fs, f.RendersAs (Fragment.Grows file fs d.roots) x := by
  obtain ⟨-, hbuilds⟩ := assemble_builds hd
  have hroots := Fragment.hasRoots hs hbuilds.becomes
  have hrendered := Fragment.ofRoots_shows (P := Fragment.Grows file fs d.roots) hs hroots
    fun f hf r hr hfr hnested done hdone => by
      obtain ⟨g, hmem, hgr⟩ := Fragment.exists_fragment hbuilds.becomes hr
      have hg := (List.of_mem_zip hmem).1
      have hroot := hgr.hasRoot hs hg
      obtain rfl := hs.eq_of_range hg hf (hroot.start.symm.trans hfr.start) (hroot.stop.symm.trans hfr.stop)
      obtain ⟨role, hread⟩ := hgr.readFrom
      rw [Root.print_nested hread.complete hnested]
      exact Fragment.prints_grows hs hg hmem hgr hdone
  intro x hx
  have hzip := Fragment.becomes_zip hbuilds.becomes
  obtain ⟨f, hf, r, -, ⟨hmem, hfr⟩, hcomponent, rfl⟩ := Fragment.mem_showns hzip hx
  have hdone := Fragment.rendersInner_of_component hs hf hcomponent hroots hrendered
  exact ⟨f, hf, rfl, rfl, rfl, Fragment.prints_grows hs hf hmem hfr hdone⟩

/-- A document prints as its source exactly if its components stand in the order of the source and nothing is
added in them. -/
theorem print_iff_of_separate (hs : Fragment.Separate source fs)
    (hd : Document.assemble source fs file = .ok d) :
    d.print = source ↔
      (fs.filter (Fragment.isComponentAmong fs)).Pairwise (·.rangeEnd ≤ ·.rangeStart) ∧
      ∀ f ∈ fs, f.isComponentAmong fs = true → Fragment.Sound file fs d.roots f := by
  by_cases hne : fs = []
  · subst hne
    simp [print_of_no_fragments hd]
  · obtain ⟨-, hbuilds⟩ := assemble_builds hd
    have hshown := components_grow hs hd
    rw [print_eq_stitch hs.placed hd hne]
    have hstands : ∀ x ∈ Fragment.showns fs (Rendered.ofRoots d.roots) fs d.roots,
        source.slice? x.start x.stop = some x.written := by
      intro x hx
      obtain ⟨f, hf, hfx⟩ := hshown x hx
      rw [hfx.start, hfx.stop, hfx.written]
      exact (hs.placed f hf).text
    have hgrow : ∀ x ∈ Fragment.showns fs (Rendered.ofRoots d.roots) fs d.roots,
        x.written.size ≤ x.content.size := by
      intro x hx
      obtain ⟨f, -, hfx⟩ := hshown x hx
      rw [hfx.written]
      exact hfx.content.size
    constructor
    · intro hprint
      obtain ⟨-, hsame⟩ := @size_stitch source [] source _ hstands hgrow rfl
      obtain ⟨hrow, hsizes⟩ := hsame (congrArg Text.size hprint)
      refine ⟨(Fragment.pairwise_of_showns_inRow hbuilds.becomes (fun f hf => hs.start_le hf) hrow).1,
        fun f hf hcomponent => ?_⟩
      obtain ⟨r, hr⟩ := Fragment.shown_mem_showns (Rendered.ofRoots d.roots) hbuilds.becomes hf hcomponent
      obtain ⟨g, hg, hgx⟩ := hshown _ hr
      obtain rfl := hs.eq_of_range hf hg hgx.start hgx.stop
      have hsize := hsizes _ hr
      rw [hgx.written] at hsize
      exact hgx.content.sound hsize
    · rintro ⟨hordered, hsound⟩
      have hrow := Fragment.showns_inRow (Rendered.ofRoots d.roots) d.roots hordered
        fun f _ _ => Nat.zero_le f.rangeStart
      refine (@stitch_fills source [] source _ hrow hstands rfl).eq_of_unchanged fun x hx => ?_
      obtain ⟨f, hf, r, -, -, hcomponent, rfl⟩ := Fragment.mem_showns hbuilds.becomes hx
      obtain ⟨g, hg, hgx⟩ := hshown _ hx
      obtain rfl := hs.eq_of_range hf hg hgx.start hgx.stop
      rw [hgx.written]
      exact hgx.content.eq (hsound f hf hcomponent)

/-- If the spans of the host code are right, an unedited document prints back as its source exactly if the
fragments on their own are located in the order of the source, and no declaration is severed in a fragment that
is printed from its tree. -/
theorem print_of_parse {p : Host.Parser} (hspans : p.SpansRight source file)
    (hd : Document.parse p source file = .ok d) :
    let fs := Host.located p source file
    d.print = source ↔
      (fs.filter (Fragment.isComponentAmong fs)).Pairwise (·.rangeEnd ≤ ·.rangeStart) ∧
      ∀ f ∈ fs, f.isComponentAmong fs = true → Fragment.Sound file fs d.roots f :=
  print_iff_of_separate (Host.located_separate hspans) hd

def nestedSource : Text := "let a = css\x60$\x7bcss\x60a:b\x60\x7d c:d\x60;".toList

/-- The code of `nestedSource`: a declaration of one name. -/
def nestedCode : List Host.Code :=
  [.other [.other [.other [], .tagged (.name "css".toList) [] ⟨⟨11, 28⟩, [⟨12, 12⟩, ⟨23, 27⟩]⟩
    [.tagged (.name "css".toList) [] ⟨⟨17, 22⟩, [⟨18, 21⟩]⟩ []]]]]

/-- A document with one fragment in another prints back. -/
theorem print_of_parse_nested :
    ∃ d, Document.parse (.only nestedSource nestedCode) nestedSource none = .ok d ∧ d.roots.length = 2 ∧
      d.print = nestedSource := by
  have hclean : ∀ g ∈ Host.located (.only nestedSource nestedCode) nestedSource none, g.Unsevered none := by
    decide +kernel
  have hparse : (Document.parse (.only nestedSource nestedCode) nestedSource none).map (·.roots.length) = .ok 2 := by
    decide +kernel
  obtain ⟨d, hd, hlength⟩ := map_eq_ok.1 hparse
  have hiff := print_of_parse (Host.Parser.only_spansRight (by decide +kernel)) hd
  exact ⟨d, hd, hlength, hiff.2 ⟨by decide +kernel, fun f hf _ g hfg => hclean g (hfg.mem hf)⟩⟩

/-- A style text in the tag of another comes behind it in the walk, and what stands between the two is printed
twice. -/
theorem print_of_parse_tag :
    (Host.Parser.only Host.tagSource Host.tagCode).SpansRight Host.tagSource none ∧
    ∃ d, Document.parse (.only Host.tagSource Host.tagCode) Host.tagSource none = .ok d ∧
      d.print = "let a = styled(styled(X)\x60a: 1;\x60)\x60b: 2;a: 1;\x60)\x60b: 2;\x60;".toList ∧
      d.print ≠ Host.tagSource := by
  have hparse : (Document.parse (.only Host.tagSource Host.tagCode) Host.tagSource none).map Document.print =
      .ok "let a = styled(styled(X)\x60a: 1;\x60)\x60b: 2;a: 1;\x60)\x60b: 2;\x60;".toList := by decide +kernel
  obtain ⟨d, hd, hprint⟩ := map_eq_ok.1 hparse
  refine ⟨Host.Parser.only_spansRight Host.tagCode_spanned, d, hd, hprint, ?_⟩
  rw [hprint]
  decide +kernel

/-- A declaration that an at-word ends gains a semicolon. -/
example : (Document.assemble "css\x60a: b @media x \x7b\x7d\x60".toList
    [⟨"a: b @media x \x7b\x7d".toList, 4, 20, [], ⟨4, 1, 5⟩⟩] none).map Document.print =
      .ok "css\x60a: b; @media x \x7b\x7d\x60".toList := by decide +kernel

end Document

end TaggedStyles
