import Mathlib.Data.List.Nodup
import TaggedStyles.Proofs.Document.Inner

/-! Edits of a nested style text. If its place lies in raws at every level of nesting, the document prints the
edit in its place and the rest of the source as it was: splicing takes the outermost style texts of a raw, and
only those around the edit print differently. -/
namespace TaggedStyles
set_option autoImplicit false

/-! ## One fragment that prints something new -/

namespace Fragment
variable {source : Text} {fs : List Fragment} {F f g : Fragment} {new t a c : Text} {x : Rendered}
  {done : List Rendered}

/-- The text of `g` with a new text in the place of `F`. -/
def Patched (F : Fragment) (new : Text) (g : Fragment) (t : Text) : Prop :=
  ∃ a c, g.text = a ++ F.text ++ c ∧ t = a ++ new ++ c ∧ g.rangeStart + a.size = F.rangeStart

/-- What `g` prints where `F` prints something new: that in its place, if `g` is around it, and else its own
text. -/
def Shows (F : Fragment) (new : Text) (g : Fragment) (t : Text) : Prop :=
  (g.Spans F → F.Patched new g t) ∧ (¬ g.Spans F → t = g.text)

theorem unchanged_of_within (hdone : RendersInner fs (F.Shows new) f done) (hx : x ∈ done) {start stop : Nat}
    (hin : x.Within start stop) (hout : ¬ (start ≤ F.rangeStart ∧ F.rangeEnd ≤ stop)) :
    x.content = x.written := by
  obtain ⟨g, -, -, hg⟩ := hdone.each x hx
  have hstart := hg.start
  have hstop := hg.stop
  obtain ⟨hin1, hin2⟩ := hin
  rw [hg.written]
  refine hg.content.2 fun hspans => hout ?_
  obtain ⟨hspans1, hspans2⟩ := hspans
  omega

/-- In the raw that reaches over the fragment directly in `f` around `F`, only the place of `F` changes. -/
theorem splice_patched (hs : Separate source fs) (hF : F ∈ fs) (hf : f ∈ fs)
    (hdone : RendersInner fs (F.Shows new) f done) (hw : Window f a t c) (hg : g ∈ fs) (hgF : g.Spans F)
    (hdirect : g.DirectlyIn fs f) (hfrom : f.rangeStart + a.size ≤ g.rangeStart)
    (hto : g.rangeEnd ≤ f.rangeStart + (a.size + t.size)) :
    f.rangeStart + a.size < F.rangeStart ∧ F.rangeEnd < f.rangeStart + (a.size + t.size) ∧
    ∃ b d, t = b ++ F.text ++ d ∧ splice done t (f.rangeStart + (a.size + t.size)) = b ++ new ++ d ∧
      f.rangeStart + a.size + b.size = F.rangeStart := by
  obtain ⟨hole, -, hole1, hole2, hole3, hole4⟩ := hw.exists_hole hs hf hg hdirect.1 hfrom hto
  have hmark := hw.includes hs hf hg hdirect.1 hfrom hto
  have hwindow : f.rangeStart + (a.size + t.size) - t.size = f.rangeStart + a.size := by omega
  have hmem := fun y => @Rendered.mem_outermost (f.rangeStart + a.size) (f.rangeStart + (a.size + t.size)) done y
  obtain ⟨x, hout, hxg⟩ := hw.exists_outermost hs hf hdone hg hdirect hfrom hto
  have hstands := fun y hy => hw.standsIn hs hf hdone (hmem y hy).1 (hmem y hy).2
  -- Of two fragments around `F` one is in the other, so no other one directly in `f` is around it.
  have hothers : ∀ y ∈ Rendered.outermost (f.rangeStart + a.size) (f.rangeStart + (a.size + t.size)) done,
      y ≠ x → y.content = y.written := by
    intro y hy hne
    obtain ⟨k, hk, hyk, hkdirect, -⟩ := hw.directlyIn_of_mem_outermost hs hf hdone hy
    rw [hyk.written]
    refine hyk.content.2 fun hspans => ?_
    obtain rfl := hs.directlyIn_unique hF hg hk hgF hspans hdirect hkdirect
    exact hne (hdone.eq_of_range hs (hmem y hy).1 (hmem x hout).1 (hyk.start.trans hxg.start.symm)
      (hyk.stop.trans hxg.stop.symm))
  rw [← hwindow] at hout hstands hothers
  obtain ⟨b, d, ht, hprint, hb⟩ :=
    splice_one hmark hdone.apart (hdone.start_le hs) hout hstands (hdone.written_size hs) hothers
  obtain ⟨a', c', hgtext, hcontent, ha'⟩ := hxg.content.1 hgF
  rw [hxg.written, hgtext] at ht
  rw [hcontent] at hprint
  rw [hwindow, hxg.start] at hb
  obtain ⟨hgF1, hgF2⟩ := hgF
  refine ⟨by omega, by omega, b ++ a', c' ++ d, by rw [ht]; simp only [List.append_assoc], ?_, ?_⟩
  · rw [hprint]
    simp only [List.append_assoc]
  · rw [Text.size_append]
    omega

/-- By the pieces of a root: those in front of the raw around `F` and those behind it print alone. -/
theorem prints_shows {file : Option String} {r : Root} (hs : Separate source fs) (hF : F ∈ fs) (hf : f ∈ fs)
    (hne : F ≠ f) (h : f.Becomes file fs r) (hcss : r.css = f.text)
    (hdone : RendersInner fs (F.Shows new) f done)
    (hcover : ∀ g ∈ fs, g.Spans F → g.DirectlyIn fs f → r.Covers g.rangeStart g.rangeEnd) :
    F.Shows new f (Piece.prints done r.pieces) := by
  have hfsize := (hs.placed f hf).size
  obtain ⟨role, hread⟩ := h.readClear hs hf
  have hlays := h.lays hs hf
  rw [hcss] at hlays
  refine ⟨fun hspans => ?_, fun hspans => ?_⟩
  · have hnested := (hs.eq_or_nested hF hf hspans).resolve_left hne
    obtain ⟨g, hg, hgF, hdirect⟩ := hs.exists_directlyIn hF hnested
    obtain ⟨⟨t, stop⟩, hraw, hfrom, hto⟩ := hcover g hg hgF hdirect
    have hpiece : Piece.raw t (some stop) ∈ r.pieces := (Root.raw_mem_pieces_iff hread.complete).2 hraw
    obtain ⟨ps, qs, hpieces⟩ := List.append_of_mem hpiece
    rw [hpieces] at hlays ⊢
    obtain ⟨a, c, a', c', hp, hw, rfl, hfront, hmore⟩ := exists_window hlays
    -- The root prints its own text, so no semicolon is added to it.
    have hle := hfront.size_le
    have hle' := hmore.size_le
    have hsizes := congrArg Text.size (hw.text.symm.trans hp)
    simp only [Text.size_append] at hsizes
    obtain rfl := hfront.eq_of_size (by omega)
    obtain rfl := hmore.eq_of_size (by omega)
    simp only at hfrom hto
    have hsize := congrArg Text.size hp
    rw [Text.size_append, Text.size_append] at hsize
    obtain ⟨hafter, hbefore, b, d, ht, hprint, hb⟩ :=
      splice_patched hs hF hf hdone hw hg hgF hdirect (by omega) hto
    have hleF := hs.start_le hF
    have hfront' := hfront.prints_of_unchanged fun x hx hin => unchanged_of_within hdone hx hin (by omega)
    have hmore' := hmore.prints_of_unchanged fun x hx hin => unchanged_of_within hdone hx hin (by omega)
    refine ⟨a ++ b, d ++ c, ?_, ?_, ?_⟩
    · rw [hp, ht]
      simp only [List.append_assoc]
    · rw [Piece.prints_append, Piece.prints_cons, Piece.print, Printer.raw, hfront', hmore', hprint]
      simp only [List.append_assoc]
    · rw [Text.size_append]
      omega
  · refine hlays.prints_of_unchanged fun x hx hin => unchanged_of_within hdone hx hin fun hout => hspans ?_
    obtain ⟨hout1, hout2⟩ := hout
    exact ⟨by omega, by omega⟩

/-! ## Documents with one edited root -/

variable {file : Option String} {R r : Root} {roots : List Root}

/-- A fragment and the root it was parsed into: the root prints the fragment, and its raws reach over what is
around `F`. -/
structure Stays (file : Option String) (fs : List Fragment) (F f : Fragment) (r : Root) : Prop where
  becomes : f.Becomes file fs r
  css : r.css = f.text
  covers : ∀ g ∈ fs, g.Spans F → g.DirectlyIn fs f → r.Covers g.rangeStart g.rangeEnd

/-- A fragment and its root in a document in which the root of `F` is now `R`. -/
structure Keeps (file : Option String) (fs : List Fragment) (F : Fragment) (R : Root) (f : Fragment)
    (r : Root) : Prop where
  root : HasRoot fs f r
  edited : f = F → r = R
  stays : f ≠ F → Stays file fs F f r

theorem Stays.shows (hs : Separate source fs) (hF : F ∈ fs) (hf : f ∈ fs) (hne : F ≠ f)
    (h : Stays file fs F f r) (hdone : RendersInner fs (F.Shows new) f done) :
    F.Shows new f (Piece.prints done r.pieces) :=
  prints_shows hs hF hf hne h.becomes h.css hdone h.covers

theorem ofRoots_shows_edit (hs : Separate source fs) (hF : F ∈ fs)
    (hroots : List.Forall₂ (Keeps file fs F R) fs roots) :
    List.Forall₂ (Rendered.Renders (ShowsRoot fs (F.Shows R.css))) (Rendered.inOrder roots)
      (Rendered.ofRoots roots) := by
  have hall := hroots.imp fun _ _ h => h.root
  refine ofRoots_shows hs hall fun f hf r hr hfr hnested done hdone => ?_
  obtain ⟨g, hg, hgr⟩ := forall₂_mem_right hroots hr
  obtain rfl := hs.eq_of_range hg hf (hgr.root.start.symm.trans hfr.start) (hgr.root.stop.symm.trans hfr.stop)
  by_cases heq : g = F
  · subst heq
    obtain rfl := hgr.edited rfl
    have hunchanged : ∀ x ∈ done, x.content = x.written := by
      intro x hx
      obtain ⟨k, hk, hout, hkx⟩ := hdone.each x hx
      rw [hkx.written]
      exact hkx.content.2 hout
    obtain ⟨hcodeBefore, hcodeAfter⟩ := Root.code_of_nested hnested
    have hprint : r.print done = r.css := by
      rw [Root.print_of_splice_eq fun text stop => splice_of_unchanged fun x hx _ => hunchanged x hx,
        hcodeBefore, hcodeAfter]
      simp
    rw [hprint]
    refine ⟨fun _ => ⟨[], [], by simp, by simp, by simp⟩, fun hnot => ?_⟩
    exact absurd (Spans.refl g) hnot
  · have hstays := hgr.stays heq
    obtain ⟨role, hread⟩ := hstays.becomes.readClear hs hg
    rw [Root.print_nested hread.complete hnested]
    exact hstays.shows hs hF hg (Ne.symm heq) hdone

/-- With `R` in the place of the root of `F`, the other roots stay what they are. -/
theorem keeps_set {i : Nat} (hs : Separate source fs) (hstays : List.Forall₂ (Stays file fs F) fs roots)
    (hF : fs[i]? = some F) (hr : roots[i]? = some r) (hstart : R.rangeStart = r.rangeStart)
    (hstop : R.rangeEnd = r.rangeEnd) (hrole : R.role = r.role) :
    List.Forall₂ (Keeps file fs F R) fs (roots.set i R) := by
  obtain ⟨hlen, hget⟩ := List.forall₂_iff_get.1 hstays
  obtain ⟨hi, hFi⟩ := List.getElem?_eq_some_iff.1 hF
  obtain ⟨hi', hri⟩ := List.getElem?_eq_some_iff.1 hr
  refine List.forall₂_iff_get.2 ⟨by rw [List.length_set, hlen], fun j h₁ h₂ => ?_⟩
  have h₂' : j < roots.length := by rwa [List.length_set] at h₂
  have hj := hget j h₁ h₂'
  simp only [List.get_eq_getElem] at hj ⊢
  have hroot := hj.becomes.hasRoot hs (List.getElem_mem h₁)
  by_cases heq : i = j
  · subst heq
    rw [List.getElem_set_self, hFi]
    rw [hFi, hri] at hroot
    exact ⟨hroot.of_role hstart hstop hrole, fun _ => rfl, fun hne => absurd rfl hne⟩
  · rw [List.getElem_set_ne heq]
    refine ⟨hroot, fun hsame => ?_, fun _ => hj⟩
    rw [← hFi] at hsame
    exact absurd ((List.Nodup.getElem_inj_iff hs.nodup).1 hsame).symm heq

end Fragment

theorem filter_set_of_not {α : Type} {p : α → Bool} {as : List α} {i : Nat} {a b : α} (ha : as[i]? = some a)
    (hpa : p a = false) (hpb : p b = false) : (as.set i b).filter p = as.filter p := by
  induction as generalizing i with
  | nil => rfl
  | cons c cs ih =>
    cases i with
    | zero =>
      obtain rfl := Option.some.inj ha
      rw [List.set_cons_zero, List.filter_cons_of_neg (by simp [hpb]), List.filter_cons_of_neg (by simp [hpa])]
    | succ i =>
      rw [List.set_cons_succ, List.filter_cons, List.filter_cons, ih ha]

theorem set_of_getElem? {α : Type} {as : List α} {i : Nat} {a : α} (ha : as[i]? = some a) : as.set i a = as := by
  obtain ⟨hi, rfl⟩ := List.getElem?_eq_some_iff.1 ha
  exact List.set_getElem_self hi

theorem filter_set_of_pos {α : Type} {p : α → Bool} {as : List α} {i : Nat} {a : α} (ha : as[i]? = some a) :
    ∃ ls ms, ∀ b, p b = true → (as.set i b).filter p = ls ++ b :: ms := by
  obtain ⟨hi, rfl⟩ := List.getElem?_eq_some_iff.1 ha
  refine ⟨(as.take i).filter p, (as.drop (i + 1)).filter p, fun b hb => ?_⟩
  rw [List.set_eq_take_append_cons_drop, if_pos hi, List.filter_append, List.filter_cons_of_pos hb]

namespace Document
variable {source : Text} {fs : List Fragment} {file : Option String} {d : Document} {F : Fragment} {R : Root}
  {i : Nat}

/-- At each level of nesting around `F`, a raw of the fragment directly around reaches over the next one
inwards. -/
def RawsReach (d : Document) (fs : List Fragment) (F : Fragment) : Prop :=
  ∀ p ∈ fs.zip d.roots, ∀ g ∈ fs, g.Spans F → g.DirectlyIn fs p.1 → p.2.Covers g.rangeStart g.rangeEnd

instance (d : Document) (fs : List Fragment) (F : Fragment) : Decidable (d.RawsReach fs F) :=
  inferInstanceAs (Decidable (∀ p ∈ fs.zip d.roots, ∀ g ∈ fs, _))

theorem stays_of_reach (hd : Document.assemble source fs file = .ok d)
    (hcss : d.roots.map Root.css = fs.map Fragment.text) (hreach : d.RawsReach fs F) :
    List.Forall₂ (Fragment.Stays file fs F) fs d.roots := by
  obtain ⟨hsource, hbuilds⟩ := assemble_builds hd
  obtain ⟨hlen, hbecomes⟩ := List.forall₂_iff_zip.1 hbuilds.becomes
  obtain ⟨-, htexts⟩ := List.forall₂_iff_zip.1 (forall₂_of_map_eq hcss)
  exact List.forall₂_iff_zip.2 ⟨hlen, fun {f r} hmem => ⟨hbecomes hmem, htexts hmem, hreach (f, r) hmem⟩⟩

/-- Each component shows the edit, if it is around it. -/
theorem components_show (hs : Fragment.Separate source fs)
    (hstays : List.Forall₂ (Fragment.Stays file fs F) fs d.roots)
    (hkeeps : List.Forall₂ (Fragment.Keeps file fs F R) fs (d.roots.set i R)) (hF : F ∈ fs)
    (hinner : F.isComponentAmong fs = false) :
    ∀ x ∈ Fragment.showns fs (Rendered.ofRoots (d.roots.set i R)) fs d.roots,
      ∃ f ∈ fs, f.isComponentAmong fs = true ∧ f.RendersAs (F.Shows R.css) x := by
  intro x hx
  obtain ⟨f, hf, r, -, hfr, hcomponent, rfl⟩ := Fragment.mem_showns hstays hx
  refine ⟨f, hf, hcomponent, rfl, rfl, rfl, ?_⟩
  have hne := Fragment.ne_of_component hinner hcomponent
  have hroots := hkeeps.imp fun _ _ h => h.root
  have hrendered := Fragment.ofRoots_shows_edit hs hF hkeeps
  have hdone := Fragment.rendersInner_of_component hs hf hcomponent hroots hrendered
  exact hfr.shows hs hF hf hne hdone

/-- The source is filled with what the components show. -/
theorem print_fills {R' : Root} (hs : Fragment.Separate source fs)
    (hd : Document.assemble source fs file = .ok d)
    (hrow : ∀ rendered, Rendered.InRow 0 (Fragment.showns fs rendered fs d.roots)) (hF : F ∈ fs)
    (hR : d.roots[i]? = some R) (hnested : R.isComponent = false) (hrole : R'.role = R.role) :
    Rendered.Fills 0 source (Fragment.showns fs (Rendered.ofRoots (d.roots.set i R')) fs d.roots)
      { d with roots := d.roots.set i R' }.print := by
  obtain ⟨-, hbuilds⟩ := assemble_builds hd
  have hne : d.roots.set i R' ≠ [] := by
    intro hnil
    rw [List.set_eq_nil_iff] at hnil
    rw [hnil] at hR
    cases hR
  have hsome : fs.any (Fragment.isComponentAmong fs) = true :=
    List.any_eq_true.2 (Fragment.exists_component hs.placed (List.ne_nil_of_mem hF))
  have hnested' : R'.isComponent = false := (Root.isComponent_of_role hrole).trans hnested
  have hcomponents := filter_set_of_not hR hnested hnested'
  unfold Document.print
  rw [if_neg (by simpa using hne), Document.components, hcomponents, hbuilds.print_components hsome]
  refine @stitch_fills source [] source _ (hrow _) (fun x hx => ?_) rfl
  obtain ⟨f, hf, r, -, -, -, rfl⟩ := Fragment.mem_showns hbuilds.becomes hx
  exact (hs.placed f hf).text

/-- Where one style text in a row is around the edit, that alone prints differently. -/
theorem patched_of_fills {f : Fragment} {x : Rendered} {row : List Rendered} {new out : Text}
    (hs : Fragment.Separate source fs) (hfills : Rendered.Fills 0 source row out) (hrow : Rendered.InRow 0 row)
    (hshown : ∀ y ∈ row, ∃ g ∈ fs, g.isComponentAmong fs = true ∧ g.RendersAs (F.Shows new) y) (hx : x ∈ row)
    (hf : f ∈ fs) (hxstart : x.start = f.rangeStart) (hxstop : x.stop = f.rangeEnd) (hF : F ∈ fs)
    (hin : F.isNestedIn f = true) :
    ∃ before behind, source = before ++ F.text ++ behind ∧ before.size = F.rangeStart ∧
      out = before ++ new ++ behind := by
  obtain ⟨g, hg, -, hgx⟩ := hshown x hx
  obtain rfl := hs.eq_of_range hg hf (hgx.start.symm.trans hxstart) (hgx.stop.symm.trans hxstop)
  have hinside := (hs.placed g hg).inside hin
  have hleF := hs.start_le hF
  obtain ⟨ls, ms, rfl⟩ := List.append_of_mem hx
  have hle : ∀ y ∈ ls ++ x :: ms, y.start ≤ y.stop := by
    intro y hy
    obtain ⟨k, hk, -, hky⟩ := hshown y hy
    rw [hky.start, hky.stop]
    exact hs.start_le hk
  have hsize : ∀ y ∈ ls ++ x :: ms, y.start + y.written.size = y.stop := by
    intro y hy
    obtain ⟨k, hk, -, hky⟩ := hshown y hy
    rw [hky.start, hky.stop, hky.written]
    exact (hs.placed k hk).size
  have hbeside : ∀ y ∈ ls ++ x :: ms, y.stop ≤ x.start ∨ x.stop ≤ y.start → y.content = y.written := by
    intro y hy haway
    obtain ⟨k, -, -, hky⟩ := hshown y hy
    have hkstart := hky.start
    have hkstop := hky.stop
    rw [hky.written]
    refine hky.content.2 fun hkF => ?_
    obtain ⟨hkF1, hkF2⟩ := hkF
    omega
  obtain ⟨hls, hms⟩ := hrow.apart hle
  obtain ⟨a, c, hsource, hprint, ha⟩ := hfills.replace
    (fun y hy => hbeside y (List.mem_append_left _ hy) (.inl (hls y hy)))
    (fun y hy => hbeside y (List.mem_append_right _ (List.mem_cons_of_mem x hy)) (.inr (hms y hy)))
    fun y hy => hsize y (List.mem_append_left _ hy)
  obtain ⟨b, e, htext, hcontent, hb⟩ := hgx.content.1 (hs.spans_of_nested hg hin)
  refine ⟨a ++ b, e ++ c, ?_, ?_, ?_⟩
  · rw [hsource, hgx.written, htext]
    simp only [List.append_assoc]
  · rw [Text.size_append]
    omega
  · rw [hprint, hcontent]
    simp only [List.append_assoc]

/-- An edit of a nested root is printed in the place of its fragment, and nothing else changes. -/
theorem print_of_nested_edit (hs : Fragment.Separate source fs)
    (hordered : (fs.filter (Fragment.isComponentAmong fs)).Pairwise (·.rangeStart < ·.rangeStart))
    (hd : Document.assemble source fs file = .ok d) (hcss : d.roots.map Root.css = fs.map Fragment.text)
    (hF : fs[i]? = some F) (hR : d.roots[i]? = some R) (hnested : R.isComponent = false)
    (hreach : d.RawsReach fs F) (nodes : List Node) (semicolon : Option Bool) (after : Text) :
    ∃ before behind, source = before ++ F.text ++ behind ∧ before.size = R.rangeStart ∧
      R.rangeStart + F.text.size = R.rangeEnd ∧
      { d with roots := d.roots.set i { R with nodes := nodes, semicolon := semicolon, after := after } }.print =
        before ++ { R with nodes := nodes, semicolon := semicolon, after := after }.css ++ behind := by
  generalize hR' : { R with nodes := nodes, semicolon := semicolon, after := after } = R'
  have hstart : R'.rangeStart = R.rangeStart := by rw [← hR']
  have hstop : R'.rangeEnd = R.rangeEnd := by rw [← hR']
  have hrole : R'.role = R.role := by rw [← hR']
  have hmem := List.mem_of_getElem? hF
  have hstays := stays_of_reach hd hcss hreach
  have hkeeps := Fragment.keeps_set hs hstays hF hR hstart hstop hrole
  have hrow := fun rendered => Fragment.showns_inRow rendered d.roots (hs.consistent hordered).components_inRow
    fun f _ _ => Nat.zero_le f.rangeStart
  have hfills := print_fills hs hd hrow hmem hR hnested hrole
  obtain ⟨hi, hFi⟩ := List.getElem?_eq_some_iff.1 hF
  obtain ⟨hi', hRi⟩ := List.getElem?_eq_some_iff.1 hR
  have hroot : Fragment.HasRoot fs F R := by
    have hget := (List.forall₂_iff_get.1 hstays).2 i hi hi'
    simp only [List.get_eq_getElem, hFi, hRi] at hget
    exact hget.becomes.hasRoot hs hmem
  have hinner : F.isComponentAmong fs = false := hroot.component.symm.trans hnested
  -- One component is around the edit, and the edit is strictly in it.
  obtain ⟨f, hf, hspans, hcomponent⟩ := hs.exists_component_spans hmem
  have hne : F ≠ f := by
    rintro rfl
    rw [hinner] at hcomponent
    cases hcomponent
  have hin := (hs.eq_or_nested hmem hf hspans).resolve_left hne
  have hshown := components_show hs hstays hkeeps hmem hinner
  obtain ⟨r, hr⟩ := Fragment.shown_mem_showns (Rendered.ofRoots (d.roots.set i R')) hstays hf hcomponent
  obtain ⟨before, behind, hsource, hbefore, hprint⟩ :=
    patched_of_fills hs hfills (hrow _) hshown hr hf rfl rfl hmem hin
  have hsize := (hs.placed F hmem).size
  have hRstart := hroot.start
  have hRstop := hroot.stop
  exact ⟨before, behind, hsource, by omega, by omega, hprint⟩

/-- A source with two fragments of the same text in a third one. -/
def twinSource : Text := "css\x60$\x7bcss\x60a:b\x60\x7d $\x7bcss\x60a:b\x60\x7d c:d\x60".toList

/-- The fragments of `twinSource`. -/
def twins : List Fragment :=
  [⟨"$\x7bcss\x60a:b\x60\x7d $\x7bcss\x60a:b\x60\x7d c:d".toList, 4, 31, [⟨4, 15⟩, ⟨16, 27⟩], ⟨4, 1, 5⟩⟩,
    ⟨"a:b".toList, 10, 13, [], ⟨10, 1, 11⟩⟩, ⟨"a:b".toList, 22, 25, [], ⟨22, 1, 23⟩⟩]

/-- The second of two fragments with the same text is edited, and the first stays. -/
theorem print_of_nested_edit_twin :
    ∃ d R, Document.assemble twinSource twins none = .ok d ∧ d.roots[2]? = some R ∧
      ({ d with roots := d.roots.set 2 { R with nodes := [], semicolon := none, after := "x:y".toList } } :
        Document).print = "css\x60$\x7bcss\x60a:b\x60\x7d $\x7bcss\x60x:y\x60\x7d c:d\x60".toList := by
  have hroots : (Document.assemble twinSource twins none).map
      (fun d => (d.roots.map Root.css, decide (d.RawsReach twins ⟨"a:b".toList, 22, 25, [], ⟨22, 1, 23⟩⟩),
        d.roots[2]?.map fun r => (r.isComponent, r.rangeStart))) =
      .ok (twins.map Fragment.text, true, some (false, 22)) := by decide +kernel
  obtain ⟨d, hd, heq⟩ := map_eq_ok.1 hroots
  obtain ⟨hcss, heq⟩ := Prod.mk.inj heq
  obtain ⟨hreach, heq⟩ := Prod.mk.inj heq
  obtain ⟨R, hR, heq⟩ := Option.map_eq_some_iff.1 heq
  obtain ⟨hnested, hstart⟩ := Prod.mk.inj heq
  obtain ⟨before, behind, hsource, hbefore, -, hprint⟩ :=
    print_of_nested_edit (by decide +kernel) (by decide +kernel) hd hcss rfl hR hnested
      (of_decide_eq_true hreach) [] none "x:y".toList
  refine ⟨d, R, hd, hR, ?_⟩
  have hsplit : before ++ ("a:b".toList ++ behind) =
      "css\x60$\x7bcss\x60a:b\x60\x7d $\x7bcss\x60".toList ++ ("a:b".toList ++ "\x60\x7d c:d\x60".toList) := by
    rw [← List.append_assoc before, ← hsource]
    decide +kernel
  obtain ⟨rfl, hrest⟩ := Text.append_inj_of_size hsplit (by rw [hbefore, hstart]; decide +kernel)
  obtain rfl := List.append_cancel_left hrest
  have hnew : { R with nodes := [], semicolon := none, after := "x:y".toList }.css = "x:y".toList := rfl
  rw [hprint, hnew]
  decide +kernel

end Document

end TaggedStyles
