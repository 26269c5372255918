import TaggedStyles.Proofs.Document.NestedEdit
import TaggedStyles.Proofs.Printer.Exchange

/-! Which edits of a nested style text are printed. A document is printed twice, with one nested root and with
another in its place. If raws reach over that place at every level of nesting, the two prints differ there and
nowhere else. If they do not at some level, the prints are the same: a fragment in a value, a selector, the
parameters of an at-rule or a comment is printed as it was written, whatever its root has become. -/
namespace TaggedStyles
set_option autoImplicit false

/-! ## Reaching inwards -/

namespace Fragment
variable {source : Text} {fs : List Fragment} {file : Option String} {roots : List Root} {F f g k : Fragment}
  {R R' r : Root} {x y u v : Rendered} {done done' us vs : List Rendered} {a t t' c : Text}

/-- From `f` inwards, a raw reaches over the next fragment around `F` at every level of nesting. -/
def ReachesFrom (fs : List Fragment) (roots : List Root) (F f : Fragment) : Prop :=
  ∀ p ∈ fs.zip roots, f.Spans p.1 → ∀ g ∈ fs, g.Spans F → g.DirectlyIn fs p.1 →
    p.2.Covers g.rangeStart g.rangeEnd

namespace Separate

theorem reachesFrom_self (hs : Separate source fs) : ReachesFrom fs roots F F := by
  intro p hp hspans g hg hgF hdirect
  have hin := (hs.placed p.1 (List.of_mem_zip hp).1).inside hdirect.1
  obtain ⟨hspans1, hspans2⟩ := hspans
  obtain ⟨hgF1, hgF2⟩ := hgF
  omega

theorem reachesFrom_iff (hs : Separate source fs) (hF : F ∈ fs) (hmem : (f, r) ∈ fs.zip roots) (hg : g ∈ fs)
    (hgF : g.Spans F) (hdirect : g.DirectlyIn fs f) :
    ReachesFrom fs roots F f ↔ r.Covers g.rangeStart g.rangeEnd ∧ ReachesFrom fs roots F g := by
  have hf := (List.of_mem_zip hmem).1
  have hfg := hs.spans_of_nested hf hdirect.1
  constructor
  · intro hreach
    refine ⟨hreach (f, r) hmem (Spans.refl f) g hg hgF hdirect, fun p hp hspans => ?_⟩
    exact hreach p hp (hfg.trans hspans)
  · rintro ⟨hcovers, hreach⟩ ⟨h, s⟩ hp hspans k hk hkF hkh
    have hh : h ∈ fs := (List.of_mem_zip hp).1
    have hhF : h.Spans F := (hs.spans_of_nested hh hkh.1).trans hkF
    rcases hs.eq_or_nested hh hf hspans with rfl | hnested
    · obtain rfl := hs.directlyIn_unique hF hg hk hgF hkF hdirect hkh
      obtain rfl := eq_of_mem_zip hs.nodup hp hmem
      exact hcovers
    · refine hreach (h, s) hp ?_ k hk hkF hkh
      rcases hs.chain hh hg hF hhF hgF with rfl | hin | hin
      · exact Spans.refl h
      · exact hs.spans_of_nested hg hin
      · exact absurd ⟨hin, hnested⟩ (hdirect.2 h hh)

end Separate

/-! ## Printing loses nothing -/

/-- All that is written is printed. -/
def Keeping (f : Fragment) (t : Text) : Prop := f.text.Sublist t

theorem Window.sublist_splice (hs : Separate source fs) (hf : f ∈ fs) (hw : Window f a t c)
    (hdone : RendersInner fs Keeping f done) :
    t.Sublist (splice done t (f.rangeStart + (a.size + t.size))) := by
  have hwindow : f.rangeStart + (a.size + t.size) - t.size = f.rangeStart + a.size := by omega
  have hmem := fun x => @Rendered.mem_outermost (f.rangeStart + a.size) (f.rangeStart + (a.size + t.size)) done x
  by_cases hmark : t.includes holeMark = true
  · have hfills := @splice_fills done t (f.rangeStart + (a.size + t.size)) hmark
    rw [hwindow] at hfills
    refine (hfills fun x hx => hw.standsIn hs hf hdone (hmem x hx).1 (hmem x hx).2).sublist fun x hx => ?_
    obtain ⟨g, -, -, hgx⟩ := hdone.each x (hmem x hx).1
    rw [hgx.written]
    exact hgx.content
  · unfold splice
    rw [if_pos (by simpa using hmark)]

theorem Becomes.sublist_splice (hs : Separate source fs) (hf : f ∈ fs) (h : f.Becomes file fs r)
    (hdone : RendersInner fs Keeping f done) {stop : Nat} (hpiece : Piece.raw t (some stop) ∈ r.pieces) :
    t.Sublist (splice done t stop) := by
  obtain ⟨a, c, hw, rfl⟩ := h.window hs hf hpiece
  exact hw.sublist_splice hs hf hdone

theorem prints_keeping (hs : Separate source fs) (hf : f ∈ fs) (h : f.Becomes file fs r)
    (hdone : RendersInner fs Keeping f done) : f.Keeping (Piece.prints done r.pieces) :=
  (h.lays hs hf).sublist_prints fun _ _ hpiece => h.sublist_splice hs hf hdone hpiece

/-! ## Two prints side by side -/

/-- What `f` prints when `x` is rendered for `F` and when `y` is: if raws reach over `F` from `f` inwards, only
that differs, and else nothing does. -/
structure Follows (fs : List Fragment) (roots : List Root) (F : Fragment) (x y : Rendered) (f : Fragment)
    (t t' : Text) : Prop where
  reached : f.Spans F → ReachesFrom fs roots F f → Rendered.Swaps x y f.rangeStart f.text t t'
  lost : ¬ (f.Spans F ∧ ReachesFrom fs roots F f) → t' = t

/-- A style text as it is rendered twice. -/
structure Pairs (fs : List Fragment) (roots : List Root) (F : Fragment) (x y u v : Rendered) : Prop where
  twin : u.Twin v
  follows : ∀ g ∈ fs, u.start = g.rangeStart → u.stop = g.rangeEnd → Follows fs roots F x y g u.content v.content

theorem Pairs.eq (h : Pairs fs roots F x y u v) (hg : g ∈ fs) (hu : g.RendersAs Keeping u)
    (hlost : ¬ (g.Spans F ∧ ReachesFrom fs roots F g)) : v = u :=
  h.twin.eq_of_content ((h.follows g hg hu.start hu.stop).lost hlost)

theorem Pairs.edited (hs : Separate source fs) (hF : F ∈ fs) (htwin : x.Twin y) (hstart : x.start = F.rangeStart)
    (hstop : x.stop = F.rangeEnd) (hwritten : x.written = F.text) : Pairs fs roots F x y x y := by
  refine ⟨htwin, fun g hg hgstart hgstop => ?_⟩
  obtain rfl := hs.eq_of_range hF hg (hstart.symm.trans hgstart) (hstop.symm.trans hgstop)
  refine ⟨fun _ _ => ?_, fun hnot => absurd ⟨Spans.refl F, hs.reachesFrom_self⟩ hnot⟩
  rw [← hstart, ← hwritten]
  exact Rendered.Swaps.self

theorem RendersInner.pairs {P : Fragment → Text → Prop} (hs : Separate source fs)
    (h : RendersInner fs P F done) : List.Forall₂ (Pairs fs roots F x y) done done := by
  refine List.forall₂_same.2 fun u hu => ⟨⟨rfl, rfl, rfl⟩, fun g hg hstart hstop => ?_⟩
  obtain ⟨k, hk, hout, hku⟩ := h.each u hu
  obtain rfl := hs.eq_of_range hk hg (hku.start.symm.trans hstart) (hku.stop.symm.trans hstop)
  exact ⟨fun hspans => absurd hspans hout, fun _ => rfl⟩

theorem swaps_of_fills {ls ms : List Rendered} {cursor : Nat} {text out out' : Text} (hs : Separate source fs)
    (hpairs : List.Forall₂ (Pairs fs roots F x y) (ls ++ u :: ms) vs) (hg : g ∈ fs)
    (hu : g.RendersAs Keeping u) (hgF : g.Spans F) (hreach : ReachesFrom fs roots F g)
    (hothers : ∀ w ∈ ls ++ ms, ∃ k ∈ fs, k.RendersAs Keeping w ∧ ¬ k.Spans F)
    (hfills : Rendered.Fills cursor text (ls ++ u :: ms) out) (hfills' : Rendered.Fills cursor text vs out') :
    Rendered.Swaps x y cursor text out out' := by
  obtain ⟨v, rfl, hpair⟩ := forall₂_one_other hpairs fun w hw w' hpair => by
    obtain ⟨k, hk, hkw, hout⟩ := hothers w hw
    exact hpair.eq hk hkw fun hspans => hout hspans.1
  have hwide := hfills.swaps hfills' hpair.twin (fun w hw => ?_) fun w hw => ?_
  · have hin := (hpair.follows g hg hu.start hu.stop).reached hgF hreach
    rw [← hu.start, ← hu.written] at hin
    exact hwide.trans hin
  · obtain ⟨k, hk, hkw, -⟩ := hothers w (List.mem_append_left ms hw)
    rw [hkw.start, hkw.stop, hkw.written]
    exact (hs.placed k hk).size
  · obtain ⟨k, -, hkw, -⟩ := hothers w hw
    rw [hkw.written]
    exact hkw.content

/-- Where nothing directly in `f` reaches `F` in a window, the same is spliced into it. -/
theorem Window.splice_same (hs : Separate source fs) (hf : f ∈ fs) (hw : Window f a t c)
    (hdone : RendersInner fs Keeping f done) (hpairs : List.Forall₂ (Pairs fs roots F x y) done done')
    (hlost : ∀ g ∈ fs, g.DirectlyIn fs f → f.rangeStart + a.size ≤ g.rangeStart →
      g.rangeEnd ≤ f.rangeStart + (a.size + t.size) → ¬ (g.Spans F ∧ ReachesFrom fs roots F g)) :
    splice done' t (f.rangeStart + (a.size + t.size)) = splice done t (f.rangeStart + (a.size + t.size)) := by
  have hwindow : f.rangeStart + (a.size + t.size) - t.size = f.rangeStart + a.size := by omega
  refine splice_congr ?_
  rw [hwindow]
  refine forall₂_same_eq (Rendered.forall₂_outermost (fun _ _ h => h.twin) hpairs) fun w hw' v hpair => ?_
  obtain ⟨g, hg, hwg, hdirect, hfrom, hto⟩ := hw.directlyIn_of_mem_outermost hs hf hdone hw'
  exact hpair.eq hg hwg (hlost g hg hdirect hfrom hto)

/-- Where one fragment directly in `f` does, its content is spliced into the window in its place. -/
theorem Window.splice_swaps (hs : Separate source fs) (hF : F ∈ fs) (hf : f ∈ fs) (hw : Window f a t c)
    (hdone : RendersInner fs Keeping f done) (hpairs : List.Forall₂ (Pairs fs roots F x y) done done')
    (hg : g ∈ fs) (hgF : g.Spans F) (hdirect : g.DirectlyIn fs f) (hfrom : f.rangeStart + a.size ≤ g.rangeStart)
    (hto : g.rangeEnd ≤ f.rangeStart + (a.size + t.size)) (hreach : ReachesFrom fs roots F g) :
    Rendered.Swaps x y (f.rangeStart + a.size) t (splice done t (f.rangeStart + (a.size + t.size)))
      (splice done' t (f.rangeStart + (a.size + t.size))) := by
  have hwindow : f.rangeStart + (a.size + t.size) - t.size = f.rangeStart + a.size := by omega
  have hmark := hw.includes hs hf hg hdirect.1 hfrom hto
  have hmem := fun w => @Rendered.mem_outermost (f.rangeStart + a.size) (f.rangeStart + (a.size + t.size)) done w
  have hstands := fun w hw' => hw.standsIn hs hf hdone (hmem w hw').1 (hmem w hw').2
  have houter := @Rendered.forall₂_outermost (f.rangeStart + a.size) (f.rangeStart + (a.size + t.size)) _ _ _
    (fun _ _ h => h.twin) hpairs
  have hfills := @splice_fills done t (f.rangeStart + (a.size + t.size)) hmark
  have hfills' := @splice_fills done' t (f.rangeStart + (a.size + t.size)) hmark
  rw [hwindow] at hfills hfills'
  have hfills := hfills hstands
  have hfills' := hfills' fun v hv => by
    obtain ⟨w, hw', hpair⟩ := forall₂_mem_right houter hv
    rw [hpair.twin.standsIn]
    exact hstands w hw'
  obtain ⟨u, hu, hgu⟩ := hw.exists_outermost hs hf hdone hg hdirect hfrom hto
  have hleu := hdone.start_le hs u (hmem u hu).1
  have hapart := (Rendered.pairwise_sorted_window hdone.apart (f.rangeStart + a.size)
    (f.rangeStart + (a.size + t.size))).sublist (Rendered.outermostFrom_sublist 0 _)
  change (Rendered.outermost _ _ done).Pairwise _ at hapart
  have hdirects := fun w => @Window.directlyIn_of_mem_outermost _ _ _ _ w _ _ _ _ hs hf hw hdone
  obtain ⟨ls, ms, hsplit⟩ := List.append_of_mem hu
  rw [hsplit] at houter hfills hapart hdirects
  rw [List.pairwise_append, List.pairwise_cons] at hapart
  refine swaps_of_fills hs houter hg hgu hgF hreach (fun w hw' => ?_) hfills hfills'
  have haway : w.Apart u := by
    rcases List.mem_append.1 hw' with hls | hms
    · exact hapart.2.2 w hls u List.mem_cons_self
    · exact (hapart.2.1.1 w hms).symm
  obtain ⟨k, hk, hkw, hkdirect, -⟩ := hdirects w (by simp only [List.mem_append, List.mem_cons] at hw' ⊢; tauto)
  refine ⟨k, hk, hkw, fun hkF => ?_⟩
  obtain rfl := hs.directlyIn_unique hF hg hk hgF hkF hdirect hkdirect
  have hstart := hgu.start.trans hkw.start.symm
  have hstop := hgu.stop.trans hkw.stop.symm
  simp only [Rendered.Apart, Rendered.Inside] at haway
  omega

/-- By the pieces of a root: in the raw that reaches over the fragment around `F`, the edit is printed in its
place, and no other raw reaches it. -/
theorem prints_swaps {stop : Nat} (hs : Separate source fs) (hF : F ∈ fs) (hf : f ∈ fs)
    (h : f.Becomes file fs r) (hdone : RendersInner fs Keeping f done)
    (hpairs : List.Forall₂ (Pairs fs roots F x y) done done') (hpiece : Piece.raw t (some stop) ∈ r.pieces)
    (hg : g ∈ fs) (hgF : g.Spans F) (hdirect : g.DirectlyIn fs f) (hfrom : stop - t.size ≤ g.rangeStart)
    (hto : g.rangeEnd ≤ stop) (hreach : ReachesFrom fs roots F g) :
    Rendered.Swaps x y f.rangeStart f.text (Piece.prints done r.pieces) (Piece.prints done' r.pieces) := by
  have hlays := h.lays hs hf
  have hwindow := fun u stop => @Becomes.window _ _ _ u file r hs hf h stop
  have hkeep := fun u stop => @Becomes.sublist_splice _ _ _ _ _ _ u hs hf h hdone stop
  obtain ⟨ps, qs, hpieces⟩ := List.append_of_mem hpiece
  rw [hpieces] at hlays hwindow hkeep ⊢
  obtain ⟨a, c, a', c', hp, hw, rfl, hfront, hmore⟩ := exists_window hlays
  obtain ⟨hole, -, hole1, hole2, hole3, hole4⟩ := hw.exists_hole hs hf hg hdirect.1 (by omega) hto
  have hswaps := hw.splice_swaps hs hF hf hdone hpairs hg hgF hdirect (by omega) hto hreach
  have hbeside : ∀ u last,
      Piece.raw u (some last) ∈ ps ++ .raw t (some (f.rangeStart + (a.size + t.size))) :: qs →
      (last ≤ f.rangeStart + a.size ∨ f.rangeStart + (a.size + t.size) + u.size ≤ last) →
      splice done' u last = splice done u last := by
    intro u last hu haway
    obtain ⟨b, d, hw', rfl⟩ := hwindow u last hu
    refine hw'.splice_same hs hf hdone hpairs fun k hk hkdirect hkfrom hkto hkF => ?_
    obtain rfl := hs.directlyIn_unique hF hg hk hgF hkF.1 hdirect hkdirect
    have hle := hs.start_le hk
    omega
  have hps : Piece.prints done' ps = Piece.prints done ps := by
    refine Piece.prints_congr fun u last hu => hbeside u last (List.mem_append_left _ hu) (.inl ?_)
    obtain ⟨front, back, rfl, rfl⟩ := hfront.raw_mem hu
    simp only [Text.size_append]
    omega
  have hqs : Piece.prints done' qs = Piece.prints done qs := by
    refine Piece.prints_congr fun u last hu =>
      hbeside u last (List.mem_append_right _ (List.mem_cons_of_mem _ hu)) (.inr ?_)
    obtain ⟨front, back, rfl, rfl⟩ := hmore.raw_mem hu
    omega
  have hbefore : a.Sublist (Piece.prints done ps) :=
    hfront.sublist_prints fun u last hu => hkeep u last (List.mem_append_left _ hu)
  have hbehind : c.Sublist (Piece.prints done qs) :=
    hmore.sublist_prints fun u last hu => hkeep u last (List.mem_append_right _ (List.mem_cons_of_mem _ hu))
  simp only [Piece.prints_append, Piece.prints_cons, Piece.print, Printer.raw, hps, hqs]
  rw [hw.text, ← List.append_assoc, ← List.append_assoc]
  exact hswaps.around hbefore hbehind

/-- What a fragment other than `F` prints, if what is rendered in it follows the edit. -/
theorem prints_follow (hs : Separate source fs) (hF : F ∈ fs) (hne : F ≠ f) (h : f.Becomes file fs r)
    (hmem : (f, r) ∈ fs.zip roots) (hdone : RendersInner fs Keeping f done)
    (hpairs : List.Forall₂ (Pairs fs roots F x y) done done') :
    Follows fs roots F x y f (Piece.prints done r.pieces) (Piece.prints done' r.pieces) := by
  have hf := (List.of_mem_zip hmem).1
  obtain ⟨role, hread⟩ := h.readClear hs hf
  refine ⟨fun hspans hreach => ?_, fun hlost => ?_⟩
  · obtain ⟨g, hg, hgF, hdirect⟩ := hs.exists_directlyIn hF ((hs.eq_or_nested hF hf hspans).resolve_left hne)
    obtain ⟨⟨⟨t, stop⟩, hraw, hfrom, hto⟩, hreach⟩ := (hs.reachesFrom_iff hF hmem hg hgF hdirect).1 hreach
    have hpiece : Piece.raw t (some stop) ∈ r.pieces := (Root.raw_mem_pieces_iff hread.complete).2 hraw
    exact prints_swaps hs hF hf h hdone hpairs hpiece hg hgF hdirect hfrom hto hreach
  · refine Piece.prints_congr fun t stop hpiece => ?_
    obtain ⟨a, c, hw, rfl⟩ := h.window hs hf hpiece
    refine hw.splice_same hs hf hdone hpairs fun g hg hdirect hfrom hto hgF => hlost ?_
    have hraw := (Root.raw_mem_pieces_iff hread.complete).1 hpiece
    have hcovers : r.Covers g.rangeStart g.rangeEnd := ⟨_, hraw, by simp only; omega, hto⟩
    exact ⟨(hs.spans_of_nested hf hdirect.1).trans hgF.1,
      (hs.reachesFrom_iff hF hmem hg hgF.1 hdirect).2 ⟨hcovers, hgF.2⟩⟩

/-! ## All nested roots -/

theorem inTurn_keeping {front rest : List Root} (hs : Separate source fs)
    (hroots : List.Forall₂ (Becomes file fs) fs roots) (hsplit : Rendered.inOrder roots = front ++ rest) :
    List.Forall₂ (Rendered.Renders (ShowsRoot fs Keeping)) front (Rendered.inTurn front) := by
  refine inTurn_shows hs (hasRoots hs hroots) (fun f hf r hr hfr hnested done hdone => ?_) hsplit
  obtain ⟨g, hmem, hgr⟩ := exists_fragment hroots hr
  have hg := (List.of_mem_zip hmem).1
  have hroot := hgr.hasRoot hs hg
  obtain rfl := hs.eq_of_range hg hf (hroot.start.symm.trans hfr.start) (hroot.stop.symm.trans hfr.stop)
  obtain ⟨role, hread⟩ := hgr.readFrom
  rw [Root.print_nested hread.complete hnested]
  exact prints_keeping hs hg hgr hdone

/-- By induction over the roots rendered behind that of `F`. -/
theorem inTurn_pairs {earlier middle rest : List Root} (hs : Separate source fs)
    (hroots : List.Forall₂ (Becomes file fs) fs roots)
    (hsplit : Rendered.inOrder roots = earlier ++ R :: (middle ++ rest)) (hF : F ∈ fs) (hFR : HasRoot fs F R)
    (hx : Rendered.ofRoot (Rendered.inTurn earlier) R = x)
    (hy : Rendered.ofRoot (Rendered.inTurn earlier) R' = y) (htwin : x.Twin y) :
    List.Forall₂ (Pairs fs roots F x y) (Rendered.inTurn (earlier ++ R :: middle))
      (Rendered.inTurn (earlier ++ R' :: middle)) := by
  have hall := hasRoots hs hroots
  induction middle using List.reverseRecOn generalizing rest with
  | nil =>
    have hdone := rendersInner_of_split hs hall hsplit (inTurn_keeping hs hroots hsplit) hF hFR
    have hR : R ∈ Rendered.inOrder roots := by rw [hsplit]; simp
    have hwritten : x.written = F.text := by
      rw [← hx]
      show R.written?.getD [] = F.text
      rw [hFR.written (Rendered.mem_inOrder.1 hR).2, Option.getD_some]
    have hstart : x.start = F.rangeStart := by rw [← hx]; exact hFR.start
    have hstop : x.stop = F.rangeEnd := by rw [← hx]; exact hFR.stop
    rw [Rendered.inTurn_concat, Rendered.inTurn_concat, hx, hy]
    exact List.rel_append (hdone.pairs hs) (.cons (.edited hs hF htwin hstart hstop hwritten) .nil)
  | append_singleton middle r ih =>
    rw [List.append_assoc] at hsplit
    have hpairs := ih hsplit
    have hsplit' : Rendered.inOrder roots = (earlier ++ R :: middle) ++ r :: rest := by
      rw [hsplit]
      simp
    have hr : r ∈ Rendered.inOrder roots := by rw [hsplit']; simp
    obtain ⟨hr, hrnested⟩ := Rendered.mem_inOrder.1 hr
    obtain ⟨f, hmem, hfr⟩ := exists_fragment hroots hr
    have hf := (List.of_mem_zip hmem).1
    have hroot := hfr.hasRoot hs hf
    have hne : F ≠ f := by
      rintro rfl
      have hapart := roots_apart hs hall
      rw [hsplit', List.pairwise_append] at hapart
      have haway := hapart.2.2 R (by simp) r List.mem_cons_self
      have hle := hs.start_le hF
      simp only [place, Rendered.Apart, Rendered.Inside, hFR.start, hFR.stop, hroot.start, hroot.stop] at haway
      omega
    have hdone := rendersInner_of_split hs hall hsplit' (inTurn_keeping hs hroots hsplit') hf hroot
    have hfollow := prints_follow hs hF hne hfr hmem hdone hpairs
    obtain ⟨role, hread⟩ := hfr.readFrom
    rw [← List.cons_append, ← List.cons_append, ← List.append_assoc, ← List.append_assoc, Rendered.inTurn_concat,
      Rendered.inTurn_concat]
    refine List.rel_append hpairs (.cons ⟨⟨rfl, rfl, rfl⟩, fun g hg hstart hstop => ?_⟩ .nil)
    obtain rfl := hs.eq_of_range hf hg (hroot.start.symm.trans hstart) (hroot.stop.symm.trans hstop)
    show Follows fs roots F _ _ f (r.print _) (r.print _)
    rw [Root.print_nested hread.complete hrnested, Root.print_nested hread.complete hrnested]
    exact hfollow

/-- With another root for `F`, the nested roots are rendered as before but for what reaches `F`. -/
theorem ofRoots_pairs {i : Nat} (hs : Separate source fs) (hroots : List.Forall₂ (Becomes file fs) fs roots)
    (hF : F ∈ fs) (hFR : HasRoot fs F R) (hR : roots[i]? = some R) (hnested : R.isComponent = false)
    (hstart : R'.rangeStart = R.rangeStart) (hstop : R'.rangeEnd = R.rangeEnd) (hrole : R'.role = R.role) :
    ∃ done, Rendered.ofRoot done R ∈ Rendered.ofRoots roots ∧
      Rendered.ofRoot done R' ∈ Rendered.ofRoots (roots.set i R') ∧
      List.Forall₂ (Pairs fs roots F (Rendered.ofRoot done R) (Rendered.ofRoot done R')) (Rendered.ofRoots roots)
        (Rendered.ofRoots (roots.set i R')) := by
  have hnested' : R'.isComponent = false := (Root.isComponent_of_role hrole).trans hnested
  obtain ⟨earlier, later, hsplit, hsplit'⟩ := Rendered.inOrder_set hR hnested hnested' hstart hstop
  have htwin : (Rendered.ofRoot (Rendered.inTurn earlier) R).Twin (Rendered.ofRoot (Rendered.inTurn earlier) R') := by
    refine ⟨hstart, hstop, ?_⟩
    show R'.written?.getD [] = R.written?.getD []
    rw [Root.written_of_role hrole]
  have hpairs := inTurn_pairs hs hroots (by rw [hsplit, List.append_nil]) hF hFR rfl rfl htwin
  rw [← hsplit, ← hsplit'] at hpairs
  have hmem : ∀ r, Rendered.ofRoot (Rendered.inTurn earlier) r ∈ Rendered.inTurn (earlier ++ r :: later) := by
    intro r
    rw [← List.singleton_append, ← List.append_assoc]
    exact Rendered.mem_inTurn_append (by rw [Rendered.inTurn_concat]; simp) later
  refine ⟨Rendered.inTurn earlier, ?_, ?_, hpairs⟩
  · have hR := hmem R
    rwa [← hsplit] at hR
  · have hR' := hmem R'
    rwa [← hsplit'] at hR'

/-! ## Components -/

theorem forall₂_showns {S : Rendered → Rendered → Prop} {all : List Fragment} {rendered rendered' : List Rendered}
    (h : ∀ f r, (f, r) ∈ fs.zip roots → f.isComponentAmong all = true →
      S (shown rendered f r) (shown rendered' f r)) :
    List.Forall₂ S (showns all rendered fs roots) (showns all rendered' fs roots) := by
  induction fs generalizing roots with
  | nil => exact .nil
  | cons f fs ih =>
    cases roots with
    | nil => exact .nil
    | cons r roots =>
      have hmore := @ih roots fun g s hmem => h g s (List.mem_cons_of_mem _ hmem)
      rw [showns, showns]
      split
      · rename_i hcomponent
        exact .cons (h f r List.mem_cons_self hcomponent) hmore
      · exact hmore

theorem showns_keeping (hs : Separate source fs) (hroots : List.Forall₂ (Becomes file fs) fs roots) :
    ∀ w ∈ showns fs (Rendered.ofRoots roots) fs roots,
      ∃ k ∈ fs, k.isComponentAmong fs = true ∧ k.RendersAs Keeping w := by
  intro w hw
  obtain ⟨k, hk, r, -, hkr, hcomponent, rfl⟩ := mem_showns hroots hw
  have hdone := rendersInner_of_component hs hk hcomponent (hasRoots hs hroots)
    (inTurn_keeping hs hroots (List.append_nil _).symm)
  exact ⟨k, hk, hcomponent, rfl, rfl, rfl, prints_keeping hs hk hkr hdone⟩

theorem showns_pairs (hs : Separate source fs) (hroots : List.Forall₂ (Becomes file fs) fs roots) (hF : F ∈ fs)
    (hinner : F.isComponentAmong fs = false)
    (hpairs : List.Forall₂ (Pairs fs roots F x y) (Rendered.ofRoots roots) done') :
    List.Forall₂ (Pairs fs roots F x y) (showns fs (Rendered.ofRoots roots) fs roots)
      (showns fs done' fs roots) := by
  refine forall₂_showns fun f r hmem hcomponent => ⟨⟨rfl, rfl, rfl⟩, fun g hg hstart hstop => ?_⟩
  have hf := (List.of_mem_zip hmem).1
  obtain rfl := hs.eq_of_range hf hg hstart hstop
  have hne := ne_of_component hinner hcomponent
  have hdone := rendersInner_of_component hs hf hcomponent (hasRoots hs hroots)
    (inTurn_keeping hs hroots (List.append_nil _).symm)
  exact prints_follow hs hF hne ((List.forall₂_iff_zip.1 hroots).2 hmem) hmem hdone hpairs

theorem showns_same (hs : Separate source fs) (hroots : List.Forall₂ (Becomes file fs) fs roots) (hF : F ∈ fs)
    (hinner : F.isComponentAmong fs = false)
    (hpairs : List.Forall₂ (Pairs fs roots F x y) (Rendered.ofRoots roots) done')
    (hlost : ∀ f ∈ fs, f.isComponentAmong fs = true → ¬ (f.Spans F ∧ ReachesFrom fs roots F f)) :
    showns fs done' fs roots = showns fs (Rendered.ofRoots roots) fs roots := by
  refine forall₂_same_eq (showns_pairs hs hroots hF hinner hpairs) fun w hw v hpair => ?_
  obtain ⟨k, hk, hcomponent, hkw⟩ := showns_keeping hs hroots w hw
  exact hpair.eq hk hkw (hlost k hk hcomponent)

/-- Where the component around `F` reaches it, that alone is shown differently. -/
theorem showns_swaps {text out out' : Text} {cursor : Nat} (hs : Separate source fs)
    (hroots : List.Forall₂ (Becomes file fs) fs roots) (hF : F ∈ fs) (hinner : F.isComponentAmong fs = false)
    (hpairs : List.Forall₂ (Pairs fs roots F x y) (Rendered.ofRoots roots) done') (hf : f ∈ fs)
    (hcomponent : f.isComponentAmong fs = true) (hspans : f.Spans F) (hreach : ReachesFrom fs roots F f)
    (hrow : Rendered.InRow cursor (showns fs (Rendered.ofRoots roots) fs roots))
    (hfills : Rendered.Fills cursor text (showns fs (Rendered.ofRoots roots) fs roots) out)
    (hfills' : Rendered.Fills cursor text (showns fs done' fs roots) out') :
    Rendered.Swaps x y cursor text out out' := by
  have hinside := (hs.placed f hf).inside
    ((hs.eq_or_nested hF hf hspans).resolve_left (ne_of_component hinner hcomponent))
  have hle := hs.start_le hF
  have hkeeping := showns_keeping hs hroots
  have hshown := showns_pairs hs hroots hF hinner hpairs
  obtain ⟨r, hr⟩ := shown_mem_showns (Rendered.ofRoots roots) hroots hf hcomponent
  obtain ⟨ls, ms, hsplit⟩ := List.append_of_mem hr
  rw [hsplit] at hfills hshown hkeeping hrow
  obtain ⟨hls, hms⟩ := hrow.apart fun w hw => by
    obtain ⟨k, hk, -, hkw⟩ := hkeeping w hw
    rw [hkw.start, hkw.stop]
    exact hs.start_le hk
  obtain ⟨g, hg, -, hgf⟩ := hkeeping _ (List.mem_append_right ls List.mem_cons_self)
  obtain rfl := hs.eq_of_range hf hg hgf.start hgf.stop
  refine swaps_of_fills hs hshown hf hgf hspans hreach (fun w hw => ?_) hfills hfills'
  -- The other components end in front of this one or start behind it.
  have haway : w.stop ≤ f.rangeStart ∨ f.rangeEnd ≤ w.start := (List.mem_append.1 hw).imp (hls w) (hms w)
  obtain ⟨k, hk, -, hkw⟩ := hkeeping w (by simp only [List.mem_append, List.mem_cons] at hw ⊢; tauto)
  refine ⟨k, hk, hkw, fun hkF => ?_⟩
  obtain ⟨hkF1, hkF2⟩ := hkF
  have hstart := hkw.start
  have hstop := hkw.stop
  omega

end Fragment

namespace Document
variable {source : Text} {fs : List Fragment} {file : Option String} {d : Document} {F f : Fragment} {R : Root}
  {i : Nat}

theorem rawsReach_iff (hs : Fragment.Separate source fs) (hF : F ∈ fs) (hf : f ∈ fs)
    (hcomponent : f.isComponentAmong fs = true) (hspans : f.Spans F) :
    d.RawsReach fs F ↔ Fragment.ReachesFrom fs d.roots F f := by
  refine ⟨fun hreach p hp _ => hreach p hp, fun hreach p hp g hg hgF hdirect => ?_⟩
  have hp' := (List.of_mem_zip hp).1
  refine hreach p hp ?_ g hg hgF hdirect
  have hpF := (hs.spans_of_nested hp' hdirect.1).trans hgF
  rcases hs.chain hf hp' hF hspans hpF with heq | hin | hin
  · rw [← heq]
    exact Fragment.Spans.refl f
  · rw [Fragment.isComponentAmong_iff.1 hcomponent p.1 hp'] at hin
    cases hin
  · exact hs.spans_of_nested hf hin

/-- Raws do not reach what stands in the own text of a node: in a declaration, a comment, a selector, the
parameters of an at-rule. -/
theorem not_rawsReach_of_ownText {r : Root} {e : Entry} (hs : Fragment.Separate source fs)
    (hd : Document.assemble source fs file = .ok d) (hmem : (f, r) ∈ fs.zip d.roots)
    (he : e ∈ preorder 1 0 r.nodes) :
    ∃ front back, f.text = front ++ e.node.ownText ++ back ∧
      ∀ F ∈ fs, f.rangeStart + front.size < F.rangeStart →
        F.rangeEnd < f.rangeStart + (front.size + e.node.ownText.size) → ¬ d.RawsReach fs F := by
  obtain ⟨-, hbuilds⟩ := assemble_builds hd
  have hf := (List.of_mem_zip hmem).1
  have hr := (List.forall₂_iff_zip.1 hbuilds.becomes).2 hmem
  obtain ⟨role, hread⟩ := hr.readClear hs hf
  have hplain : Piece.plain e.node.ownText ∈ r.pieces := List.mem_append_left _ (own_mem_piecesOf _ he)
  obtain ⟨front, back, htext, haway⟩ := (hr.lays hs hf).plain_mem hplain
  refine ⟨front, back, htext, fun F hF hfrom hto hreach => ?_⟩
  have hsize := (hs.placed f hf).size
  rw [htext, Text.size_append, Text.size_append] at hsize
  have hin := (hs.nested_iff hF hf).2 ⟨by omega, by omega⟩
  obtain ⟨g, hg, hgF, hdirect⟩ := hs.exists_directlyIn hF hin
  obtain ⟨⟨t, stop⟩, hraw, hcover⟩ := hreach (f, r) hmem g hg hgF hdirect
  have hbeside := haway t stop ((Root.raw_mem_pieces_iff hread.complete).2 hraw)
  have hle := hs.start_le hF
  obtain ⟨hgF1, hgF2⟩ := hgF
  simp only at hcover
  omega

/-- An edit of a nested root is printed in the place of its fragment if raws reach over that place at every
level of nesting, and otherwise it is lost. -/
theorem print_of_edit (hs : Fragment.Separate source fs)
    (hordered : (fs.filter (Fragment.isComponentAmong fs)).Pairwise (·.rangeStart < ·.rangeStart))
    (hd : Document.assemble source fs file = .ok d) (hF : fs[i]? = some F) (hR : d.roots[i]? = some R)
    (hnested : R.isComponent = false) (nodes : List Node) (semicolon : Option Bool) (after : Text) :
    let R' : Root := { R with nodes := nodes, semicolon := semicolon, after := after }
    let d' : Document := { d with roots := d.roots.set i R' }
    ∃ done, Rendered.ofRoot done R ∈ Rendered.ofRoots d.roots ∧
      Rendered.ofRoot done R' ∈ Rendered.ofRoots d'.roots ∧
      (d.RawsReach fs F → ∃ a before behind c, source = a ++ F.text ++ c ∧ a.size = R.rangeStart ∧
        a.Sublist before ∧ c.Sublist behind ∧ d.print = before ++ R.print done ++ behind ∧
        d'.print = before ++ R'.print done ++ behind) ∧
      (¬ d.RawsReach fs F → d'.print = d.print) := by
  intro R' d'
  have hmem := List.mem_of_getElem? hF
  obtain ⟨-, hbuilds⟩ := assemble_builds hd
  have hroots := hbuilds.becomes
  obtain ⟨hi, hFi⟩ := List.getElem?_eq_some_iff.1 hF
  obtain ⟨hi', hRi⟩ := List.getElem?_eq_some_iff.1 hR
  have hroot := (List.forall₂_iff_get.1 (Fragment.hasRoots hs hroots)).2 i hi hi'
  simp only [List.get_eq_getElem, hFi, hRi] at hroot
  have hunedited : d.roots.set i R = d.roots := set_of_getElem? hR
  have hinner : F.isComponentAmong fs = false := hroot.component.symm.trans hnested
  obtain ⟨done, hR₁, hR₂, hrendered⟩ :=
    @Fragment.ofRoots_pairs source fs file d.roots F R R' i hs hroots hmem hroot hR hnested rfl rfl rfl
  have hrow := fun rendered => Fragment.showns_inRow rendered d.roots (hs.consistent hordered).components_inRow
    fun f _ _ => Nat.zero_le f.rangeStart
  have hfills := @print_fills source fs file d F R i R hs hd hrow hmem hR hnested rfl
  have hfills' := @print_fills source fs file d F R i R' hs hd hrow hmem hR hnested rfl
  rw [hunedited] at hfills
  refine ⟨done, hR₁, hR₂, fun hreached => ?_, fun hlost => ?_⟩
  · obtain ⟨f, hf, hspans, hcomponent⟩ := hs.exists_component_spans hmem
    have hreach := (rawsReach_iff hs hmem hf hcomponent hspans).1 hreached
    obtain ⟨a, before, behind, c, hsource, hplace, hbefore, hbehind, hprint, hprint'⟩ :=
      Fragment.showns_swaps hs hroots hmem hinner hrendered hf hcomponent hspans hreach (hrow _) hfills hfills'
    have hwritten : (Rendered.ofRoot done R).written = F.text := by
      show R.written?.getD [] = F.text
      rw [hroot.written hnested, Option.getD_some]
    rw [hwritten] at hsource
    rw [Nat.zero_add] at hplace
    exact ⟨a, before, behind, c, hsource, hplace, hbefore, hbehind, hprint, hprint'⟩
  · have hsame := Fragment.showns_same hs hroots hmem hinner hrendered fun f hf hcomponent hreach =>
      hlost ((rawsReach_iff hs hmem hf hcomponent hreach.1).2 hreach.2)
    rw [hsame] at hfills'
    exact hfills.unique hfills'

/-- A source with a fragment in a value and one with the same text as a statement of its own. -/
def besideSource : Text := "css\x60color: $\x7bcss\x60a:b\x60\x7d; $\x7bcss\x60a:b\x60\x7d c:d\x60".toList

/-- The fragments of `besideSource`. -/
def beside : List Fragment :=
  [⟨"color: $\x7bcss\x60a:b\x60\x7d; $\x7bcss\x60a:b\x60\x7d c:d".toList, 4, 39, [⟨11, 22⟩, ⟨24, 35⟩], ⟨4, 1, 5⟩⟩,
    ⟨"a:b".toList, 17, 20, [], ⟨17, 1, 18⟩⟩, ⟨"a:b".toList, 30, 33, [], ⟨30, 1, 31⟩⟩]

/-- The statement is printed as it is edited, the value as it was. -/
theorem print_of_edit_beside :
    ∃ d R S, Document.assemble besideSource beside none = .ok d ∧ d.roots[1]? = some R ∧ d.roots[2]? = some S ∧
      ({ d with roots := d.roots.set 1 { R with nodes := [], semicolon := none, after := "x:y".toList } } :
        Document).print = d.print ∧
      ∃ before behind, d.print = before ++ "a:b".toList ++ behind ∧
        ({ d with roots := d.roots.set 2 { S with nodes := [], semicolon := none, after := "x:y".toList } } :
          Document).print = before ++ "x:y".toList ++ behind := by
  have hdocument : (Document.assemble besideSource beside none).map
      (fun d => !decide (d.RawsReach beside ⟨"a:b".toList, 17, 20, [], ⟨17, 1, 18⟩⟩) &&
        decide (d.RawsReach beside ⟨"a:b".toList, 30, 33, [], ⟨30, 1, 31⟩⟩) &&
        (Rendered.ofRoots d.roots).all (fun x => x.content = "a:b".toList) &&
        d.roots[1]?.any (fun R => !R.isComponent) &&
        d.roots[2]?.any fun S => !S.isComponent && (Rendered.ofRoots (d.roots.set 2 { S with
          nodes := [], semicolon := none, after := "x:y".toList })).all fun x =>
            x.start != S.rangeStart || x.content = "x:y".toList) = .ok true := by decide +kernel
  obtain ⟨d, hd, hall⟩ := map_eq_ok.1 hdocument
  simp only [Bool.and_eq_true, Option.any_eq_true, decide_eq_true_eq, Bool.not_eq_true',
    decide_eq_false_iff_not] at hall
  obtain ⟨⟨⟨⟨hlost, hreach⟩, hcontents⟩, R, hR, hRnested⟩, S, hS, hSnested, hcontents'⟩ := hall
  obtain ⟨-, -, -, -, hsame⟩ := print_of_edit (by decide +kernel) (by decide +kernel) hd rfl hR hRnested [] none
    "x:y".toList
  obtain ⟨done, hmem, hmem', hprints, -⟩ := print_of_edit (by decide +kernel) (by decide +kernel) hd rfl hS hSnested
    [] none "x:y".toList
  obtain ⟨-, before, behind, -, -, -, -, -, hprint, hprint'⟩ := hprints hreach
  have hold : S.print done = "a:b".toList := of_decide_eq_true (List.all_eq_true.1 hcontents _ hmem)
  have hnew := List.all_eq_true.1 hcontents' _ hmem'
  simp only [Rendered.ofRoot, bne_self_eq_false, Bool.false_or] at hnew
  rw [hold] at hprint
  rw [of_decide_eq_true hnew] at hprint'
  exact ⟨d, R, S, hd, hR, hS, hsame hlost, before, behind, hprint, hprint'⟩

/-- A source with the same fragment in a selector, a value, the parameters of an at-rule and a comment. -/
def hiddenSource : Text :=
  ("css\x60$\x7bcss\x60a:b\x60\x7d \x7b c: $\x7bcss\x60a:b\x60\x7d; \x7d " ++
    "@media $\x7bcss\x60a:b\x60\x7d \x7b d: e; \x7d /* $\x7bcss\x60a:b\x60\x7d */\x60").toList

/-- The fragments of `hiddenSource`. -/
def hidden : List Fragment :=
  [⟨("$\x7bcss\x60a:b\x60\x7d \x7b c: $\x7bcss\x60a:b\x60\x7d; \x7d " ++
      "@media $\x7bcss\x60a:b\x60\x7d \x7b d: e; \x7d /* $\x7bcss\x60a:b\x60\x7d */").toList,
      4, 82, [⟨4, 15⟩, ⟨21, 32⟩, ⟨43, 54⟩, ⟨68, 79⟩], ⟨4, 1, 5⟩⟩,
    ⟨"a:b".toList, 10, 13, [], ⟨10, 1, 11⟩⟩, ⟨"a:b".toList, 27, 30, [], ⟨27, 1, 28⟩⟩,
    ⟨"a:b".toList, 49, 52, [], ⟨49, 1, 50⟩⟩, ⟨"a:b".toList, 74, 77, [], ⟨74, 1, 75⟩⟩]

/-- In none of these places an edit is printed. -/
theorem print_of_edit_hidden :
    Fragment.Separate hiddenSource hidden ∧
    (hidden.filter (Fragment.isComponentAmong hidden)).Pairwise (·.rangeStart < ·.rangeStart) ∧
    hiddenSource.includes "x:y".toList = false ∧
    ∃ d, Document.assemble hiddenSource hidden none = .ok d ∧
      ∀ i ∈ [1, 2, 3, 4], ∃ R, d.roots[i]? = some R ∧ R.written? = some "a:b".toList ∧
        ∃ nodes, ({ R with nodes := nodes } : Root).css = "x:y".toList ∧
          ({ d with roots := d.roots.set i { R with nodes := nodes } } : Document).print = hiddenSource := by
  have hdocument : (Document.assemble hiddenSource hidden none).map (fun d => [1, 2, 3, 4].all fun i =>
      d.roots[i]?.any fun R => R.written? = some "a:b".toList &&
        ({ R with nodes := [.leaf (.declaration "x".toList "y".toList false)
          { before := some [], between := some [':'] } none] } : Root).css = "x:y".toList &&
        ({ d with roots := d.roots.set i { R with nodes := [.leaf (.declaration "x".toList "y".toList false)
          { before := some [], between := some [':'] } none] } } : Document).print = hiddenSource) =
      .ok true := by decide +kernel
  obtain ⟨d, hd, hall⟩ := map_eq_ok.1 hdocument
  refine ⟨by decide +kernel, by decide +kernel, by decide +kernel, d, hd, fun i hi => ?_⟩
  have hone := List.all_eq_true.1 hall i hi
  simp only [Bool.and_eq_true, Option.any_eq_true, decide_eq_true_eq] at hone
  obtain ⟨R, hR, ⟨hwritten, hcss⟩, hprint⟩ := hone
  exact ⟨R, hR, hwritten, _, hcss, hprint⟩

end Document
end TaggedStyles
