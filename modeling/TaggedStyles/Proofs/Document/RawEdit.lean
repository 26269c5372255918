import TaggedStyles.Document.Edit
import TaggedStyles.Proofs.Document.EditReach

/-! Edits of the raw before a node. Such an edit changes what is printed for that raw and nothing else. If text
is put in front of what stands in it, the raw is printed as that text and what it was printed as before, as long
as the longer raw does not reach back over other style texts. Where it does, they are looked for in it too, and
one of them may be found by its text alone. -/
namespace TaggedStyles
set_option autoImplicit false

/-! ## Splicing into a longer raw -/

namespace Rendered
variable {rendered rs : List Rendered} {r : Rendered} {x w text out : Text} {start stop cursor : Nat}

theorem standsIn_behind (h : r.standsIn text (start + x.size) = true) (hstart : start + x.size ≤ r.start) :
    r.standsIn (x ++ text) start = true := by
  simp only [standsIn, Bool.and_eq_true, decide_eq_true_eq] at h ⊢
  obtain ⟨hle, hslice⟩ := h
  obtain ⟨a, b, rfl, ha, hb⟩ := Text.slice?_eq_some.1 hslice
  refine ⟨hle, Text.slice?_eq_some.2 ⟨x ++ a, b, by simp only [List.append_assoc], ?_, ?_⟩⟩
  · rw [Text.size_append]
    omega
  · omega

theorem Fills.behind (h : Fills (cursor + x.size) text rs out) : Fills cursor (x ++ text) rs (x ++ out) := by
  generalize hfrom : cursor + x.size = bound at h
  cases h with
  | nil => exact .nil
  | @cons _ gap text out r rs hgap hmore =>
    have hwide : cursor + (x ++ gap).size = r.start := by
      rw [Text.size_append]
      omega
    simpa only [List.append_assoc] using Fills.cons hwide hmore

/-- There is room for `x` in front of a raw that ends at an offset: with it, the raw reaches over no other style
texts than before, and not over the front of the source either if there are any; or all that it then reaches over
print as they are written. -/
def Room (rendered : List Rendered) (x w : Text) (stop : Nat) : Prop :=
  (∀ r ∈ rendered, r.Within (stop - (x ++ w).size) stop → r.Within (stop - w.size) stop ∧ (x ++ w).size ≤ stop) ∨
    ∀ r ∈ rendered, r.Within (stop - (x ++ w).size) stop → r.content = r.written

instance (rendered : List Rendered) (x w : Text) (stop : Nat) : Decidable (Room rendered x w stop) :=
  inferInstanceAs (Decidable (_ ∨ _))

theorem outermost_congr {start' : Nat}
    (h : ∀ r ∈ rendered, r.Within start stop ↔ r.Within start' stop) :
    outermost start stop rendered = outermost start' stop rendered := by
  unfold outermost
  congr 2
  refine List.filter_congr fun r hr => ?_
  rw [Bool.eq_iff_iff]
  simpa only [Within, Bool.and_eq_true, decide_eq_true_eq] using h r hr

end Rendered

section
open Rendered
variable {rendered : List Rendered} {x w : Text} {stop : Nat}

theorem within_longer {r : Rendered} (x : Text) (h : r.Within (stop - w.size) stop) :
    r.Within (stop - (x ++ w).size) stop := by
  refine h.mono ?_ (Nat.le_refl stop)
  rw [Text.size_append]
  omega

/-- With the same style texts in its window, a longer raw is filled as before behind `x`. -/
theorem splice_longer_of_same {r : Rendered} (hr : r ∈ rendered) (hin : r.Within (stop - w.size) stop)
    (hmark : w.includes holeMark = true)
    (hstands : ∀ r ∈ rendered, r.Within (stop - w.size) stop → r.standsIn w (stop - w.size) = true)
    (hsame : ∀ r ∈ rendered, r.Within (stop - (x ++ w).size) stop →
      r.Within (stop - w.size) stop ∧ (x ++ w).size ≤ stop) :
    splice rendered (x ++ w) stop = x ++ splice rendered w stop := by
  have hfront : stop - (x ++ w).size + x.size = stop - w.size := by
    have hle := (hsame r hr (within_longer x hin)).2
    rw [Text.size_append] at hle ⊢
    omega
  have houter : outermost (stop - (x ++ w).size) stop rendered = outermost (stop - w.size) stop rendered :=
    outermost_congr fun s hs => ⟨fun h => (hsame s hs h).1, within_longer x⟩
  have hall : ∀ s ∈ outermost (stop - w.size) stop rendered, s.standsIn w (stop - w.size) = true := fun s hs =>
    hstands s (mem_outermost hs).1 (mem_outermost hs).2
  have hfills := splice_fills hmark hall
  have hlonger : ∀ s ∈ outermost (stop - (x ++ w).size) stop rendered,
      s.standsIn (x ++ w) (stop - (x ++ w).size) = true := by
    rw [houter]
    intro s hs
    have hone := hall s hs
    have hbound := (mem_outermost hs).2.1
    rw [← hfront] at hone hbound
    exact standsIn_behind hone hbound
  have hfills' := splice_fills (Text.includes_behind x hmark) hlonger
  rw [houter, ← hfront] at hfills'
  rw [← hfront] at hfills
  exact hfills.behind.unique hfills'

/-- Where there is room, what is put in front of a raw is printed in front of it. -/
theorem splice_longer (hroom : Room rendered x w stop)
    (hmark : ∀ r ∈ rendered, r.Within (stop - w.size) stop → w.includes holeMark = true)
    (hstands : ∀ r ∈ rendered, r.Within (stop - w.size) stop → r.standsIn w (stop - w.size) = true) :
    splice rendered (x ++ w) stop = x ++ splice rendered w stop := by
  rcases hroom with hsame | hunchanged
  · by_cases hsome : ∃ r ∈ rendered, r.Within (stop - w.size) stop
    · obtain ⟨r, hr, hin⟩ := hsome
      exact splice_longer_of_same hr hin (hmark r hr hin) hstands hsame
    · have hnone : ∀ r ∈ rendered, ¬ r.Within (stop - w.size) stop := fun r hr hin => hsome ⟨r, hr, hin⟩
      rw [splice_of_unchanged fun r hr hin => absurd hin (hnone r hr),
        splice_of_unchanged fun r hr hin => absurd (hsame r hr hin).1 (hnone r hr)]
  · rw [splice_of_unchanged hunchanged,
      splice_of_unchanged fun r hr hin => hunchanged r hr (within_longer x hin)]

end

/-! ## Pieces of an edited tree -/

namespace Node
variable {n m : Node} {ns : List Node} {places : List Nat} {i : Nat}

/-- With another raw in front. -/
def withBefore (new : Text) (n : Node) : Node := n.withRaws { n.raws with before := some new }

@[simp] theorem withBefore_before (new : Text) (n : Node) : (n.withBefore new).raws.before = some new := by
  cases n <;> rfl

@[simp] theorem withBefore_beforeEnd (new : Text) (n : Node) : (n.withBefore new).beforeEnd? = n.beforeEnd? := by
  cases n <;> rfl

@[simp] theorem withBefore_isSolid (new : Text) (n : Node) : (n.withBefore new).isSolid = n.isSolid := by
  cases n with
  | leaf content raws source => cases content <;> rfl
  | block header ns raws source => rfl

@[simp] theorem withBefore_pieces (new : Text) (semicolon : Bool) (n : Node) :
    (n.withBefore new).pieces semicolon = n.pieces semicolon := by
  cases n with
  | leaf content raws source => cases content <;> rfl
  | block header ns raws source => cases header <;> rfl

theorem Complete.withBefore (h : n.Complete) (new : Text) : (n.withBefore new).Complete := by
  cases n with
  | leaf content raws source => cases content <;> exact ⟨rfl, h.2⟩
  | block header ns raws source => exact ⟨rfl, h.2⟩

/-- One sibling in the place of another prints its own pieces there, if it takes a semicolon when the other
does. -/
theorem exists_piecesOf_set (semicolon : Bool) (hm : ns[i]? = some m) :
    ∃ ps qs own, ∀ m' : Node, m'.isSolid = m.isSolid → piecesOf semicolon (ns.set i m') =
      ps ++ (.raw (m'.raws.before.getD []) m'.beforeEnd? :: m'.pieces own) ++ qs := by
  obtain ⟨hi, rfl⟩ := List.getElem?_eq_some_iff.1 hm
  refine ⟨piecesOf (semicolon || (ns.drop i).any isSolid) (ns.take i), piecesOf semicolon (ns.drop (i + 1)),
    semicolon || (ns.drop (i + 1)).any isSolid, fun m' hsolid => ?_⟩
  have hany : (m' :: ns.drop (i + 1)).any isSolid = (ns.drop i).any isSolid := by
    rw [List.drop_eq_getElem_cons hi, List.any_cons, List.any_cons, hsolid]
  rw [List.set_eq_take_append_cons_drop, if_pos hi, piecesOf_append, piecesOf, hany]
  simp only [List.cons_append, List.append_assoc]

/-- The pieces of the children of a block stand between those of all else, whatever they are. -/
theorem exists_piecesOf_children {header : Header} {ms : List Node} {raws : Raws} {source : Option Span}
    (semicolon : Bool) (hm : ns[i]? = some (.block header ms raws source)) :
    ∃ ps qs, ∀ ms', piecesOf semicolon (ns.set i (.block header ms' raws source)) =
      ps ++ piecesOf (raws.semicolon.getD false) ms' ++ qs := by
  obtain ⟨ps, qs, own, hset⟩ := exists_piecesOf_set semicolon hm
  refine ⟨ps ++ [.raw (raws.before.getD []) (block header ms raws source).beforeEnd?,
      .plain (header.text raws ++ raws.between.getD [] ++ ['\x7b'])],
    .raw (raws.after.getD []) raws.ends.after :: .plain ['\x7d'] :: (header.ownPieces raws ++ qs), fun ms' => ?_⟩
  have hstop : (block header ms' raws source).beforeEnd? = (block header ms raws source).beforeEnd? := rfl
  rw [hset (.block header ms' raws source) rfl, pieces, hstop]
  simp only [Node.raws, List.append_assoc, List.cons_append, List.nil_append]

/-- By induction over the path: the raw before the node reached is one piece, and a change of it is a change of
that piece. -/
theorem exists_piecesOf_withBefore (semicolon : Bool) (hn : at? places ns = some n) :
    ∃ ps qs, piecesOf semicolon ns = ps ++ .raw (n.raws.before.getD []) n.beforeEnd? :: qs ∧
      ∀ new, ∃ ns', modifyAt (fun n => .ok (n.withBefore new)) places ns = .ok ns' ∧
        piecesOf semicolon ns' = ps ++ .raw new n.beforeEnd? :: qs := by
  induction places generalizing ns semicolon with
  | nil => cases hn
  | cons i places ih =>
    cases places with
    | nil =>
      -- The node is one of these siblings.
      have hi : ns[i]? = some n := hn
      obtain ⟨ps, qs, own, hset⟩ := exists_piecesOf_set semicolon hi
      have hold := hset n rfl
      rw [set_of_getElem? hi] at hold
      refine ⟨ps, n.pieces own ++ qs, by rw [hold]; simp, fun new => ⟨ns.set i (n.withBefore new), ?_, ?_⟩⟩
      · simp only [modifyAt, hi]
        rfl
      · rw [hset _ (withBefore_isSolid new n)]
        simp
    | cons j places =>
      obtain ⟨children, hchildren, hn⟩ := Option.bind_eq_some_iff.1 hn
      obtain ⟨m, hm, hchildren⟩ := Option.bind_eq_some_iff.1 hchildren
      cases m with
      | leaf content raws source => cases hchildren
      | block header ms raws source =>
        obtain rfl := Option.some.inj hchildren
        -- It is in one of them, whose own pieces stand around those of its children.
        obtain ⟨ps, qs, hset⟩ := exists_piecesOf_children semicolon hm
        obtain ⟨ps', qs', hold, hnew⟩ := ih (raws.semicolon.getD false) hn
        have hwhole := hset ms
        rw [set_of_getElem? hm] at hwhole
        refine ⟨ps ++ ps', qs' ++ qs, by rw [hwhole, hold]; simp, fun new => ?_⟩
        obtain ⟨ms', hmodify, hpieces⟩ := hnew new
        refine ⟨ns.set i (.block header ms' raws source), ?_, by rw [hset, hpieces]; simp⟩
        simp only [modifyAt, hm, hmodify]
        rfl

theorem completeAll_set (hc : CompleteAll ns) (hm : m.Complete) : CompleteAll (ns.set i m) := by
  refine completeAll_iff.2 fun n hn => ?_
  rcases List.mem_or_eq_of_mem_set hn with hn | rfl
  · exact completeAll_iff.1 hc n hn
  · exact hm

theorem ne_nil_of_modifyAt {f : Node → Except EditError Node} {ns' : List Node}
    (h : modifyAt f places ns = .ok ns') : ns ≠ [] := by
  rintro rfl
  cases places with
  | nil => cases h
  | cons i places =>
    cases places with
    | nil => cases h
    | cons j places => cases h

theorem completeAll_modifyAt {f : Node → Except EditError Node} {ns' : List Node}
    (hf : ∀ n n', f n = .ok n' → n.Complete → n'.Complete) (h : modifyAt f places ns = .ok ns')
    (hc : CompleteAll ns) : CompleteAll ns' := by
  fun_induction modifyAt f places ns generalizing ns' with
  | case1 => cases h
  | case2 i ns n hn =>
    obtain ⟨n', hn', h⟩ := bind_eq_ok.1 h
    obtain rfl := Except.ok.inj h
    exact completeAll_set hc (hf n n' hn' (completeAll_iff.1 hc n (List.mem_of_getElem? hn)))
  | case3 => cases h
  | case4 i places ns hne header ms raws source hm ih =>
    obtain ⟨ms', hmodify, h⟩ := bind_eq_ok.1 h
    obtain rfl := Except.ok.inj h
    obtain ⟨hbefore, hbetween, hafter, hsemicolon, hown, hms⟩ := completeAll_iff.1 hc _ (List.mem_of_getElem? hm)
    refine completeAll_set hc ⟨hbefore, hbetween, hafter, fun _ => ?_, hown, ih hmodify hms⟩
    exact hsemicolon (ne_nil_of_modifyAt hmodify)
  | case5 => cases h

end Node

/-- In a complete root, the raw before a node is printed between what is in front of it and what is behind it,
whatever it is. -/
theorem Root.exists_print_withBefore {r : Root} {n : Node} {places : List Nat} (hc : r.Complete)
    (hn : Node.at? places r.nodes = some n) (rendered : List Rendered) :
    ∃ before behind,
      r.print rendered = before ++ Printer.raw rendered (n.raws.before.getD []) n.beforeEnd? ++ behind ∧
      ∀ new, ∃ ns', Node.modifyAt (fun n => .ok (n.withBefore new)) places r.nodes = .ok ns' ∧
        ({ r with nodes := ns' } : Root).print rendered =
          before ++ Printer.raw rendered new n.beforeEnd? ++ behind := by
  obtain ⟨ps, qs, hold, hnew⟩ := Node.exists_piecesOf_withBefore (r.semicolon.getD false) hn
  refine ⟨r.codeBefore?.getD [] ++ Piece.prints rendered ps,
    Piece.prints rendered (qs ++ [.raw r.after (some r.rangeEnd)]) ++ r.codeAfter?.getD [], ?_, fun new => ?_⟩
  · rw [Root.print_complete hc, Root.pieces, hold]
    simp [Piece.print]
  · obtain ⟨ns', hmodify, hpieces⟩ := hnew new
    have hkeeps : ∀ n n' : Node, Except.ok (ε := EditError) (n.withBefore new) = .ok n' → n.Complete →
        n'.Complete := by
      rintro n n' h hn
      rw [← Except.ok.inj h]
      exact hn.withBefore new
    have hc' : ({ r with nodes := ns' } : Root).Complete :=
      ⟨Node.completeAll_modifyAt hkeeps hmodify hc.1, fun _ => hc.2 (Node.ne_nil_of_modifyAt hmodify)⟩
    refine ⟨ns', hmodify, ?_⟩
    rw [Root.print_complete hc', Root.pieces, hpieces]
    simp [Piece.print, Root.codeBefore?, Root.codeAfter?]

/-! ## Edits of nested roots -/

/-- What edits of nested roots leave of a root: a component is the same, and a nested root stands in its
place, with any nodes. -/
structure Root.Revised (r r' : Root) : Prop where
  start : r'.rangeStart = r.rangeStart
  stop : r'.rangeEnd = r.rangeEnd
  role : r'.role = r.role
  component : r.isComponent = true → r' = r

theorem Root.Revised.self (r : Root) : r.Revised r := ⟨rfl, rfl, rfl, fun _ => rfl⟩

theorem Root.Revised.trans {r r' r'' : Root} (h : r.Revised r') (h' : r'.Revised r'') : r.Revised r'' := by
  refine ⟨h'.start.trans h.start, h'.stop.trans h.stop, h'.role.trans h.role, fun hr => ?_⟩
  obtain rfl := h.component hr
  exact h'.component hr

theorem Fragment.HasRoot.revised {fs : List Fragment} {f : Fragment} {r r' : Root} (hf : HasRoot fs f r)
    (h : r.Revised r') : HasRoot fs f r' := hf.of_role h.start h.stop h.role

/-! ## Documents -/

namespace Document
variable {source : Text} {fs : List Fragment} {file : Option String} {d d' d'' : Document} {r : Root} {n : Node}
  {path : Path} {w : Text} {stop : Nat}

theorem mapRoot_eq_ok {f : Root → Except EditError Root} {i : Nat} :
    d.mapRoot i f = .ok d' ↔ ∃ r r', d.roots[i]? = some r ∧ f r = .ok r' ∧ { d with roots := d.roots.set i r' } = d' := by
  unfold mapRoot Document.root
  constructor
  · intro h
    obtain ⟨r, hr, h⟩ := bind_eq_ok.1 h
    obtain ⟨r', hr', h⟩ := bind_eq_ok.1 h
    refine ⟨r, r', ?_, hr', Except.ok.inj h⟩
    split at hr
    · rename_i hget
      rw [hget, Except.ok.inj hr]
    · cases hr
  · rintro ⟨r, r', hr, hr', rfl⟩
    rw [hr]
    exact bind_eq_ok.2 ⟨r, rfl, bind_eq_ok.2 ⟨r', hr', rfl⟩⟩

theorem mapNode_eq_ok {f : Node → Except EditError Node} :
    d.mapNode path f = .ok d' ↔ ∃ r ns, d.roots[path.root]? = some r ∧
      Node.modifyAt f path.places r.nodes = .ok ns ∧
      { d with roots := d.roots.set path.root { r with nodes := ns } } = d' := by
  refine mapRoot_eq_ok.trans ⟨?_, ?_⟩
  · rintro ⟨r, r', hr, hr', h⟩
    obtain ⟨ns, hns, hr'⟩ := bind_eq_ok.1 hr'
    exact ⟨r, ns, hr, hns, Except.ok.inj hr' ▸ h⟩
  · rintro ⟨r, ns, hr, hns, h⟩
    exact ⟨r, _, hr, bind_eq_ok.2 ⟨ns, hns, rfl⟩, h⟩

/-- An edit of the raw before a node of a complete component changes what is printed for that raw and nothing
else. -/
theorem exists_print_raw (hr : d.roots[path.root]? = some r) (hcomponent : r.isComponent = true)
    (hc : r.Complete) (hn : Node.at? path.places r.nodes = some n) :
    ∃ before behind,
      d.print = before ++ Printer.raw (Rendered.ofRoots d.roots) (n.raws.before.getD []) n.beforeEnd? ++ behind ∧
      ∀ new, ∃ d', d.edit (.raw path (.text .before (some new))) = .ok d' ∧
        d'.print = before ++ Printer.raw (Rendered.ofRoots d.roots) new n.beforeEnd? ++ behind := by
  obtain ⟨ls, ms, hset⟩ := @filter_set_of_pos _ Root.isComponent _ _ _ hr
  obtain ⟨before, behind, hold, hnew⟩ := Root.exists_print_withBefore hc hn (Rendered.ofRoots d.roots)
  have hne : d.roots ≠ [] := List.ne_nil_of_mem (List.mem_of_getElem? hr)
  refine ⟨ls.flatMap (Root.print (Rendered.ofRoots d.roots)) ++ before,
    behind ++ ms.flatMap (Root.print (Rendered.ofRoots d.roots)), ?_, fun new => ?_⟩
  · have hcomponents := hset r hcomponent
    rw [set_of_getElem? hr] at hcomponents
    unfold Document.print Document.components
    rw [if_neg (by simpa using hne), hcomponents, List.flatMap_append, List.flatMap_cons, hold]
    simp only [List.append_assoc]
  · obtain ⟨ns, hmodify, hprint⟩ := hnew new
    have hcomponent' : ({ r with nodes := ns } : Root).isComponent = true := hcomponent
    have hnested : (d.roots.set path.root { r with nodes := ns }).filter (!·.isComponent) =
        d.roots.filter (!·.isComponent) :=
      filter_set_of_not hr (by rw [hcomponent]; rfl) (by rw [hcomponent']; rfl)
    have hrendered : Rendered.ofRoots (d.roots.set path.root { r with nodes := ns }) =
        Rendered.ofRoots d.roots := by
      unfold Rendered.ofRoots
      rw [hnested]
    refine ⟨_, mapNode_eq_ok.2 ⟨r, ns, hr, hmodify, rfl⟩, ?_⟩
    unfold Document.print Document.components
    rw [if_neg (by simpa using hne), hrendered, hset { r with nodes := ns } hcomponent', List.flatMap_append,
      List.flatMap_cons, hprint]
    simp only [List.append_assoc]

/-- A document as it is after edits of its nested roots. -/
def NestedEdits (d d' : Document) : Prop := List.Forall₂ Root.Revised d.roots d'.roots

theorem NestedEdits.trans (h : d.NestedEdits d') (h' : d'.NestedEdits d'') : d.NestedEdits d'' :=
  forall₂_trans h h' fun _ _ _ => Root.Revised.trans

theorem nestedEdits_of_mapNode {f : Node → Except EditError Node} (hr : d.roots[path.root]? = some r)
    (hnested : r.isComponent = false) (h : d.mapNode path f = .ok d') : d.NestedEdits d' := by
  obtain ⟨s, ns, hs, -, rfl⟩ := mapNode_eq_ok.1 h
  obtain rfl := Option.some.inj (hr.symm.trans hs)
  refine forall₂_set Root.Revised.self hr ⟨rfl, rfl, rfl, fun hcomponent => ?_⟩
  rw [hnested] at hcomponent
  cases hcomponent

theorem NestedEdits.getElem? {i : Nat} (h : d.NestedEdits d') (hr : d.roots[i]? = some r)
    (hcomponent : r.isComponent = true) : d'.roots[i]? = some r := by
  obtain ⟨hlen, hget⟩ := List.forall₂_iff_get.1 h
  obtain ⟨hi, rfl⟩ := List.getElem?_eq_some_iff.1 hr
  have hone := (hget i hi (by omega)).component hcomponent
  exact List.getElem?_eq_some_iff.2 ⟨by omega, hone⟩

/-- After edits of nested roots, a nested root is rendered with the place and the written text of its fragment. -/
theorem NestedEdits.rendersInner {f : Fragment} (hs : Fragment.Separate source fs)
    (hbecomes : List.Forall₂ (Fragment.Becomes file fs) fs d.roots) (h : d.NestedEdits d') (hf : f ∈ fs)
    (hcomponent : f.isComponentAmong fs = true) :
    Fragment.RendersInner fs (fun _ _ => True) f (Rendered.ofRoots d'.roots) := by
  have hroots : List.Forall₂ (Fragment.HasRoot fs) fs d'.roots :=
    forall₂_trans (Fragment.hasRoots hs hbecomes) h fun _ _ _ => Fragment.HasRoot.revised
  refine Fragment.rendersInner_of_component hs hf hcomponent hroots ?_
  exact Fragment.ofRoots_shows hs hroots fun _ _ _ _ _ _ _ _ => trivial

/-- Text that is put in front of the raw before a node of a component is printed in front of what that raw is
printed as, whatever edits of nested roots it is printed with, as long as there is room for it. In any case nothing else
changes, and the longer raw is spliced as if it had been in the source, although its window may reach over other style
texts. -/
theorem print_of_raw_edit (hs : Fragment.Separate source fs) (hd : Document.assemble source fs file = .ok d)
    (hedits : d.NestedEdits d') (hr : d.roots[path.root]? = some r) (hcomponent : r.isComponent = true)
    (hn : Node.at? path.places r.nodes = some n) (hw : n.raws.before = some w) (hstop : n.beforeEnd? = some stop) :
    let rendered := Rendered.ofRoots d'.roots
    ∃ before behind, d'.print = before ++ splice rendered w stop ++ behind ∧
      ∀ x, ∃ d'' out, d'.edit (.raw path (.text .before (some (x ++ w)))) = .ok d'' ∧
        d''.print = before ++ out ++ behind ∧ SplicedAs rendered (x ++ w) stop out ∧
        (Rendered.Room rendered x w stop → out = x ++ splice rendered w stop) := by
  intro rendered
  obtain ⟨-, hbuilds⟩ := assemble_builds hd
  obtain ⟨f, hmem, hfr⟩ := Fragment.exists_fragment hbuilds.becomes (List.mem_of_getElem? hr)
  have hf := (List.of_mem_zip hmem).1
  obtain ⟨role, hread⟩ := hfr.readClear hs hf
  have hinner := hedits.rendersInner hs hbuilds.becomes hf (hfr.component.symm.trans hcomponent)
  have hpiece : Piece.raw w (some stop) ∈ r.pieces := by
    obtain ⟨ps, qs, hpieces, -⟩ := Node.exists_piecesOf_withBefore (r.semicolon.getD false) hn
    rw [hw, hstop, Option.getD_some] at hpieces
    rw [Root.pieces, hpieces]
    simp
  obtain ⟨a, c, hwindow, rfl⟩ := hfr.window hs hf hpiece
  have hfront : f.rangeStart + (a.size + w.size) - w.size = f.rangeStart + a.size := by omega
  obtain ⟨before, behind, hprint, hedit⟩ :=
    exists_print_raw (hedits.getElem? hr hcomponent) hcomponent hread.complete hn
  rw [hw, hstop, Option.getD_some] at hprint
  refine ⟨before, behind, hprint, fun x => ?_⟩
  obtain ⟨d'', hd'', hprint'⟩ := hedit (x ++ w)
  rw [hstop] at hprint'
  refine ⟨d'', _, hd'', hprint', splicedAs_splice rendered (x ++ w) _, fun hroom => ?_⟩
  -- What is rendered in the window of `w` is nested in `f`, so it lines up and has a hole around it.
  refine splice_longer hroom ?_ ?_
  · intro y hy hin
    rw [hfront] at hin
    obtain ⟨g, hg, hgy, hgf⟩ := hwindow.nested hs hf hinner hy hin
    rw [Rendered.Within, hgy.start, hgy.stop] at hin
    exact hwindow.includes hs hf hg hgf hin.1 hin.2
  · intro y hy hin
    rw [hfront] at hin ⊢
    exact hwindow.standsIn hs hf hinner hy hin

/-- A source with the same fragment in two raws of one component. -/
def pairSource : Text := "css\x60$\x7bcss\x60a:b\x60\x7d c: d; $\x7bcss\x60a:b\x60\x7d e: f\x60".toList

/-- The fragments of `pairSource`. -/
def pair : List Fragment :=
  [⟨"$\x7bcss\x60a:b\x60\x7d c: d; $\x7bcss\x60a:b\x60\x7d e: f".toList, 4, 38, [⟨4, 15⟩, ⟨22, 33⟩], ⟨4, 1, 5⟩⟩,
    ⟨"a:b".toList, 10, 13, [], ⟨10, 1, 11⟩⟩, ⟨"a:b".toList, 28, 31, [], ⟨28, 1, 29⟩⟩]

/-- The raw before the second declaration, which ends at offset 34. -/
def pairRaw : Text := " $\x7bcss\x60a:b\x60\x7d ".toList

/-- A comment that fits in between the two fragments is printed in front of the second one, as that is edited. -/
theorem print_of_raw_edit_apart :
    ∃ d d' d'', Document.assemble pairSource pair none = .ok d ∧ d.NestedEdits d' ∧
      d'.edit (.raw ⟨0, [1]⟩ (.text .before (some ("/* g */".toList ++ pairRaw)))) = .ok d'' ∧
      ∃ before behind, d'.print = before ++ " $\x7bcss\x60a:y\x60\x7d ".toList ++ behind ∧
        d''.print = before ++ ("/* g */".toList ++ " $\x7bcss\x60a:y\x60\x7d ".toList) ++ behind := by
  have hdocument : (Document.assemble pairSource pair none).map (fun d =>
      (d.edit (.set ⟨1, [0]⟩ (.value "z".toList))).bind fun d₁ =>
        (d₁.edit (.set ⟨2, [0]⟩ (.value "y".toList))).map fun d₂ =>
          d.roots[1]?.any (fun r => !r.isComponent) && d₁.roots[2]?.any (fun r => !r.isComponent) &&
          decide (Rendered.Room (Rendered.ofRoots d₂.roots) "/* g */".toList pairRaw 34) &&
          (splice (Rendered.ofRoots d₂.roots) pairRaw 34 = " $\x7bcss\x60a:y\x60\x7d ".toList) &&
          d.roots[0]?.any fun r => r.isComponent && (Node.at? [1] r.nodes).any fun n =>
            n.raws.before = some pairRaw && n.beforeEnd? = some 34) = .ok (.ok true) := by decide +kernel
  obtain ⟨d, hd, hedits⟩ := map_eq_ok.1 hdocument
  obtain ⟨d₁, hd₁, hedits⟩ := bind_eq_ok.1 hedits
  obtain ⟨d₂, hd₂, hall⟩ := map_eq_ok.1 hedits
  simp only [Bool.and_eq_true, Option.any_eq_true, decide_eq_true_eq, Bool.not_eq_true'] at hall
  obtain ⟨⟨⟨⟨⟨R, hR, hRnested⟩, S, hS, hSnested⟩, hroom⟩, hsplice⟩, r, hr, hcomponent, n, hn, hw, hstop⟩ := hall
  have hnested := (nestedEdits_of_mapNode hR hRnested hd₁).trans (nestedEdits_of_mapNode hS hSnested hd₂)
  obtain ⟨before, behind, hprint, hedit⟩ :=
    @print_of_raw_edit pairSource pair none d d₂ r n ⟨0, [1]⟩ pairRaw 34 (by decide +kernel) hd hnested hr
      hcomponent hn hw hstop
  obtain ⟨d₃, out, hd₃, hprint', -, hout⟩ := hedit "/* g */".toList
  rw [hout hroom, hsplice] at hprint'
  rw [hsplice] at hprint
  exact ⟨d, d₂, d₃, hd, hnested, hd₃, before, behind, hprint, hprint'⟩

/-- A longer comment makes the raw reach back over the first fragment. Then the edit of that one is printed in
the place of the second one too, which has the same text and no edit. -/
theorem print_of_raw_edit_confused :
    ∃ d d' d'', Document.assemble pairSource pair none = .ok d ∧
      d.edit (.set ⟨1, [0]⟩ (.value "z".toList)) = .ok d' ∧
      d'.edit (.raw ⟨0, [1]⟩ (.text .before (some ("/*1234567890123*/".toList ++ pairRaw)))) = .ok d'' ∧
      d'.print = "css\x60$\x7bcss\x60a:z\x60\x7d c: d;".toList ++ pairRaw ++ "e: f\x60".toList ∧
      splice (Rendered.ofRoots d'.roots) pairRaw 34 = pairRaw ∧
      d''.print = "css\x60$\x7bcss\x60a:z\x60\x7d c: d;".toList ++
        ("/*1234567890123*/".toList ++ " $\x7bcss\x60a:z\x60\x7d ".toList) ++ "e: f\x60".toList := by
  have hdocument : (Document.assemble pairSource pair none).map (fun d =>
      (d.edit (.set ⟨1, [0]⟩ (.value "z".toList))).bind fun d' =>
        (d'.edit (.raw ⟨0, [1]⟩ (.text .before (some ("/*1234567890123*/".toList ++ pairRaw))))).map fun d'' =>
          d'.print = "css\x60$\x7bcss\x60a:z\x60\x7d c: d;".toList ++ pairRaw ++ "e: f\x60".toList &&
          splice (Rendered.ofRoots d'.roots) pairRaw 34 = pairRaw &&
          d''.print = "css\x60$\x7bcss\x60a:z\x60\x7d c: d;".toList ++
            ("/*1234567890123*/".toList ++ " $\x7bcss\x60a:z\x60\x7d ".toList) ++ "e: f\x60".toList) =
      .ok (.ok true) := by decide +kernel
  obtain ⟨d, hd, hedits⟩ := map_eq_ok.1 hdocument
  obtain ⟨d', hd', hedits⟩ := bind_eq_ok.1 hedits
  obtain ⟨d'', hd'', hall⟩ := map_eq_ok.1 hedits
  simp only [Bool.and_eq_true, decide_eq_true_eq] at hall
  obtain ⟨⟨hprint, hsplice⟩, hprint'⟩ := hall
  exact ⟨d, d', d'', hd, hd', hd'', hprint, hsplice, hprint'⟩

end Document
end TaggedStyles
