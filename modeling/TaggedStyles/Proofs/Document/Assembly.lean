import TaggedStyles.Proofs.Document.Rendering
import TaggedStyles.Proofs.Tree.Parser

/-! Documents and their sources. Each fragment gives one root; the components, put together with the code
between them, are the source again if they stand in its order and print as they are written. -/
namespace TaggedStyles
set_option autoImplicit false

/-! ## Fragments in their source -/

namespace Fragment

/-- A fragment stands where it says, and its holes stand in it. -/
structure Placed (source : Text) (f : Fragment) : Prop where
  text : source.slice? f.rangeStart f.rangeEnd = some f.text
  location : f.location.offset = f.rangeStart
  holes : ∀ h ∈ f.holes, f.rangeStart ≤ h.start ∧ h.stop ≤ f.rangeEnd

instance (source : Text) (f : Fragment) : Decidable (f.Placed source) :=
  decidable_of_iff
    (source.slice? f.rangeStart f.rangeEnd = some f.text ∧ f.location.offset = f.rangeStart ∧
      ∀ h ∈ f.holes, f.rangeStart ≤ h.start ∧ h.stop ≤ f.rangeEnd)
    ⟨fun h => ⟨h.1, h.2.1, h.2.2⟩, fun h => ⟨h.text, h.location, h.holes⟩⟩

variable {source : Text} {f g : Fragment} {fs all : List Fragment} {file : Option String}

theorem Placed.size (h : f.Placed source) : f.rangeStart + f.text.size = f.rangeEnd := by
  obtain ⟨a, b, -, ha, hsize⟩ := Text.slice?_eq_some.1 h.text
  exact hsize

theorem Placed.inside (hg : g.Placed source) (h : f.isNestedIn g = true) :
    g.rangeStart < f.rangeStart ∧ f.rangeEnd < g.rangeEnd := by
  obtain ⟨hole, hhole, hin⟩ := List.any_eq_true.1 h
  rw [Bool.and_eq_true, decide_eq_true_eq, decide_eq_true_eq] at hin
  have hplace := hg.holes hole hhole
  omega

theorem Placed.not_nested_self (h : f.Placed source) : f.isNestedIn f = false := by
  by_cases hself : f.isNestedIn f = true
  · have hin := h.inside hself
    omega
  · simpa using hself

theorem isComponentAmong_iff : f.isComponentAmong all = true ↔ ∀ g ∈ all, f.isNestedIn g = false := by
  simp [isComponentAmong]

theorem ne_of_component (hf : f.isComponentAmong all = false) (hg : g.isComponentAmong all = true) : f ≠ g := by
  rintro rfl
  rw [hf] at hg
  cases hg

theorem exists_first (hne : fs ≠ []) : ∃ f ∈ fs, ∀ g ∈ fs, f.rangeStart ≤ g.rangeStart := by
  induction fs with
  | nil => exact absurd rfl hne
  | cons f fs ih =>
    by_cases hfs : fs = []
    · subst hfs
      exact ⟨f, List.mem_cons_self, by simp⟩
    · obtain ⟨g, hg, hfirst⟩ := ih hfs
      by_cases hle : f.rangeStart ≤ g.rangeStart
      · refine ⟨f, List.mem_cons_self, fun k hk => ?_⟩
        rcases List.mem_cons.1 hk with rfl | hk
        · exact Nat.le_refl _
        · exact Nat.le_trans hle (hfirst k hk)
      · refine ⟨g, List.mem_cons_of_mem f hg, fun k hk => ?_⟩
        rcases List.mem_cons.1 hk with rfl | hk
        · omega
        · exact hfirst k hk

theorem exists_component (hplaced : ∀ f ∈ fs, f.Placed source) (hne : fs ≠ []) :
    ∃ f ∈ fs, f.isComponentAmong fs = true := by
  obtain ⟨f, hf, hfirst⟩ := exists_first hne
  refine ⟨f, hf, isComponentAmong_iff.2 fun g hg => ?_⟩
  by_cases hin : f.isNestedIn g = true
  · have hlt := ((hplaced g hg).inside hin).1
    have hle := hfirst g hg
    omega
  · simpa using hin

/-! ## Roots of fragments -/

/-- Fragments with their parts and the roots they are parsed into. -/
inductive Builds (file : Option String) : List Fragment → List Role → List Root → Prop
  | nil : Builds file [] [] []
  | cons {f : Fragment} {fs : List Fragment} {role : Role} {roles : List Role} {r : Root} {rs : List Root} :
      f.parse file role = .ok r → Builds file fs roles rs → Builds file (f :: fs) (role :: roles) (r :: rs)

theorem roles_length (source : Text) (all : List Fragment) (previous : Nat) (fs : List Fragment) :
    (roles source all previous fs).length = fs.length := by
  induction fs generalizing previous with
  | nil => rfl
  | cons f fs ih =>
    rw [roles]
    split
    · exact congrArg (· + 1) (ih _)
    · exact congrArg (· + 1) (ih _)

theorem builds_of_mapM {fs : List Fragment} {roles : List Role} {rs : List Root}
    (hlen : roles.length = fs.length)
    (h : (fs.zip roles).mapM (fun (f, role) => f.parse file role) = .ok rs) : Builds file fs roles rs := by
  induction fs generalizing roles rs with
  | nil =>
    obtain rfl := List.eq_nil_of_length_eq_zero hlen
    obtain rfl := Except.ok.inj h
    exact .nil
  | cons f fs ih =>
    cases roles with
    | nil => simp at hlen
    | cons role roles =>
      rw [List.zip_cons_cons, List.mapM_cons] at h
      obtain ⟨r, hr, h⟩ := bind_eq_ok.1 h
      obtain ⟨rest, hrest, h⟩ := bind_eq_ok.1 h
      obtain rfl := Except.ok.inj h
      exact .cons hr (ih (Nat.succ.inj hlen) hrest)

end Fragment

theorem Document.assemble_builds {source : Text} {fs : List Fragment} {file : Option String} {d : Document}
    (h : Document.assemble source fs file = .ok d) :
    d.source = source ∧ Fragment.Builds file fs (Fragment.roles source fs 0 fs) d.roots := by
  obtain ⟨roots, hroots, h⟩ := bind_eq_ok.1 h
  obtain rfl := Except.ok.inj h
  exact ⟨rfl, Fragment.builds_of_mapM (Fragment.roles_length source fs 0 fs) hroots⟩

/-! ## Components and the code between them -/

/-- A source with contents in the places of some style texts, each taken together with the code between the
end of the one before it and its own start. -/
def stitch (source : Text) (previous : Nat) : List Rendered → Text
  | [] => (source.suffix? previous).getD []
  | r :: rs => (source.slice? previous r.start).getD [] ++ r.content ++ stitch source r.stop rs

theorem stitch_fills {source before rest : Text} {rs : List Rendered} (hrow : Rendered.InRow before.size rs)
    (hstands : ∀ r ∈ rs, source.slice? r.start r.stop = some r.written) (hsource : source = before ++ rest) :
    Rendered.Fills before.size rest rs (stitch source before.size rs) := by
  induction rs generalizing before rest with
  | nil =>
    have hsuffix : source.suffix? before.size = some rest := Text.suffix?_eq_some.2 ⟨before, hsource, rfl⟩
    rw [stitch, hsuffix, Option.getD_some]
    exact .nil
  | cons r rs ih =>
    obtain ⟨hbound, hrow⟩ := hrow
    obtain ⟨a, b, htext, ha, hsize⟩ := Text.slice?_eq_some.1 (hstands r List.mem_cons_self)
    rw [List.append_assoc] at htext
    obtain ⟨gap, rfl, rfl⟩ := Text.exists_between (hsource.symm.trans htext) (by omega)
    rw [Text.size_append] at ha
    have hslice : source.slice? before.size r.start = some gap :=
      Text.slice?_eq_some.2 ⟨before, r.written ++ b, by rw [htext], rfl, ha⟩
    have hstop : r.stop = (before ++ gap ++ r.written).size := by
      rw [Text.size_append, Text.size_append]
      omega
    have hmore : Rendered.Fills r.stop b rs (stitch source r.stop rs) := by
      rw [hstop] at hrow ⊢
      exact ih hrow (fun s hs => hstands s (List.mem_cons_of_mem r hs)) (by rw [htext]; simp)
    rw [stitch, hslice, Option.getD_some, ← List.append_assoc gap]
    exact .cons ha hmore

/-- If no content is shorter than what it stands for, the whole is not shorter than the rest of the source, and
as long only if nothing has grown and all stand in a row: what is out of its order is printed twice. -/
theorem size_stitch {source before rest : Text} {rs : List Rendered}
    (hstands : ∀ r ∈ rs, source.slice? r.start r.stop = some r.written)
    (hgrow : ∀ r ∈ rs, r.written.size ≤ r.content.size) (hsource : source = before ++ rest) :
    rest.size ≤ (stitch source before.size rs).size ∧ ((stitch source before.size rs).size = rest.size →
      Rendered.InRow before.size rs ∧ ∀ r ∈ rs, r.content.size = r.written.size) := by
  induction rs generalizing before rest with
  | nil =>
    have hsuffix : source.suffix? before.size = some rest := Text.suffix?_eq_some.2 ⟨before, hsource, rfl⟩
    rw [stitch, hsuffix, Option.getD_some]
    exact ⟨Nat.le_refl _, fun _ => ⟨trivial, by simp⟩⟩
  | cons r rs ih =>
    have hr := hgrow r List.mem_cons_self
    obtain ⟨a, b, htext, ha, hsize⟩ := Text.slice?_eq_some.1 (hstands r List.mem_cons_self)
    have hstop : r.stop = (a ++ r.written).size := by
      rw [Text.size_append]
      omega
    have hsizes := congrArg Text.size (hsource.symm.trans htext)
    simp only [Text.size_append] at hsizes
    obtain ⟨hle, heq⟩ := ih (fun s hs => hstands s (List.mem_cons_of_mem r hs))
      (fun s hs => hgrow s (List.mem_cons_of_mem r hs)) htext
    rw [← hstop] at hle heq
    rw [stitch, Text.size_append, Text.size_append]
    by_cases hrow : before.size ≤ r.start
    · rw [List.append_assoc] at htext
      obtain ⟨gap, rfl, -⟩ := Text.exists_between (hsource.symm.trans htext) (by omega)
      have hslice : source.slice? before.size r.start = some gap :=
        Text.slice?_eq_some.2 ⟨before, r.written ++ b, htext, rfl, by rw [← ha, Text.size_append]⟩
      rw [Text.size_append] at ha hsizes
      rw [hslice, Option.getD_some]
      refine ⟨by omega, fun hsum => ?_⟩
      obtain ⟨hinRow, hall⟩ := heq (by omega)
      refine ⟨⟨hrow, hinRow⟩, fun s hs => ?_⟩
      rcases List.mem_cons.1 hs with rfl | hs
      · omega
      · exact hall s hs
    · constructor
      · omega
      · intro hsum
        omega

namespace Fragment
variable {source : Text} {f : Fragment} {fs all : List Fragment} {file : Option String} {rs : List Root}

/-- A component as it is shown: what its root prints without the code around it. -/
def shown (rendered : List Rendered) (f : Fragment) (r : Root) : Rendered :=
  ⟨f.rangeStart, f.rangeEnd, Piece.prints rendered r.pieces, f.text⟩

/-- The components among some fragments with their roots. -/
def showns (all : List Fragment) (rendered : List Rendered) : List Fragment → List Root → List Rendered
  | f :: fs, r :: rs =>
    if f.isComponentAmong all then shown rendered f r :: showns all rendered fs rs
    else showns all rendered fs rs
  | _, _ => []

theorem parse_readFrom {f : Fragment} {role : Role} {r : Root} (h : f.parse file role = .ok r) :
    r.ReadFrom (fun _ => True) ⟨f.text, f.location, file⟩ f.localHoles role :=
  (Root.parse_spec (Cuts.trivial _ _) h).1

theorem isComponent_of_component {r : Root} {code : Text} {after : Option Text}
    (h : r.role = .component code after) :
    r.isComponent = true := by
  unfold Root.isComponent
  rw [h]

theorem isComponent_of_nested {r : Root} {text : Text} (h : r.role = .nested text) : r.isComponent = false := by
  unfold Root.isComponent
  rw [h]

theorem Builds.no_components {previous : Nat} (h : Builds file fs (roles source all previous fs) rs)
    (hnone : fs.any (isComponentAmong all) = false) (rendered : List Rendered) :
    rs.filter Root.isComponent = [] ∧ showns all rendered fs rs = [] := by
  induction fs generalizing previous rs with
  | nil =>
    cases h
    exact ⟨rfl, rfl⟩
  | cons f fs ih =>
    rw [List.any_cons, Bool.or_eq_false_iff] at hnone
    rw [roles, if_neg (by simp [hnone.1])] at h
    cases h with
    | cons hr hmore =>
      obtain ⟨hfilter, hshown⟩ := ih hmore hnone.2
      have hnested := isComponent_of_nested (parse_readFrom hr).role
      refine ⟨?_, ?_⟩
      · rw [List.filter_cons_of_neg (by simp [hnested]), hfilter]
      · rw [showns, if_neg (by simp [hnone.1]), hshown]

/-- The components of a document print as the code between them and themselves in turn. -/
theorem Builds.print_components {previous : Nat} (h : Builds file fs (roles source all previous fs) rs)
    (hsome : fs.any (isComponentAmong all) = true) (rendered : List Rendered) :
    (rs.filter Root.isComponent).flatMap (Root.print rendered) =
      stitch source previous (showns all rendered fs rs) := by
  induction fs generalizing previous rs with
  | nil => simp at hsome
  | cons f fs ih =>
    rw [roles] at h
    split at h
    · rename_i hcomponent
      cases h with
      | @cons _ _ _ _ r rs hr hmore =>
        have hread := parse_readFrom hr
        have hprint := Root.print_complete hread.complete rendered
        have hbefore : r.codeBefore?.getD [] = (source.slice? previous f.rangeStart).getD [] := by
          unfold Root.codeBefore?
          rw [hread.role]
          rfl
        have hafter : r.codeAfter? = if fs.any (isComponentAmong all) then none
            else some ((source.suffix? f.rangeEnd).getD []) := by
          unfold Root.codeAfter?
          rw [hread.role]
        rw [List.filter_cons_of_pos (isComponent_of_component hread.role), List.flatMap_cons, showns,
          if_pos hcomponent, stitch, hprint, hbefore, hafter]
        cases hmany : fs.any (isComponentAmong all) with
        | true =>
          rw [ih hmore hmany]
          simp [shown]
        | false =>
          obtain ⟨hfilter, hshown⟩ := hmore.no_components hmany rendered
          rw [hfilter, hshown]
          simp [shown, stitch]
    · rename_i hnested
      rw [List.any_cons, Bool.or_eq_true] at hsome
      cases h with
      | @cons _ _ _ _ r rs hr hmore =>
        have hrole := isComponent_of_nested (parse_readFrom hr).role
        rw [List.filter_cons_of_neg (by simp [hrole]), showns, if_neg hnested]
        exact ih hmore (hsome.resolve_left hnested)

/-- A fragment and the root that it becomes in a document. -/
structure Becomes (file : Option String) (all : List Fragment) (f : Fragment) (r : Root) : Prop where
  parse : ∃ role, f.parse file role = .ok r
  component : r.isComponent = f.isComponentAmong all
  written : r.isComponent = false → r.written? = some f.text

theorem Builds.becomes {previous : Nat} (h : Builds file fs (roles source all previous fs) rs) :
    List.Forall₂ (Becomes file all) fs rs := by
  induction fs generalizing previous rs with
  | nil =>
    cases h
    exact .nil
  | cons f fs ih =>
    rw [roles] at h
    split at h
    · rename_i hcomponent
      cases h with
      | cons hr hmore =>
        have hone := isComponent_of_component (parse_readFrom hr).role
        exact .cons ⟨⟨_, hr⟩, by rw [hone, hcomponent], fun hnested => by simp [hone] at hnested⟩ (ih hmore)
    · rename_i hnested
      cases h with
      | cons hr hmore =>
        have hrole := (parse_readFrom hr).role
        refine .cons ⟨⟨_, hr⟩, ?_, fun _ => ?_⟩ (ih hmore)
        · rw [isComponent_of_nested hrole]
          simpa using hnested
        · unfold Root.written?
          rw [hrole]

theorem Becomes.readFrom {f : Fragment} {r : Root} (h : f.Becomes file all r) :
    ∃ role, r.ReadFrom (fun _ => True) ⟨f.text, f.location, file⟩ f.localHoles role :=
  let ⟨role, hrole⟩ := h.parse
  ⟨role, parse_readFrom hrole⟩

theorem mem_showns {R : Fragment → Root → Prop} {rendered : List Rendered} (h : List.Forall₂ R fs rs)
    {x : Rendered} (hx : x ∈ showns all rendered fs rs) :
    ∃ f ∈ fs, ∃ r ∈ rs, R f r ∧ f.isComponentAmong all = true ∧ x = shown rendered f r := by
  induction h with
  | nil => simp [showns] at hx
  | @cons f r fs rs hfr _ ih =>
    have hlater : x ∈ showns all rendered fs rs →
        ∃ g ∈ f :: fs, ∃ s ∈ r :: rs, R g s ∧ g.isComponentAmong all = true ∧ x = shown rendered g s := by
      intro hx
      obtain ⟨g, hg, s, hs, hrest⟩ := ih hx
      exact ⟨g, List.mem_cons_of_mem f hg, s, List.mem_cons_of_mem r hs, hrest⟩
    rw [showns] at hx
    split at hx
    · rename_i hcomponent
      rcases List.mem_cons.1 hx with rfl | hx
      · exact ⟨f, List.mem_cons_self, r, List.mem_cons_self, hfr, hcomponent, rfl⟩
      · exact hlater hx
    · exact hlater hx

theorem shown_mem_showns {R : Fragment → Root → Prop} (rendered : List Rendered) (h : List.Forall₂ R fs rs)
    (hf : f ∈ fs) (hcomponent : f.isComponentAmong all = true) :
    ∃ r, shown rendered f r ∈ showns all rendered fs rs := by
  induction h with
  | nil => simp at hf
  | @cons g r fs rs _ _ ih =>
    rw [showns]
    rcases List.mem_cons.1 hf with rfl | hf
    · rw [if_pos hcomponent]
      exact ⟨r, List.mem_cons_self⟩
    · obtain ⟨s, hs⟩ := ih hf
      refine ⟨s, ?_⟩
      split
      · exact List.mem_cons_of_mem _ hs
      · exact hs

theorem showns_inRow {previous : Nat} (rendered : List Rendered) (rs : List Root)
    (hrow : (fs.filter (isComponentAmong all)).Pairwise (·.rangeEnd ≤ ·.rangeStart))
    (hfirst : ∀ f ∈ fs, f.isComponentAmong all = true → previous ≤ f.rangeStart) :
    Rendered.InRow previous (showns all rendered fs rs) := by
  induction fs generalizing previous rs with
  | nil => exact trivial
  | cons f fs ih =>
    cases rs with
    | nil => exact trivial
    | cons r rs =>
      rw [showns]
      split
      · rename_i hcomponent
        rw [List.filter_cons_of_pos hcomponent, List.pairwise_cons] at hrow
        refine ⟨hfirst f List.mem_cons_self hcomponent, ih rs hrow.2 fun g hg hgc => ?_⟩
        exact hrow.1 g (List.mem_filter.2 ⟨hg, hgc⟩)
      · rename_i hnested
        rw [List.filter_cons_of_neg hnested] at hrow
        exact ih rs hrow fun g hg => hfirst g (List.mem_cons_of_mem f hg)

theorem pairwise_of_showns_inRow {R : Fragment → Root → Prop} {previous : Nat} {rendered : List Rendered}
    (h : List.Forall₂ R fs rs) (hle : ∀ f ∈ fs, f.rangeStart ≤ f.rangeEnd)
    (hrow : Rendered.InRow previous (showns all rendered fs rs)) :
    (fs.filter (isComponentAmong all)).Pairwise (·.rangeEnd ≤ ·.rangeStart) ∧
      ∀ f ∈ fs.filter (isComponentAmong all), previous ≤ f.rangeStart := by
  induction h generalizing previous with
  | nil => exact ⟨.nil, by simp⟩
  | @cons f r fs rs _ _ ih =>
    have hmore := @ih
    have hlef := hle f List.mem_cons_self
    have hlefs : ∀ g ∈ fs, g.rangeStart ≤ g.rangeEnd := fun g hg => hle g (List.mem_cons_of_mem f hg)
    rw [showns] at hrow
    split at hrow
    · rename_i hcomponent
      obtain ⟨hfirst, hrow⟩ := hrow
      obtain ⟨hpairwise, hbehind⟩ := hmore hlefs hrow
      rw [List.filter_cons_of_pos hcomponent]
      refine ⟨List.pairwise_cons.2 ⟨hbehind, hpairwise⟩, fun g hg => ?_⟩
      rcases List.mem_cons.1 hg with rfl | hg
      · exact hfirst
      · have hg' : f.rangeEnd ≤ g.rangeStart := hbehind g hg
        have hfirst' : previous ≤ f.rangeStart := hfirst
        omega
    · rename_i hnested
      rw [List.filter_cons_of_neg hnested]
      exact hmore hlefs hrow

/-! ## Consistent fragments -/

/-- Fragments that fit their source and each other: any two are disjoint or one is in a hole of the other,
and those on their own come in the order of the source. -/
structure Consistent (source : Text) (fs : List Fragment) : Prop where
  placed : ∀ f ∈ fs, f.Placed source
  disjoint : fs.Pairwise fun f g =>
    f.rangeEnd ≤ g.rangeStart ∨ g.rangeEnd ≤ f.rangeStart ∨ f.isNestedIn g = true ∨ g.isNestedIn f = true
  ordered : (fs.filter (isComponentAmong fs)).Pairwise fun f g => f.rangeStart < g.rangeStart

instance (source : Text) (fs : List Fragment) : Decidable (Consistent source fs) :=
  decidable_of_iff
    ((∀ f ∈ fs, f.Placed source) ∧
      (fs.Pairwise fun f g =>
        f.rangeEnd ≤ g.rangeStart ∨ g.rangeEnd ≤ f.rangeStart ∨ f.isNestedIn g = true ∨ g.isNestedIn f = true) ∧
      (fs.filter (isComponentAmong fs)).Pairwise fun f g => f.rangeStart < g.rangeStart)
    ⟨fun h => ⟨h.1, h.2.1, h.2.2⟩, fun h => ⟨h.placed, h.disjoint, h.ordered⟩⟩

theorem Consistent.components_inRow (h : Consistent source fs) :
    (fs.filter (isComponentAmong fs)).Pairwise (·.rangeEnd ≤ ·.rangeStart) := by
  refine ((h.disjoint.filter _).and h.ordered).imp_of_mem ?_
  rintro f g hf hg ⟨hapart, hlt⟩
  obtain ⟨hf, hfc⟩ := List.mem_filter.1 hf
  obtain ⟨hg, hgc⟩ := List.mem_filter.1 hg
  have hfsize := (h.placed f hf).size
  have hgsize := (h.placed g hg).size
  rcases hapart with hle | hle | hin | hin
  · exact hle
  · omega
  · rw [isComponentAmong_iff.1 hfc g hg] at hin
    cases hin
  · rw [isComponentAmong_iff.1 hgc f hf] at hin
    cases hin

end Fragment

/-! ## Documents -/

theorem Root.code_of_nested {r : Root} (hnested : r.isComponent = false) :
    r.codeBefore? = none ∧ r.codeAfter? = none := by
  unfold Root.isComponent at hnested
  unfold Root.codeBefore? Root.codeAfter?
  split at hnested
  · cases hnested
  · exact ⟨rfl, rfl⟩

theorem Root.print_nested {r : Root} (hcomplete : r.Complete) (hnested : r.isComponent = false)
    (rendered : List Rendered) : r.print rendered = Piece.prints rendered r.pieces := by
  obtain ⟨hbefore, hafter⟩ := Root.code_of_nested hnested
  rw [Root.print_complete hcomplete, hbefore, hafter]
  simp

namespace Document
variable {source : Text} {fs : List Fragment} {file : Option String} {d : Document}

/-- Where every root prints its own fragment's text, every nested root is rendered as it is written. -/
theorem rendered_of_css (hroots : List.Forall₂ (fun f r => f.Becomes file fs r ∧ r.css = f.text) fs d.roots) :
    ∀ x ∈ Rendered.ofRoots d.roots, x.content = x.written := by
  have hrenders : List.Forall₂ (Rendered.Renders fun r t => t = r.written?.getD []) (Rendered.inOrder d.roots)
      (Rendered.ofRoots d.roots) := by
    refine Rendered.ofRoots_renders fun earlier r later hsplit done hdone => ?_
    have hdone' : ∀ x ∈ done, x.content = x.written := by
      intro x hx
      obtain ⟨s, -, hs⟩ := forall₂_mem_right hdone hx
      rw [hs.content, hs.written]
    have hr : r ∈ Rendered.inOrder d.roots := by rw [hsplit]; simp
    obtain ⟨hr, hnested⟩ := Rendered.mem_inOrder.1 hr
    obtain ⟨f, -, hf, hcss⟩ := forall₂_mem_right hroots hr
    obtain ⟨role, hread⟩ := hf.readFrom
    rw [Root.print_nested hread.complete hnested, Piece.prints_of_unchanged hdone',
      ← Root.css_complete hread.complete, hcss, hf.written hnested, Option.getD_some]
  intro x hx
  obtain ⟨r, -, hr⟩ := forall₂_mem_right hrenders hx
  rw [hr.content, hr.written]

/-- A document with fragments is its source with the components in their places. -/
theorem print_eq_stitch (hplaced : ∀ f ∈ fs, f.Placed source) (hd : Document.assemble source fs file = .ok d)
    (hne : fs ≠ []) :
    d.print = stitch source 0 (Fragment.showns fs (Rendered.ofRoots d.roots) fs d.roots) := by
  obtain ⟨-, hbuilds⟩ := assemble_builds hd
  have hne' : d.roots ≠ [] := by
    intro hnil
    have hbecomes := hbuilds.becomes
    rw [hnil, List.forall₂_nil_right_iff] at hbecomes
    exact hne hbecomes
  have hsome : fs.any (Fragment.isComponentAmong fs) = true :=
    List.any_eq_true.2 (Fragment.exists_component hplaced hne)
  unfold Document.print
  rw [if_neg (by simpa using hne'), Document.components, hbuilds.print_components hsome]

theorem print_of_no_fragments (hd : Document.assemble source [] file = .ok d) : d.print = source := by
  obtain rfl := Except.ok.inj hd
  rfl

/-- A document has a root for each fragment. Those of fragments in no other are its components, the others
keep what is written in their places, and if each root alone prints its fragment, the document prints its
source. -/
theorem assemble_spec (hconsistent : Fragment.Consistent source fs)
    (hd : Document.assemble source fs file = .ok d) (hcss : d.roots.map Root.css = fs.map Fragment.text) :
    (fs ≠ [] → d.components ≠ []) ∧
    List.Forall₂ (fun f r =>
      (r.isComponent = true ↔ ∀ g ∈ fs, g ≠ f → f.isNestedIn g = false) ∧
      (r.isComponent = false → r.written? = some f.text)) fs d.roots ∧
    d.print = source := by
  obtain ⟨hsource, hbuilds⟩ := assemble_builds hd
  have hbecomes := hbuilds.becomes
  have htexts : List.Forall₂ (fun f r => r.css = Fragment.text f) fs d.roots := forall₂_of_map_eq hcss
  have hroots : List.Forall₂ (fun f r => Fragment.Becomes file fs f r ∧ r.css = f.text) fs d.roots :=
    List.Forall₂.mp (fun _ _ h h' => ⟨h, h'⟩) hbecomes htexts
  refine ⟨fun hne => ?_, ?_, ?_⟩
  · obtain ⟨f, hf, hcomponent⟩ := Fragment.exists_component hconsistent.placed hne
    obtain ⟨r, hr, hfr⟩ := forall₂_mem_left hbecomes hf
    refine List.ne_nil_of_mem (List.mem_filter.2 ⟨hr, ?_⟩)
    rw [hfr.component, hcomponent]
  · refine forall₂_imp_of_mem hbecomes fun f hf r _ hfr => ⟨?_, hfr.written⟩
    rw [hfr.component, Fragment.isComponentAmong_iff]
    refine ⟨fun hnone g hg _ => hnone g hg, fun hnone g hg => ?_⟩
    by_cases hself : g = f
    · subst hself
      exact (hconsistent.placed g hg).not_nested_self
    · exact hnone g hg hself
  · have hunchanged := rendered_of_css hroots
    by_cases hne : fs = []
    · subst hne
      exact print_of_no_fragments hd
    · rw [print_eq_stitch hconsistent.placed hd hne]
      have hrow := Fragment.showns_inRow (Rendered.ofRoots d.roots) d.roots hconsistent.components_inRow
        fun f _ _ => Nat.zero_le f.rangeStart
      have hmem := fun x => @Fragment.mem_showns fs fs d.roots _ (Rendered.ofRoots d.roots) hroots x
      refine (@stitch_fills source [] source _ hrow ?_ rfl).eq_of_unchanged ?_
      · intro x hx
        obtain ⟨f, hf, r, -, -, -, rfl⟩ := hmem x hx
        exact (hconsistent.placed f hf).text
      · intro x hx
        obtain ⟨f, -, r, -, ⟨hfr, hcss⟩, -, rfl⟩ := hmem x hx
        obtain ⟨role, hread⟩ := hfr.readFrom
        show Piece.prints (Rendered.ofRoots d.roots) r.pieces = f.text
        rw [Piece.prints_of_unchanged hunchanged, ← Root.css_complete hread.complete, hcss]

/-- A fragment in a hole of another may stand in front of it in the list. -/
theorem assemble_spec_inner_first :
    ∃ d, Document.assemble "css\x60$\x7bcss\x60a:b\x60\x7d c:d\x60".toList
        [⟨"a:b".toList, 10, 13, [], ⟨10, 1, 11⟩⟩,
          ⟨"$\x7bcss\x60a:b\x60\x7d c:d".toList, 4, 19, [⟨4, 15⟩], ⟨4, 1, 5⟩⟩] none = .ok d ∧
      d.components ≠ [] ∧ d.print = "css\x60$\x7bcss\x60a:b\x60\x7d c:d\x60".toList := by
  have hroots : (Document.assemble "css\x60$\x7bcss\x60a:b\x60\x7d c:d\x60".toList
      [⟨"a:b".toList, 10, 13, [], ⟨10, 1, 11⟩⟩,
        ⟨"$\x7bcss\x60a:b\x60\x7d c:d".toList, 4, 19, [⟨4, 15⟩], ⟨4, 1, 5⟩⟩] none).map (·.roots.map Root.css) =
      .ok ["a:b".toList, "$\x7bcss\x60a:b\x60\x7d c:d".toList] := by decide +kernel
  obtain ⟨d, hd, hcss⟩ := map_eq_ok.1 hroots
  obtain ⟨hsome, -, hprint⟩ := assemble_spec (by decide +kernel) hd hcss
  exact ⟨d, hd, hsome (by simp), hprint⟩

end Document
end TaggedStyles
