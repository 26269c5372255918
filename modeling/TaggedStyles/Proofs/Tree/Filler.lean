import Mathlib.Data.List.Forall2
import Mathlib.Data.List.Induction
import TaggedStyles.Proofs.Tree.Parser

/-! Style texts of filler. Spaces, semicolons, comments and holes on their own are never refused and become no more than
comments with raws around them; any other token ends up in a declaration, a rule or an at-rule, or is an error. So a
parsed tree has nothing but comments in it exactly if the text has nothing but filler. -/
namespace TaggedStyles
set_option autoImplicit false

/-! ## Filler -/

/-- What may stand around nodes: a space, a semicolon, a comment or a hole. -/
def Token.isFiller (holes : List Hole) (t : Token) : Bool :=
  t.kind = .space || t.kind = .semicolon || t.kind = .comment || t.isHole holes

theorem Token.kind_of_isHole {holes : List Hole} {t : Token} (h : t.isHole holes = true) : t.kind = .word := by
  rw [isHole, Bool.and_eq_true, decide_eq_true_eq] at h
  exact h.1

theorem Token.kind_of_isFiller {holes : List Hole} {t : Token} (h : t.isFiller holes = true) :
    t.kind ∈ [Token.Kind.space, .semicolon, .comment, .word] := by
  simp only [isFiller, Bool.or_eq_true, decide_eq_true_eq] at h
  obtain ((hk | hk) | hk) | hhole := h
  · simp [hk]
  · simp [hk]
  · simp [hk]
  · simp [kind_of_isHole hhole]

/-- A run of filler ends behind its first semicolon or with the text; nothing in it opens a bracket or is a colon. -/
theorem Run.collect_filler {holes : List Hole} (custom : Bool) {ts : List Token}
    (hts : ∀ t ∈ ts, t.isFiller holes = true) :
    (collect custom false [] none ts).colon = false ∧ (collect custom false [] none ts).opener = none ∧
      ((collect custom false [] none ts).ending = .semicolon ∨ (collect custom false [] none ts).ending = .exhausted) := by
  induction ts with
  | nil => exact ⟨rfl, rfl, .inr rfl⟩
  | cons t ts ih =>
    have hkind := Token.kind_of_isFiller (hts t List.mem_cons_self)
    specialize ih fun u hu => hts u (List.mem_cons_of_mem t hu)
    simp only [List.mem_cons, List.not_mem_nil, or_false] at hkind
    obtain hk | hk | hk | hk := hkind
    · simpa only [collect, hk, Token.Kind.closer?, Found.cons] using ih
    · simp [collect, hk, Token.Kind.closer?]
    · simpa only [collect, hk, Token.Kind.closer?, Found.cons] using ih
    · simpa only [collect, hk, Token.Kind.closer?, Found.cons] using ih

theorem AtRuleRun.Splits.exists_front {run : AtRuleRun} {ts : List Token} (h : run.Splits ts) :
    ∃ vs, ts = vs ++ run.rest := by
  obtain ⟨ps, ending, unread⟩ := run
  cases ending with
  | semicolon =>
    obtain ⟨s, us, rfl, -, rfl⟩ := h
    exact ⟨ps ++ [s], by simp [rest]⟩
  | block =>
    obtain ⟨s, -, rfl⟩ := h
    exact ⟨ps ++ [s], by simp [rest]⟩
  | boundary s => exact ⟨ps ++ [s], by simpa [rest] using h.2⟩
  | exhausted =>
    obtain ⟨rfl, rfl⟩ := h
    exact ⟨ts, (List.append_nil ts).symm⟩

namespace Builder
variable {b b' b₁ : Builder} {t : Token} {ts us vs rest : List Token} {fault : Option Fault}

/-! ## What is more than filler -/

/-- A block is open, or there is a child that is no comment. -/
def Solid (b : Builder) : Prop := b.frames ≠ [] ∨ b.nodes.any Node.isSolid = true

theorem solid_mapNodes {f : List Node → List Node} (hf : b.frames = [] → (f b.nodes).any Node.isSolid = true) :
    (b.mapNodes f).Solid := by
  unfold mapNodes
  split
  · exact .inr (hf ‹_›)
  · exact .inl (List.cons_ne_nil _ _)

theorem solid_add {n : Node} (hn : n.isSolid = true) : (b.add n).Solid :=
  solid_mapNodes fun _ => by simp [hn]

theorem Solid.add (h : b.Solid) (n : Node) : (b.add n).Solid := by
  refine solid_mapNodes fun hframes => ?_
  have hany := h.resolve_left (not_not_intro hframes)
  rw [List.any_append, hany, Bool.true_or]

theorem solid_openBlock (f : Frame) : (b.openBlock f).Solid := .inl (List.cons_ne_nil _ _)

/-- Reading some tokens keeps the holes, and leaves something solid if there was something before or if not all of the
tokens are filler. -/
structure Weighs (b : Builder) (us : List Token) (b' : Builder) : Prop where
  holes : b'.holes = b.holes
  solid : b.Solid ∨ (∃ u ∈ us, u.isFiller b.holes = false) → b'.Solid

namespace Weighs

theorem of_solid (hholes : b'.holes = b.holes) (hsolid : b'.Solid) (us : List Token) : b.Weighs us b' :=
  ⟨hholes, fun _ => hsolid⟩

theorem of_filler (hholes : b'.holes = b.holes) (hkeep : b.Solid → b'.Solid)
    (hus : ∀ u ∈ us, u.isFiller b.holes = true) : b.Weighs us b' := by
  refine ⟨hholes, fun h => ?_⟩
  rcases h with h | ⟨u, hu, hfiller⟩
  · exact hkeep h
  · rw [hus u hu] at hfiller
    cases hfiller

theorem of_add {n : Node} (hholes : b₁.holes = b.holes) (hn : n.isSolid = true) (us : List Token) :
    b.Weighs us (b₁.add n) :=
  of_solid ((mapNodes_holes _ _).trans hholes) (solid_add hn) us

theorem refl (b : Builder) : b.Weighs [] b := of_filler rfl id (by simp)

theorem trans (h : b.Weighs us b₁) (h' : b₁.Weighs vs b') : b.Weighs (us ++ vs) b' := by
  refine ⟨h'.holes.trans h.holes, fun hsolid => h'.solid ?_⟩
  rcases hsolid with hsolid | ⟨u, hu, hfiller⟩
  · exact .inl (h.solid (.inl hsolid))
  · rcases List.mem_append.1 hu with hu | hu
    · exact .inl (h.solid (.inr ⟨u, hu, hfiller⟩))
    · exact .inr ⟨u, hu, by rwa [h.holes]⟩

theorem wait (hfiller : t.isFiller b.holes = true) : b.Weighs [t] (b.wait t.text) :=
  of_filler rfl id (by simpa using hfiller)

theorem comment (hk : t.kind = .comment) : b.Weighs [t] (b.comment t) :=
  of_filler (mapNodes_holes _ _) (fun h => Solid.add (b := { b with pending := [] }) h _)
    (by simp [Token.isFiller, hk])

theorem freeSemicolon (hk : t.kind = .semicolon) : b.Weighs [t] (b.freeSemicolon t) := by
  have hfiller : t.isFiller b.holes = true := by simp [Token.isFiller, hk]
  unfold Builder.freeSemicolon
  split
  · split
    · exact wait hfiller
    · refine of_solid ?_ ?_ _
      · exact mapNodes_holes _ _
      · refine solid_mapNodes fun _ => ?_
        exact List.any_eq_true.2 ⟨_, List.mem_append_right _ List.mem_cons_self, rfl⟩
  · exact wait hfiller

theorem close (us : List Token) (hb : b.close t = .ok b') : b.Weighs us b' := by
  unfold Builder.close at hb
  split at hb
  · cases hb
  · obtain rfl := Except.ok.inj hb
    refine of_add ?_ ?_ us
    · rfl
    · rfl

theorem declare {run : List Token} {custom : Bool} {reached : Nat} (us : List Token) (hne : run ≠ [])
    (hb : b.declare run custom reached = .ok b') : b.Weighs us b' := by
  have hlast := List.getLast?_eq_some_getLast hne
  unfold Builder.declare at hb
  rw [hlast] at hb
  simp only at hb
  obtain ⟨_, -, hb⟩ := bind_eq_ok.1 hb
  obtain ⟨_, -, hb⟩ := bind_eq_ok.1 hb
  obtain rfl := eq_of_guard hb
  refine of_add ?_ ?_ us
  · rfl
  · rfl

theorem fill (hb : b.fill ts = .ok b') : b.Weighs ts b' := by
  induction ts generalizing b with
  | nil =>
    obtain rfl := Except.ok.inj hb
    exact refl b
  | cons t ts ih =>
    rw [Builder.fill] at hb
    split at hb
    · rename_i hk
      have hfiller : t.isFiller b.holes = true := by
        simp only [Bool.or_eq_true] at hk
        simp only [Token.isFiller, Bool.or_eq_true]
        tauto
      exact (wait hfiller).trans (ih hb)
    · split at hb
      · exact (comment ‹_›).trans (ih hb)
      · cases hb

theorem atRule (hb : b.atRule fault t ts = .ok (b', rest)) :
    ∃ us, t :: ts = us ++ rest ∧ us ≠ [] ∧ b.Weighs us b' := by
  obtain ⟨vs, hvs⟩ := (collectParams_splits [] ts).exists_front
  unfold Builder.atRule at hb
  generalize collectParams [] ts = run at hb hvs
  obtain ⟨ps, ending, unread⟩ := run
  have hsplit : t :: ts = (t :: vs) ++ AtRuleRun.rest ⟨ps, ending, unread⟩ := congrArg (List.cons t) hvs
  simp only at hb
  split at hb
  · cases hb
  · refine ⟨t :: vs, ?_⟩
    cases ending with
    | semicolon =>
      obtain ⟨rfl, rfl⟩ := Prod.mk.inj (Except.ok.inj hb)
      refine ⟨hsplit, List.cons_ne_nil _ _, of_add ?_ ?_ _⟩
      · rfl
      · rfl
    | block =>
      obtain ⟨rfl, rfl⟩ := Prod.mk.inj (Except.ok.inj hb)
      refine ⟨hsplit, List.cons_ne_nil _ _, of_solid ?_ (solid_openBlock _) _⟩
      rfl
    | boundary closing =>
      obtain ⟨built, hclose, hb⟩ := bind_eq_ok.1 hb
      obtain ⟨rfl, rfl⟩ := Prod.mk.inj (Except.ok.inj hb)
      refine ⟨hsplit, List.cons_ne_nil _ _, ?_⟩
      rw [← List.nil_append (t :: vs)]
      refine trans (of_add ?_ ?_ []) (close _ hclose)
      · rfl
      · rfl
    | exhausted =>
      simp only [if_true] at hb
      split at hb
      · cases hb
      · obtain ⟨rfl, rfl⟩ := Prod.mk.inj (Except.ok.inj hb)
        refine ⟨hsplit, List.cons_ne_nil _ _, of_add ?_ ?_ _⟩
        · rfl
        · rfl

theorem run (hkind : t.StartsRun) (hb : b.run fault t ts = .ok (b', rest)) :
    ∃ us, t :: ts = us ++ rest ∧ us ≠ [] ∧ b.Weighs us b' := by
  have hfound := Run.collects t.isCustom false [] none (t :: ts)
  obtain ⟨-, hrest, hdone⟩ := run_spec rfl hb
  generalize Run.collect t.isCustom false [] none (t :: ts) = found at hfound hrest hdone
  have happ := hfound.append
  have hcolon := hfound.mem_of_colon
  obtain ⟨us, hus⟩ := hfound.head (by simp_all [Token.StartsRun])
  obtain ⟨tokens, colon, opener, ending, unread⟩ := found
  simp only at happ hcolon hus hdone
  have hne : tokens ≠ [] := by
    rw [hus]
    exact List.cons_ne_nil t us
  -- What is left behind a declaration without a semicolon are spaces and comments, so not all of it is left.
  have hdeclare : colon = true →
      (∃ reached, b.declare (if t.isCustom then tokens else (Run.splitEnd Token.isTrivia tokens).1) t.isCustom reached =
        .ok b') →
      rest = (if t.isCustom then unread else (Run.splitEnd Token.isTrivia tokens).2 ++ unread) →
      ∃ us, t :: ts = us ++ rest ∧ us ≠ [] ∧ b.Weighs us b' := by
    rintro hc ⟨reached, hdeclared⟩ rfl
    obtain ⟨c, hmem, hk⟩ := (hcolon hc).resolve_left Bool.false_ne_true
    have hsplit := Run.splitEnd_append Token.isTrivia tokens
    cases hcustom : t.isCustom with
    | true =>
      rw [hcustom, if_pos rfl] at hdeclared
      exact ⟨tokens, happ.symm, hne, declare tokens hne hdeclared⟩
    | false =>
      rw [hcustom, if_neg Bool.false_ne_true] at hdeclared
      have hkept : (Run.splitEnd Token.isTrivia tokens).1 ≠ [] := by
        intro hnil
        rw [hnil, List.nil_append] at hsplit
        rw [← hsplit] at hmem
        have htrivia := Run.of_mem_splitEnd hmem
        simp [Token.isTrivia, hk] at htrivia
      refine ⟨_, ?_, hkept, declare _ hkept hdeclared⟩
      rw [if_neg Bool.false_ne_true, ← List.append_assoc, hsplit, happ]
  cases ending <;> cases colon
  case block.false | block.true =>
    refine ⟨tokens, by rw [hrest]; exact happ.symm, hne, ?_⟩
    rw [hdone]
    refine of_solid ?_ (solid_openBlock _) tokens
    rfl
  case semicolon.false | boundary.false | exhausted.false =>
    exact ⟨tokens, by rw [hrest]; exact happ.symm, hne, fill hdone⟩
  case semicolon.true =>
    obtain ⟨reached, hdone⟩ := hdone
    exact ⟨tokens, by rw [hrest]; exact happ.symm, hne, declare tokens hne hdone⟩
  case boundary.true | exhausted.true => exact hdeclare rfl hdone hrest

theorem step (hb : b.step fault t ts = .ok (b', rest)) :
    ∃ us, t :: ts = us ++ rest ∧ us ≠ [] ∧ b.Weighs us b' := by
  have hone : [t] ≠ [] := List.cons_ne_nil t []
  unfold Builder.step at hb
  split at hb
  · rename_i hk
    obtain ⟨rfl, rfl⟩ := Prod.mk.inj (Except.ok.inj hb)
    exact ⟨[t], rfl, hone, wait (by simp [Token.isFiller, hk])⟩
  · obtain ⟨rfl, rfl⟩ := Prod.mk.inj (Except.ok.inj hb)
    exact ⟨[t], rfl, hone, freeSemicolon ‹_›⟩
  · obtain ⟨built, hclose, he⟩ := map_eq_ok.1 hb
    obtain ⟨rfl, rfl⟩ := Prod.mk.inj he
    exact ⟨[t], rfl, hone, close [t] hclose⟩
  · obtain ⟨rfl, rfl⟩ := Prod.mk.inj (Except.ok.inj hb)
    exact ⟨[t], rfl, hone, comment ‹_›⟩
  · exact atRule hb
  · obtain ⟨rfl, rfl⟩ := Prod.mk.inj (Except.ok.inj hb)
    refine ⟨[t], rfl, hone, of_solid ?_ (solid_openBlock _) [t]⟩
    rfl
  · exact run (by simp_all [Token.StartsRun]) hb

theorem steps {n : Nat} (hn : ts.length ≤ n) (hb : steps fault n b ts = .ok b') : fault = none ∧ b.Weighs ts b' := by
  induction n generalizing b ts with
  | zero =>
    obtain rfl := List.eq_nil_of_length_eq_zero (Nat.le_zero.1 hn)
    obtain ⟨hfault, rfl⟩ := steps_nil hb
    exact ⟨hfault, refl b⟩
  | succ n ih =>
    cases ts with
    | nil =>
      obtain ⟨hfault, rfl⟩ := steps_nil hb
      exact ⟨hfault, refl b⟩
    | cons t ts =>
      obtain ⟨⟨b₁, rest⟩, hstep, hb⟩ := bind_eq_ok.1 hb
      obtain ⟨us, hus, hne, hweighs⟩ := step hstep
      have hlength := congrArg List.length hus
      have hpos := List.length_pos_of_ne_nil hne
      rw [List.length_append] at hlength
      obtain ⟨hfault, hmore⟩ := ih (by omega) hb
      rw [hus]
      exact ⟨hfault, hweighs.trans hmore⟩

end Weighs

/-! ## What filler becomes -/

/-- A comment becomes a node, and all other filler waits. -/
def pass (b : Builder) (t : Token) : Builder := if t.kind = .comment then b.comment t else b.wait t.text

theorem pass_holes (b : Builder) (t : Token) : (b.pass t).holes = b.holes := by
  unfold pass
  split
  · exact mapNodes_holes _ _
  · rfl

theorem foldl_pass_holes (b : Builder) (ts : List Token) : (ts.foldl pass b).holes = b.holes := by
  induction ts generalizing b with
  | nil => rfl
  | cons t ts ih => rw [List.foldl_cons, ih, pass_holes]

theorem fill_filler (hts : ∀ t ∈ ts, t.isFiller b.holes = true) : b.fill ts = .ok (ts.foldl pass b) := by
  induction ts generalizing b with
  | nil => rfl
  | cons t ts ih =>
    have hmore := ih (b := b.pass t) fun u hu => by rw [pass_holes]; exact hts u (List.mem_cons_of_mem t hu)
    have hfiller := hts t List.mem_cons_self
    rw [Builder.fill, List.foldl_cons, ← hmore]
    by_cases hk : t.kind = .comment
    · have hhole : t.isHole b.holes = false := by
        rw [Token.isHole, hk]
        rfl
      have hpass : b.pass t = b.comment t := if_pos hk
      rw [if_neg (by simp [hk, hhole]), if_pos hk, hpass]
    · have hpass : b.pass t = b.wait t.text := if_neg hk
      rw [if_pos (by simpa [Token.isFiller, hk] using hfiller), hpass]

theorem freeSemicolon_of_not_solid (hb : ¬ b.Solid) (t : Token) : b.freeSemicolon t = b.wait t.text := by
  rw [Solid, not_or, Classical.not_not, Bool.not_eq_true] at hb
  obtain ⟨hframes, hnodes⟩ := hb
  unfold freeSemicolon
  split
  · rename_i selector nodes raws source hlast
    rw [lastNode?, hframes] at hlast
    have hsolid := List.any_eq_false.1 hnodes _ (List.mem_of_getLast? hlast)
    exact absurd rfl hsolid
  · rfl

theorem step_filler (hb : ¬ b.Solid) (hts : ∀ u ∈ t :: ts, u.isFiller b.holes = true) :
    ∃ us rest, t :: ts = t :: us ++ rest ∧ b.step none t ts = .ok ((t :: us).foldl pass b, rest) := by
  have hkind := Token.kind_of_isFiller (hts t List.mem_cons_self)
  simp only [List.mem_cons, List.not_mem_nil, or_false] at hkind
  obtain hk | hk | hk | hk := hkind
  · refine ⟨[], ts, rfl, ?_⟩
    simp [step, hk, pass]
  · refine ⟨[], ts, rfl, ?_⟩
    simp [step, hk, pass, freeSemicolon_of_not_solid hb]
  · refine ⟨[], ts, rfl, ?_⟩
    simp [step, hk, pass]
  · have hfound := Run.collects t.isCustom false [] none (t :: ts)
    obtain ⟨hcolon, hopener, hending⟩ := Run.collect_filler t.isCustom hts
    have hcustom : ['-', '-'].isPrefixOf t.text = t.isCustom := rfl
    have hstep : b.step none t ts = b.run none t ts := by simp [step, hk]
    rw [hstep]
    unfold Builder.run
    simp only [hcustom]
    generalize Run.collect t.isCustom false [] none (t :: ts) = found at hfound hcolon hopener hending
    have happ := hfound.append
    obtain ⟨us, hus⟩ := hfound.head (by simp [hk])
    obtain ⟨tokens, colon, opener, ending, unread⟩ := found
    simp only at hcolon hopener hending happ hus
    subst hcolon hopener hus
    have hfill : b.fill (t :: us) = .ok ((t :: us).foldl pass b) :=
      fill_filler fun u hu => hts u (happ ▸ List.mem_append_left _ hu)
    refine ⟨us, unread, happ.symm, ?_⟩
    rcases hending with rfl | rfl
    · simp only [hfill]
      rfl
    · simp only [hfill]
      rfl

end Builder

/-! ## Comments alone -/

/-- A comment that starts where a token does and is printed as it. -/
def Node.IsCommentOf (e : Excerpt) (n : Node) (t : Token) : Prop :=
  n.isComment = true ∧ n.css = t.text ∧ n.source.map (·.start) = t.start.map e.position

/-- The end of some tokens behind the last comment, or all of them, as text. -/
def Token.BehindComments (ts : List Token) (text : Text) : Prop :=
  ∃ front behind, ts = front ++ behind ∧ (∀ t ∈ front.getLast?, t.kind = .comment) ∧
    (∀ t ∈ behind, t.kind ≠ .comment) ∧ text = Token.joined behind

theorem Token.BehindComments.all {ts : List Token} {text : Text} (h : BehindComments ts text)
    (hts : ∀ t ∈ ts, t.kind ≠ .comment) : text = Token.joined ts := by
  obtain ⟨front, behind, rfl, hlast, -, rfl⟩ := h
  rcases List.eq_nil_or_concat front with rfl | ⟨init, t, rfl⟩
  · rfl
  · rw [List.concat_eq_append] at hlast hts
    have ht : t.kind = .comment := hlast t (by rw [List.getLast?_concat]; rfl)
    exact absurd ht (hts t (by simp))

namespace Builder
variable {cut : Nat → Prop} {e : Excerpt} {b : Builder} {t : Token} {ts us : List Token} {i : Nat}

/-- What a builder has become from filler. -/
structure Filled (e : Excerpt) (ts : List Token) (b : Builder) : Prop where
  excerpt : b.excerpt = e
  frames : b.frames = []
  semicolon : b.semicolon = false
  nodes : List.Forall₂ (Node.IsCommentOf e) b.nodes (ts.filter (·.kind = .comment))
  pending : Token.BehindComments ts b.pending

namespace Filled

theorem not_solid (h : b.Filled e ts) : ¬ b.Solid := by
  rintro (hframes | hnodes)
  · exact hframes h.frames
  · obtain ⟨n, hn, hsolid⟩ := List.any_eq_true.1 hnodes
    have hcomment := ((List.forall₂_and_left _ _).1 h.nodes).1 n hn
    rw [Node.isSolid, hcomment] at hsolid
    cases hsolid

theorem pass (h : b.Filled e ts) (ht : t.Fits cut i) : (b.pass t).Filled e (ts ++ [t]) := by
  obtain ⟨hexcerpt, hframes, hsemicolon, hnodes, hpending⟩ := h
  unfold Builder.pass
  split
  · rename_i hk
    obtain ⟨raws, source, text, he, hsource, hcomplete, -, -, htext⟩ := comment_spec ht hk b
    have hstart : t.start = some i := by rw [ht.start, hk, if_neg (by decide)]
    have hcss : Node.css (.leaf (.comment text) raws source) = t.text := by
      rw [Node.css_complete hcomplete, ← htext]
      simp [Node.pieces, Leaf.isSolid, Piece.text]
    have hadd : b.comment t = { b with pending := [], nodes := b.nodes ++ [.leaf (.comment text) raws source] } := by
      rw [he, add, mapNodes]
      simp only [hframes]
    rw [hadd]
    refine ⟨hexcerpt, hframes, hsemicolon, ?_, ts ++ [t], [], (List.append_nil _).symm, ?_, by simp, rfl⟩
    · rw [List.filter_append, List.filter_cons_of_pos (by simpa using hk), List.filter_nil]
      refine List.rel_append hnodes (.cons ⟨rfl, hcss, ?_⟩ .nil)
      rw [Node.source, hsource, hstart, ← hexcerpt]
      rfl
    · intro u hu
      rw [List.getLast?_concat, Option.mem_some_iff] at hu
      rwa [← hu]
  · rename_i hk
    obtain ⟨front, behind, rfl, hlast, hbehind, hjoined⟩ := hpending
    refine ⟨hexcerpt, hframes, hsemicolon, ?_, front, behind ++ [t], List.append_assoc .., hlast, ?_, ?_⟩
    · rw [List.filter_append (front ++ behind), List.filter_cons_of_neg (by simpa using hk), List.filter_nil,
        List.append_nil]
      exact hnodes
    · intro u hu
      rcases List.mem_append.1 hu with hu | hu
      · exact hbehind u hu
      · rwa [List.mem_singleton.1 hu]
    · rw [Token.joined_append, ← hjoined]
      simp [wait, Token.joined]

theorem foldl (h : b.Filled e us) (hts : Tiled cut i ts) : (ts.foldl Builder.pass b).Filled e (us ++ ts) := by
  induction ts generalizing b us i with
  | nil => simpa using h
  | cons t ts ih =>
    have hmore := ih (h.pass hts.fits) hts.tail
    rwa [List.append_assoc] at hmore

theorem steps {n : Nat} (h : b.Filled e us) (htiled : Tiled cut i ts) (hn : ts.length ≤ n)
    (hts : ∀ t ∈ ts, t.isFiller b.holes = true) : Builder.steps none n b ts = .ok (ts.foldl Builder.pass b) := by
  induction n generalizing b us ts i with
  | zero =>
    obtain rfl := List.eq_nil_of_length_eq_zero (Nat.le_zero.1 hn)
    rfl
  | succ n ih =>
    cases ts with
    | nil => rfl
    | cons t ts =>
      obtain ⟨vs, rest, hsplit, hstep⟩ := step_filler h.not_solid hts
      rw [hsplit] at htiled
      have hlength := congrArg List.length hsplit
      simp only [List.length_append, List.length_cons] at hlength hn
      have hmore := ih (h.foldl htiled.left) htiled.right (by omega) fun u hu => by
        rw [foldl_pass_holes]
        exact hts u (hsplit ▸ List.mem_append_right _ hu)
      rw [Builder.steps, hstep]
      show Builder.steps none n ((t :: vs).foldl Builder.pass b) rest = _
      rw [hmore, hsplit, List.foldl_append]

end Filled
end Builder

/-! ## Style texts of filler -/

/-- A style text is read to its end, and all of it is filler. -/
def Excerpt.IsFiller (e : Excerpt) (holes : List Hole) : Prop :=
  (Reader.start e holes).drain.2.1 = none ∧
    ∀ t ∈ (Reader.start e holes).drain.1, t.isFiller (Reader.start e holes).holes = true

instance (e : Excerpt) (holes : List Hole) : Decidable (e.IsFiller holes) :=
  inferInstanceAs (Decidable (_ ∧ _))

namespace Root
variable {e : Excerpt} {holes : List Hole} {role : Role} {r : Root}

/-- What a root is if its text is filler: the comments, one behind the other, and the rest of the text. -/
structure OfFiller (e : Excerpt) (ts : List Token) (r : Root) : Prop where
  text : e.text = Token.joined ts
  nodes : List.Forall₂ (Node.IsCommentOf e) r.nodes (ts.filter (·.kind = .comment))
  after : Token.BehindComments ts r.after
  all : (∀ t ∈ ts, t.kind ≠ .comment) → r.after = e.text
  semicolon : r.semicolon = if r.nodes.isEmpty then none else some false

theorem comments_iff {nodes : List Node} (depth index : Nat) :
    (∀ x ∈ preorder depth index nodes, x.node.isComment = true) ↔ nodes.any Node.isSolid = false := by
  induction nodes generalizing index with
  | nil => simp [preorder]
  | cons n ns ih =>
    rw [preorder, List.forall_mem_append, ih, List.any_cons, Bool.or_eq_false_iff, Node.isSolid, Bool.not_eq_false']
    refine and_congr_left fun _ => ?_
    cases n with
    | leaf content raws source => rw [Node.preorder, List.forall_mem_singleton]
    | block header ns raws source =>
      rw [Node.preorder, List.forall_mem_cons]
      exact ⟨fun h => h.1, fun h => absurd h Bool.false_ne_true⟩

theorem isFiller_of_comments (h : Root.parse e holes role = .ok r) (hr : r.nodes.any Node.isSolid = false) :
    e.IsFiller holes := by
  unfold Root.parse at h
  unfold Excerpt.IsFiller
  rcases hdrain : (Reader.start e holes).drain with ⟨tokens, fault, last⟩
  simp only [hdrain] at h ⊢
  obtain ⟨built, hsteps, hfinish⟩ := bind_eq_ok.1 h
  obtain ⟨hfault, -, hsolid⟩ := Builder.Weighs.steps (Nat.le_refl _) hsteps
  refine ⟨hfault, fun t ht => ?_⟩
  by_contra hfiller
  unfold Builder.finish at hfinish
  rcases hsolid (.inr ⟨t, ht, Bool.not_eq_true _ ▸ hfiller⟩) with hframes | hnodes
  · split at hfinish
    · cases hfinish
    · exact hframes ‹_›
  · split at hfinish
    · cases hfinish
    · obtain rfl := Except.ok.inj hfinish
      rw [hnodes] at hr
      cases hr

theorem exists_parse_filler (role : Role) (h : e.IsFiller holes) :
    ∃ r, Root.parse e holes role = .ok r ∧ r.OfFiller e (Reader.start e holes).drain.1 := by
  obtain ⟨htiled, rest, htext, hall⟩ := Reader.drain_tiled (Cuts.trivial e.text (holes.filter (Hole.fits e.text.size)))
  obtain ⟨hfault, htokens⟩ := h
  unfold Root.parse
  rw [hall hfault, List.append_nil] at htext
  rcases hdrain : (Reader.start e holes).drain with ⟨tokens, fault, last⟩
  simp only [hdrain] at htiled htext htokens hfault ⊢
  subst hfault
  have hstart : Builder.Filled e [] { excerpt := e, holes := (Reader.start e holes).holes } :=
    ⟨rfl, rfl, rfl, .nil, [], [], rfl, by simp, by simp, rfl⟩
  have hsteps := hstart.steps htiled (Nat.le_refl _) htokens
  obtain ⟨hexcerpt, hframes, hsemicolon, hnodes, hpending⟩ := hstart.foldl htiled
  unfold Builder.parse
  rw [hsteps]
  generalize tokens.foldl Builder.pass _ = built at hexcerpt hframes hsemicolon hnodes hpending ⊢
  simp only [bind, Except.bind, Builder.finish, hframes]
  exact ⟨_, rfl, htext, hnodes, hpending, fun hnone => (hpending.all hnone).trans htext.symm, by rw [hsemicolon]⟩

/-- A parsed root has no declaration, rule or at-rule in it exactly if its text is spaces, semicolons, comments and holes
alone. Any such text is parsed: the nodes are its comments, and what stands behind them is kept. -/
theorem comments_of_parse (e : Excerpt) (holes : List Hole) (role : Role) :
    (∀ r, Root.parse e holes role = .ok r →
      ((∀ x ∈ preorder 1 0 r.nodes, x.node.isComment = true) ↔ e.IsFiller holes)) ∧
    (e.IsFiller holes → ∃ r, Root.parse e holes role = .ok r ∧ r.OfFiller e (Reader.start e holes).drain.1) := by
  refine ⟨fun r hr => ?_, exists_parse_filler role⟩
  rw [comments_iff]
  constructor
  · exact isFiller_of_comments hr
  · intro hfiller
    obtain ⟨r', hr', hof⟩ := exists_parse_filler role hfiller
    obtain rfl : r' = r := Except.ok.inj (hr'.symm.trans hr)
    rw [List.any_eq_false]
    intro n hn hsolid
    have hcomment := ((List.forall₂_and_left _ _).1 hof.nodes).1 n hn
    rw [Node.isSolid, hcomment] at hsolid
    cases hsolid

/-- Holes with and without a semicolon behind them, a comment in a run that starts with a hole, and a comment in front of a
declaration. -/
theorem comments_of_parse_holes :
    let filler : Excerpt := ⟨"$\x7bx\x7d/*a*/;; $\x7by\x7d /* é */\n$\x7bz\x7d;".toList, Position.front, none⟩
    let style : Excerpt := ⟨"/*a*/ $\x7bx\x7d b:c".toList, Position.front, none⟩
    filler.IsFiller [⟨0, 3⟩, ⟨12, 15⟩, ⟨26, 29⟩] ∧
      (∃ r, Root.parse filler [⟨0, 3⟩, ⟨12, 15⟩, ⟨26, 29⟩] = .ok r ∧
        r.OfFiller filler (Reader.start filler [⟨0, 3⟩, ⟨12, 15⟩, ⟨26, 29⟩]).drain.1 ∧
        r.after = "\n$\x7bz\x7d;".toList ∧ r.nodes.map Node.css = ["/*a*/".toList, "/* é */".toList]) ∧
      ∃ r, Root.parse style [⟨6, 9⟩] = .ok r ∧ ¬ (∀ x ∈ preorder 1 0 r.nodes, x.node.isComment = true) ∧
        ¬ style.IsFiller [⟨6, 9⟩] := by
  intro filler style
  have hfiller : filler.IsFiller [⟨0, 3⟩, ⟨12, 15⟩, ⟨26, 29⟩] := by decide +kernel
  have hparts : (Root.parse filler [⟨0, 3⟩, ⟨12, 15⟩, ⟨26, 29⟩]).toOption.map (fun r => (r.after, r.nodes.map Node.css)) =
      some ("\n$\x7bz\x7d;".toList, ["/*a*/".toList, "/* é */".toList]) := by decide +kernel
  obtain ⟨r, hr, hof⟩ := (comments_of_parse filler [⟨0, 3⟩, ⟨12, 15⟩, ⟨26, 29⟩] (.component [] none)).2 hfiller
  rw [hr] at hparts
  obtain ⟨hafter, hnodes⟩ := Prod.mk.inj (Option.some.inj hparts)
  have hstyle : ¬ style.IsFiller [⟨6, 9⟩] := by decide +kernel
  obtain ⟨r', hr'⟩ : ∃ r, Root.parse style [⟨6, 9⟩] = .ok r := exists_ok_of_isOk (by decide +kernel)
  have hiff := (comments_of_parse style [⟨6, 9⟩] (.component [] none)).1 r' hr'
  exact ⟨hfiller, ⟨r, hr, hof, hafter, hnodes⟩, r', hr', fun hall => hstyle (hiff.1 hall), hstyle⟩

end Root
end TaggedStyles
