import TaggedStyles.Proofs.Tree.RefillRun

/-! Parsing is blind to the bodies of holes. Two fillings of one outline are parsed step by step into trees that are
the same but for the bodies (`Refill.Nodes`), or they are refused for the same cause; the exception is a word in front
of a colon that holds a word character in one of the two only. -/
namespace TaggedStyles
set_option autoImplicit false

namespace Refill

/-! ## Trees -/

/-- The same formatting is set, and its texts are the same but for the bodies. -/
structure Formats (x : Refill) (r r' : Raws) : Prop where
  before : Option.Rel x.Texts r.before r'.before
  after : Option.Rel x.Texts r.after r'.after := by exact .none
  between : Option.Rel x.Texts r.between r'.between := by exact .none
  semicolon : r'.semicolon = r.semicolon := by rfl
  important : Option.Rel x.Texts r.important r'.important := by exact .none
  afterName : Option.Rel x.Texts r.afterName r'.afterName := by exact .none
  left : Option.Rel x.Texts r.left r'.left := by exact .none
  right : Option.Rel x.Texts r.right r'.right := by exact .none
  ownSemicolon : Option.Rel x.Texts r.ownSemicolon r'.ownSemicolon := by exact .none
  selector : Option.Rel x.RawValues r.selector r'.selector := by exact .none
  value : Option.Rel x.RawValues r.value r'.value := by exact .none
  params : Option.Rel x.RawValues r.params r'.params := by exact .none

inductive Leaves (x : Refill) : Leaf → Leaf → Prop
  | declaration {prop prop' value value' : Text} {important : Bool} : x.Texts prop prop' → x.Texts value value' →
      Leaves x (.declaration prop value important) (.declaration prop' value' important)
  | atRule {name name' params params' : Text} : x.Texts name name' → x.Texts params params' →
      Leaves x (.atRule name params) (.atRule name' params')
  | comment {text text' : Text} : x.Texts text text' → Leaves x (.comment text) (.comment text')

inductive Headers (x : Refill) : Header → Header → Prop
  | rule {selector selector' : Text} : x.Texts selector selector' → Headers x (.rule selector) (.rule selector')
  | atRule {name name' params params' : Text} : x.Texts name name' → x.Texts params params' →
      Headers x (.atRule name params) (.atRule name' params')

/-- Two trees of one shape, with nodes of the same kinds and the same important marks. -/
inductive Nodes (x : Refill) : Node → Node → Prop
  | leaf {c c' : Leaf} {r r' : Raws} {s s' : Option Span} : x.Leaves c c' → x.Formats r r' →
      Nodes x (.leaf c r s) (.leaf c' r' s')
  | block {h h' : Header} {ns ns' : List Node} {r r' : Raws} {s s' : Option Span} : x.Headers h h' →
      List.Forall₂ (Nodes x) ns ns' → x.Formats r r' → Nodes x (.block h ns r s) (.block h' ns' r' s')

structure Roots (x : Refill) (r r' : Root) : Prop where
  nodes : List.Forall₂ x.Nodes r.nodes r'.nodes
  after : x.Texts r.after r'.after
  semicolon : r'.semicolon = r.semicolon
  role : r'.role = r.role

/-! ## Builders -/

structure Frames (x : Refill) (f f' : Frame) : Prop where
  header : x.Headers f.header f'.header
  raws : x.Formats f.raws f'.raws
  nodes : List.Forall₂ x.Nodes f.nodes f'.nodes

structure Builders (x : Refill) (b b' : Builder) : Prop where
  holes : b.holes = x.oldHoles
  holes' : b'.holes = x.newHoles
  nodes : List.Forall₂ x.Nodes b.nodes b'.nodes
  frames : List.Forall₂ x.Frames b.frames b'.frames
  pending : x.Texts b.pending b'.pending
  semicolon : b'.semicolon = b.semicolon

/-- A fault for a word that is told apart by the bodies. -/
def DoubtfulFault (x : Refill) (fault : Fault) : Prop :=
  ∃ error w, fault = .style error ∧ error.cause = .unknownWord w ∧ x.Doubtful w

/-- How two ways of parsing fare. -/
abbrev FaultOutcomes (x : Refill) {α : Type} (R : α → α → Prop) : Except Fault α → Except Fault α → Prop :=
  Outcomes x.Faults x.DoubtfulFault x.swap.DoubtfulFault R

/-- Both ways of parsing end alike. -/
abbrev Alike (x : Refill) {α : Type} (R : α → α → Prop) : Except Fault α → Except Fault α → Prop :=
  Outcomes x.Faults (fun _ => False) (fun _ => False) R

variable {x : Refill} {b b' : Builder} {n n' : Node} {t t' : Token} {ts ts' : List Token} {custom : Bool}
  {fault fault' : Option Fault}

theorem TokenOutcomes.unknownWord {α : Type} {R : α → α → Prop} {y y' : Except Token α} (h : x.TokenOutcomes R y y')
    (b b' : Builder) (reached reached' : Nat) :
    x.FaultOutcomes R (y.mapError (b.unknownWord · reached)) (y'.mapError (b'.unknownWord · reached')) :=
  h.mapError (fun _ _ ht => .style (.word ht)) (fun _ ht => ⟨_, _, rfl, rfl, ht⟩) fun _ ht => ⟨_, _, rfl, rfl, ht⟩

namespace Builders

theorem mapNodes {f f' : List Node → List Node} (h : x.Builders b b')
    (hf : ∀ ns ns', List.Forall₂ x.Nodes ns ns' → List.Forall₂ x.Nodes (f ns) (f' ns')) :
    x.Builders (b.mapNodes f) (b'.mapNodes f') := by
  obtain ⟨holes, holes', hnodes, hframes, hpending, hsemicolon⟩ := h
  unfold Builder.mapNodes
  generalize b.frames = fs at hframes
  generalize b'.frames = fs' at hframes
  cases hframes with
  | nil => exact ⟨holes, holes', hf _ _ hnodes, .nil, hpending, hsemicolon⟩
  | cons hg hgs =>
    exact ⟨holes, holes', hnodes, .cons ⟨hg.header, hg.raws, hf _ _ hg.nodes⟩ hgs, hpending, hsemicolon⟩

theorem add (h : x.Builders b b') (hn : x.Nodes n n') : x.Builders (b.add n) (b'.add n') :=
  h.mapNodes fun _ _ hns => List.rel_append hns (.cons hn .nil)

theorem lastNode? (h : x.Builders b b') : Option.Rel x.Nodes b.lastNode? b'.lastNode? := by
  have hnodes := h.nodes
  have hframes := h.frames
  unfold Builder.lastNode?
  generalize b.frames = fs at hframes
  generalize b'.frames = fs' at hframes
  cases hframes with
  | nil => exact forall₂_getLast? hnodes
  | cons hg _ => exact forall₂_getLast? hg.nodes

theorem openBlock {f f' : Frame} (h : x.Builders b b') (hf : x.Frames f f') :
    x.Builders (b.openBlock f) (b'.openBlock f') :=
  ⟨h.holes, h.holes', h.nodes, .cons hf h.frames, h.pending, h.semicolon⟩

theorem wait {u u' : Text} (h : x.Builders b b') (hu : x.Texts u u') : x.Builders (b.wait u) (b'.wait u') :=
  ⟨h.holes, h.holes', h.nodes, h.frames, h.pending.append hu, h.semicolon⟩

theorem pend {u u' : Text} (h : x.Builders b b') (hu : x.Texts u u') (semicolon : Bool) :
    x.Builders { b with pending := u, semicolon := semicolon } { b' with pending := u', semicolon := semicolon } :=
  ⟨h.holes, h.holes', h.nodes, h.frames, hu, rfl⟩

theorem taken (h : x.Builders b b') : x.Builders b.taken b'.taken := h.pend (.same x []) false

/-! ## Constructs -/

theorem comment_inner {inner u : Text} (h : x.Texts ('/' :: '*' :: (inner ++ ['*', '/'])) u) :
    ∃ inner', u = '/' :: '*' :: (inner' ++ ['*', '/']) ∧ x.Texts inner inner' := by
  obtain ⟨u₁, rfl, h₁⟩ := h.cons (by decide)
  obtain ⟨u₂, rfl, h₂⟩ := h₁.cons (by decide)
  rw [List.append_cons] at h₂
  obtain ⟨u₃, rfl, h₃⟩ := h₂.concat (by decide)
  obtain ⟨inner', rfl, hinner⟩ := h₃.concat (by decide)
  exact ⟨inner', by simp, hinner⟩

theorem comment (h : x.Builders b b') (ht : x.Tokens t t') (hk : t.kind = .comment) :
    x.Builders (b.comment t) (b'.comment t') := by
  have htext := ht.text
  have hspells := ht.spells
  rw [hk] at hspells
  obtain ⟨inner, hinner⟩ := hspells
  rw [hinner] at htext
  obtain ⟨inner', hinner', hbodies⟩ := comment_inner htext
  have htake : ∀ s : Text, (('/' :: '*' :: (s ++ ['*', '/'])).drop 2).take
      (List.length ('/' :: '*' :: (s ++ ['*', '/'])) - 4) = s := by
    intro s
    simp
  obtain ⟨front, back, mid, mid', hmid, ⟨hparts, hopened, hshown⟩, hparts', hopened', hshown'⟩ := hbodies.trim
  have hfront : ∀ m : Text, (front ++ m ++ back).take ((front ++ m ++ back).length - (m ++ back).length) = front := by
    intro m
    simp
  unfold Builder.comment
  rw [hinner, hinner', htake, htake]
  simp only [hopened, hopened', hshown, hshown', hmid.isEmpty]
  refine Builders.add ⟨h.holes, h.holes', h.nodes, h.frames, .same x [], h.semicolon⟩ (.leaf (.comment hmid) ?_)
  split
  · exact { before := .some h.pending, left := .some hbodies, right := .some (.same x []) }
  · rw [hparts, hparts']
    simp only [hfront, List.drop_left]
    exact { before := .some h.pending, left := .some (.same x front), right := .some (.same x back) }

theorem openRule (h : x.Builders b b') (hts : x.Runs ts ts') : x.Builders (b.openRule ts) (b'.openRule ts') := by
  obtain ⟨hlines, hrun⟩ := hts.splitHoleLines
  obtain ⟨hkept, hbetween⟩ := Runs.splitEnd hrun fun _ _ => Tokens.isTrivia
  obtain ⟨hselector, hraw⟩ := Runs.clean false hkept
  unfold Builder.openRule
  rw [h.holes, h.holes']
  refine h.taken.openBlock ⟨.rule hselector, ?_, .nil⟩
  exact { before := .some (h.pending.append hlines.joined), between := .some hbetween.joined, selector := hraw }

theorem openBareRule (h : x.Builders b b') : x.Builders (b.openBareRule t) (b'.openBareRule t') :=
  h.taken.openBlock ⟨.rule (.same x []), { before := .some h.pending, between := .some (.same x []) }, .nil⟩

theorem splitHack {u u' : Text} (h : x.Texts u u') : x.Texts (Builder.splitHack u).1 (Builder.splitHack u').1 ∧
    x.Texts (Builder.splitHack u).2 (Builder.splitHack u').2 := by
  have hplain : ∀ v : Text, v.head? ≠ some '_' → v.head? ≠ some '*' → Builder.splitHack v = ([], v) := by
    intro v hunder hstar
    unfold Builder.splitHack
    split
    · exact absurd rfl hunder
    · exact absurd rfl hstar
    · rfl
  by_cases hunder : u.head? = some '_'
  · obtain ⟨p, rfl⟩ := List.head?_eq_some_iff.1 hunder
    obtain ⟨p', rfl, hp⟩ := h.cons (by decide)
    exact ⟨.same x ['_'], hp⟩
  · by_cases hstar : u.head? = some '*'
    · obtain ⟨p, rfl⟩ := List.head?_eq_some_iff.1 hstar
      obtain ⟨p', rfl, hp⟩ := h.cons (by decide)
      exact ⟨.same x ['*'], hp⟩
    · rw [hplain u hunder hstar, hplain u' (fun h' => hunder ((h.head?_eq_iff (by decide)).2 h'))
        fun h' => hstar ((h.head?_eq_iff (by decide)).2 h')]
      exact ⟨.same x [], h⟩

/-- A check that may find a fault ends alike if it is made of both and finds the same. -/
theorem check {α : Type} {R : α → α → Prop} {a a' : α} {made made' : Bool} {o o' : Option (Cause × Nat)}
    (b b' : Builder) :
    o'.map Prod.fst = o.map Prod.fst → (o.isSome = true → made' = made) → R a a' → x.FaultOutcomes R
      (if made = true then
        match o with
        | some (cause, offset) => do throw (b.error cause offset); pure a
        | _ => pure a
      else pure a)
      (if made' = true then
        match o' with
        | some (cause, offset) => do throw (b'.error cause offset); pure a'
        | _ => pure a'
      else pure a') := by
  intro ho hmade ha
  cases o with
  | none =>
    obtain rfl := Option.map_eq_none_iff.1 ho
    simp only [ite_self]
    exact .ok ha
  | some found =>
    obtain ⟨cause, offset⟩ := found
    obtain ⟨⟨cause', offset'⟩, rfl, rfl⟩ := Option.map_eq_some_iff.1 ho
    rw [hmade rfl]
    cases made with
    | true => exact .error (.style .same)
    | false => exact .ok ha

theorem declare {run run' : List Token} (h : x.Builders b b') (hrun : x.Runs run run') (reached reached' : Nat) :
    x.FaultOutcomes x.Builders (b.declare run custom reached) (b'.declare run' custom reached') := by
  have hlast := forall₂_getLast? hrun
  unfold Builder.declare
  generalize run.getLast? = o at hlast ⊢
  generalize run'.getLast? = o' at hlast ⊢
  cases hlast with
  | none => exact .ok h.taken
  | @some last last' hlast =>
    have hts : x.Runs (if last.kind = .semicolon then run.dropLast else run)
        (if last'.kind = .semicolon then run'.dropLast else run') := by
      rw [hlast.kind]
      exact ite_of_rel (forall₂_dropLast hrun) hrun
    simp only
    rw [h.holes, h.holes']
    refine ((Runs.splitProperty h.pending hts).unknownWord b b' reached reached').bind fun a a' ha => ?_
    obtain ⟨before, kept⟩ := a
    obtain ⟨before', kept'⟩ := a'
    obtain ⟨hbefore, hkept⟩ := ha
    simp only at hbefore hkept ⊢
    have hends : ∀ t t', x.Tokens t t' → (!Run.endsProperty t') = !Run.endsProperty t :=
      fun t t' ht => congrArg (!·) ht.endsProperty
    have hname := Runs.joined (forall₂_takeWhile hkept hends)
    refine ((Runs.splitColon (.same x []) (forall₂_dropWhile hkept hends)).unknownWord b b' reached reached').bind
      fun a a' ha => ?_
    obtain ⟨between, value⟩ := a
    obtain ⟨between', value'⟩ := a'
    obtain ⟨hbetween, hvalue⟩ := ha
    simp only at hbetween hvalue ⊢
    obtain ⟨hhack, hprop⟩ := splitHack hname
    have hlead : x.Runs (value.takeWhile Token.isTrivia) (value'.takeWhile Token.isTrivia) :=
      forall₂_takeWhile hvalue fun _ _ => Tokens.isTrivia
    obtain ⟨hleft, himportant, hmark⟩ := Runs.splitImportant (forall₂_dropWhile hvalue fun _ _ => Tokens.isTrivia)
    generalize Run.splitImportant (value.dropWhile Token.isTrivia) = y at hleft himportant hmark ⊢
    generalize Run.splitImportant (value'.dropWhile Token.isTrivia) = y' at hleft himportant hmark ⊢
    obtain ⟨left, important, mark⟩ := y
    obtain ⟨left', important', mark'⟩ := y'
    simp only at hleft himportant hmark ⊢
    rw [hleft.all_isTrivia, himportant]
    have hcleaned : x.Runs (if left.all Token.isTrivia then value.takeWhile Token.isTrivia ++ left else left)
        (if left.all Token.isTrivia then value'.takeWhile Token.isTrivia ++ left' else left') := by
      exact ite_of_rel (List.rel_append hlead hleft) hleft
    obtain ⟨htext, hraw⟩ := hcleaned.clean custom
    refine check b b' hleft.colonFault? (fun hfault => ?_) ?_
    · obtain ⟨hbare, hcolon, hcolon'⟩ := hleft.colon_mem custom hfault
      rw [hbare, if_neg Bool.false_ne_true, if_neg Bool.false_ne_true]
      simp only [hcolon, hcolon']
    · have hopened := ite_of_rel (c := left.all Token.isTrivia = true) hbetween (hbetween.append hlead.joined)
      have hclosed : decide (last'.kind = .semicolon) = decide (last.kind = .semicolon) := by rw [hlast.kind]
      rw [hclosed]
      refine (h.taken.pend (.same x []) _).add (.leaf (.declaration hprop htext) ?_)
      exact { before := .some (hbefore.append hhack), between := .some hopened, important := hmark, value := hraw }

theorem fill (h : x.Builders b b') (hts : x.Runs ts ts') :
    x.FaultOutcomes x.Builders (b.fill ts) (b'.fill ts') := by
  induction hts generalizing b b' with
  | nil => exact .ok h
  | @cons t t' ts ts' ht hts ih =>
    rw [Builder.fill, Builder.fill, h.holes, h.holes', ht.kind, ht.hole]
    split
    · exact ih (h.wait ht.text)
    · split
      · rename_i _ hk
        exact ih (h.comment ht hk)
      · exact .error (.style (.word ht.text))

theorem freeSemicolon (h : x.Builders b b') (ht : x.Tokens t t') :
    x.Builders (b.freeSemicolon t) (b'.freeSemicolon t') := by
  have hlast := h.lastNode?
  have hwait := h.wait ht.text
  unfold Builder.freeSemicolon
  generalize b.lastNode? = o at hlast ⊢
  generalize b'.lastNode? = o' at hlast ⊢
  cases hlast with
  | none => exact hwait
  | some hn =>
    cases hn with
    | leaf => exact hwait
    | @block hd hd' ns ns' r r' s s' hhead hns hraws =>
      cases hhead with
      | atRule => exact hwait
      | rule hselector =>
        simp only
        rw [isSome_eq_of_rel hraws.ownSemicolon, h.semicolon]
        split
        · exact hwait
        · refine (h.pend (.same x []) b.semicolon).mapNodes fun _ _ hall => List.rel_append (forall₂_dropLast hall) ?_
          refine .cons (.block (.rule hselector) hns ?_) .nil
          exact { hraws with ownSemicolon := .some (h.pending.append ht.text) }

theorem close (h : x.Builders b b') : x.FaultOutcomes x.Builders (b.close t) (b'.close t') := by
  have hframes := h.frames
  have hsemicolon := h.semicolon
  unfold Builder.close
  generalize b.frames = fs at hframes ⊢
  generalize b'.frames = fs' at hframes ⊢
  cases hframes with
  | nil => exact .error (.style .same)
  | @cons f f' fs fs' hg hgs =>
    have hafter := (getD_of_rel hg.raws.after (.same x [])).append h.pending
    simp only
    rw [forall₂_isEmpty hg.nodes, h.semicolon, hg.raws.semicolon]
    refine .ok (Builders.add ⟨h.holes, h.holes', h.nodes, hgs, .same x [], rfl⟩ (.block hg.header hg.nodes ?_))
    exact { hg.raws with after := .some hafter, semicolon := rfl }

/-! ## At-rules -/

/-- A builder and the tokens that are left to it. -/
def Rests (x : Refill) (y y' : Builder × List Token) : Prop := x.Builders y.1 y'.1 ∧ x.Runs y.2 y'.2

theorem blocked {α : Type} {R : α → α → Prop} {y y' : Except Fault α} {made made' : Prop} [Decidable made]
    [Decidable made'] : (made' ↔ made) → Option.Rel x.Faults fault fault' → x.FaultOutcomes R y y' → x.FaultOutcomes R
      (if made then
        match fault with
        | some fault => do throw fault; y
        | _ => y
      else y)
      (if made' then
        match fault' with
        | some fault => do throw fault; y'
        | _ => y'
      else y') := by
  intro hmade hfault hy
  by_cases hm : made
  · rw [if_pos hm, if_pos (hmade.2 hm)]
    cases hfault with
    | none => exact hy
    | some hfault => exact .error hfault
  · rw [if_neg hm, if_neg fun h => hm (hmade.1 h)]
    exact hy

theorem atRule (h : x.Builders b b') (hfault : Option.Rel x.Faults fault fault') (ht : x.Tokens t t')
    (hk : t.kind = .atWord) (hts : x.Runs ts ts') :
    x.FaultOutcomes (Rests x) (b.atRule fault t ts) (b'.atRule fault' t' ts') := by
  have hname : x.Texts (t.text.drop 1) (t'.text.drop 1) := by
    have htext := ht.text
    have hspells := ht.spells
    rw [hk] at hspells
    obtain ⟨name, hname⟩ := hspells
    rw [hname] at htext ⊢
    obtain ⟨name', hname', hnames⟩ := htext.cons (by decide)
    rwa [hname']
  obtain ⟨hparams, hending, hunread⟩ := hts.collectParams []
  unfold Builder.atRule
  generalize collectParams [] ts = r at hparams hending hunread ⊢
  generalize collectParams [] ts' = r' at hparams hending hunread ⊢
  obtain ⟨params, ending, unread⟩ := r
  obtain ⟨params', ending', unread'⟩ := r'
  simp only at hparams hending hunread ⊢
  rw [hname.isEmpty]
  cases (t.text.drop 1).isEmpty with
  | true => exact .error (.style .same)
  | false =>
    simp only [Bool.false_eq_true, if_false]
    refine blocked hending.exhausted_iff hfault ?_
    obtain ⟨hkept, hbetween⟩ := hparams.splitEnd fun _ _ => Tokens.isTrivia
    generalize Run.splitEnd Token.isTrivia params = parts at hkept hbetween ⊢
    generalize Run.splitEnd Token.isTrivia params' = parts' at hkept hbetween ⊢
    obtain ⟨kept, between⟩ := parts
    obtain ⟨kept', between'⟩ := parts'
    simp only at hkept hbetween ⊢
    obtain ⟨hvalue, hraw⟩ := Runs.clean false (forall₂_dropWhile hkept fun _ _ => Tokens.isTrivia)
    rw [forall₂_isEmpty hkept, decide_eq_decide.2 hending.exhausted_iff]
    generalize (decide (ending = .exhausted) && !kept.isEmpty) = last
    have hopened := ite_of_rel (c := last = true) (Texts.same x []) (Runs.joined hbetween)
    have hwaiting := ite_of_rel (c := last = true) (Runs.joined hbetween) (Texts.same x [])
    have hafter := ite_of_rel (c := kept.isEmpty = true) (Texts.same x [])
      (Runs.joined (forall₂_takeWhile hkept fun _ _ => Tokens.isTrivia))
    have hnext := h.pend hwaiting
    cases hending with
    | semicolon =>
      refine .ok ⟨(hnext true).add (.leaf (.atRule hname hvalue) ?_), List.forall₂_drop 1 hunread⟩
      exact { before := .some h.pending, between := .some hopened, afterName := .some hafter, params := hraw }
    | block =>
      refine .ok ⟨(hnext false).openBlock ⟨.atRule hname hvalue, ?_, .nil⟩, hunread⟩
      exact { before := .some h.pending, between := .some hopened, afterName := .some hafter, params := hraw }
    | boundary =>
      refine Outcomes.bind (close ((hnext false).add (.leaf (.atRule hname hvalue) ?_))) fun _ _ hclosed =>
        .ok ⟨hclosed, hunread⟩
      exact { before := .some h.pending, between := .some hopened, afterName := .some hafter, params := hraw }
    | exhausted =>
      refine .ok ⟨(hnext false).add (.leaf (.atRule hname hvalue) ?_), hunread⟩
      exact { before := .some h.pending, between := .some hopened, afterName := .some hafter, params := hraw }

/-! ## Reading on -/

theorem run (h : x.Builders b b') (hfault : Option.Rel x.Faults fault fault') (ht : x.Tokens t t')
    (hts : x.Runs ts ts') : x.FaultOutcomes (Rests x) (b.run fault t ts) (b'.run fault' t' ts') := by
  have hcustom : ['-', '-'].isPrefixOf t'.text = ['-', '-'].isPrefixOf t.text := by
    rw [Bool.eq_iff_iff, List.isPrefixOf_iff_prefix, List.isPrefixOf_iff_prefix]
    exact ⟨ht.text.swap.isPrefix (by decide), ht.text.isPrefix (by decide)⟩
  unfold Builder.run
  rw [hcustom]
  generalize ['-', '-'].isPrefixOf t.text = custom
  simp only
  have hfound : x.Founds (Run.collect custom false [] none (t :: ts)) (Run.collect custom false [] none (t' :: ts')) :=
    Runs.collect rfl (.cons ht hts)
  generalize Run.collect custom false [] none (t :: ts) = f at hfound ⊢
  generalize Run.collect custom false [] none (t' :: ts') = f' at hfound ⊢
  generalize f.reached b.excerpt.text.size = reached
  generalize f'.reached b'.excerpt.text.size = reached'
  obtain ⟨hrun, hcolon, hopener, hending, hunread⟩ := hfound
  obtain ⟨run, colon, opener, ending, unread⟩ := f
  obtain ⟨run', colon', opener', ending', unread'⟩ := f'
  simp only at hrun hcolon hopener hending hunread ⊢
  subst hcolon
  refine blocked hending.exhausted_iff hfault ?_
  cases opener with
  | some opener =>
    cases opener' with
    | none => cases hopener
    | some opener' => exact .error (.style .same)
  | none =>
    cases opener' with
    | some opener' => cases hopener
    | none =>
      have hsplit : x.Runs (if custom then (run, []) else Run.splitEnd Token.isTrivia run).1
            (if custom then (run', []) else Run.splitEnd Token.isTrivia run').1 ∧
          x.Runs (if custom then (run, []) else Run.splitEnd Token.isTrivia run).2
            (if custom then (run', []) else Run.splitEnd Token.isTrivia run').2 := by
        split
        · exact ⟨hrun, .nil⟩
        · exact hrun.splitEnd fun _ _ => Tokens.isTrivia
      cases hending with
      | block => exact .ok ⟨h.openRule (forall₂_dropLast hrun), hunread⟩
      | semicolon =>
        cases colon' with
        | true => exact (h.declare hrun reached reached').bind fun _ _ hdeclared => .ok ⟨hdeclared, hunread⟩
        | false => exact (h.fill hrun).bind fun _ _ hfilled => .ok ⟨hfilled, hunread⟩
      | _ =>
        cases colon' with
        | true =>
          exact (h.declare hsplit.1 reached reached').bind fun _ _ hdeclared =>
            .ok ⟨hdeclared, List.rel_append hsplit.2 hunread⟩
        | false => exact (h.fill hrun).bind fun _ _ hfilled => .ok ⟨hfilled, hunread⟩

theorem step (h : x.Builders b b') (hfault : Option.Rel x.Faults fault fault') (ht : x.Tokens t t')
    (hts : x.Runs ts ts') : x.FaultOutcomes (Rests x) (b.step fault t ts) (b'.step fault' t' ts') := by
  have hrun := h.run hfault ht hts
  unfold Builder.step
  rw [ht.kind]
  cases hk : t.kind with
  | space => exact .ok ⟨h.wait ht.text, hts⟩
  | semicolon => exact .ok ⟨h.freeSemicolon ht, hts⟩
  | closeCurly => exact h.close.map fun _ _ hclosed => ⟨hclosed, hts⟩
  | comment => exact .ok ⟨h.comment ht hk, hts⟩
  | atWord => exact h.atRule hfault ht hk hts
  | openCurly => exact .ok ⟨h.openBareRule, hts⟩
  | _ => exact hrun

theorem steps (hfault : Option.Rel x.Faults fault fault') (n : Nat) (h : x.Builders b b') (hts : x.Runs ts ts') :
    x.FaultOutcomes x.Builders (Builder.steps fault n b ts) (Builder.steps fault' n b' ts') := by
  induction n generalizing b b' ts ts' with
  | zero =>
    cases hts with
    | nil =>
      cases hfault with
      | none => exact .ok h
      | some hfault => exact .error hfault
    | cons => exact .ok h
  | succ n ih =>
    cases hts with
    | nil =>
      cases hfault with
      | none => exact .ok h
      | some hfault => exact .error hfault
    | cons ht hts => exact (h.step hfault ht hts).bind fun _ _ hrests => ih hrests.1 hrests.2

theorem finish (h : x.Builders b b') (role : Role) : x.FaultOutcomes x.Roots (b.finish role) (b'.finish role) := by
  have hframes := h.frames
  unfold Builder.finish
  generalize b.frames = fs at hframes ⊢
  generalize b'.frames = fs' at hframes ⊢
  cases hframes with
  | nil =>
    refine .ok ⟨h.nodes, h.pending, ?_, rfl⟩
    simp only
    rw [forall₂_isEmpty h.nodes, h.semicolon]
  | cons => exact .error (.style .same)

end Builders

end Refill

namespace Root
variable {x : Refill} {o : Outline} {e e' : Excerpt}

/-- Two fillings of an outline are parsed into trees that are the same but for the bodies, or they are refused for the
same cause, or one of them is refused for a word in front of a colon that holds word characters in that filling only.
The last is out of the question if the bodies with word characters are the same ones in both. -/
theorem parse_refill (hu : o.Unescaped) (h : x.Fills o e e') (role : Role) :
    x.FaultOutcomes x.Roots (parse e x.oldHoles role) (parse e' x.newHoles role) ∧
      ((∀ n, (x.new n).any Run.isWordCharacter = (x.old n).any Run.isWordCharacter) →
        x.Alike x.Roots (parse e x.oldHoles role) (parse e' x.newHoles role)) := by
  have houtcomes : x.FaultOutcomes x.Roots (parse e x.oldHoles role) (parse e' x.newHoles role) := by
    obtain ⟨htokens, hfault⟩ := Refill.drain_refill hu h
    have hbuilders : x.Builders { excerpt := e, holes := (Reader.start e x.oldHoles).holes }
        { excerpt := e', holes := (Reader.start e' x.newHoles).holes } :=
      ⟨Refill.start_holes h.text h.holes, Refill.start_holes h.text' h.holes', .nil, .nil, .same x [], rfl⟩
    unfold parse
    simp only [Builder.parse]
    rw [← htokens.length_eq]
    exact (hbuilders.steps hfault _ htokens).bind fun _ _ hbuilt => hbuilt.finish role
  refine ⟨houtcomes, fun hagree => houtcomes.mono ?_ ?_⟩
  · rintro _ ⟨error, w, -, -, hdoubt⟩
    exact Refill.not_doubtful (fun n => (hagree n).symm) hdoubt
  · rintro _ ⟨error, w, -, -, hdoubt⟩
    exact Refill.not_doubtful hagree hdoubt

open Outline in
/-- Holes in the place of a property and in a value, with other quotes and braces in them. -/
theorem parse_refill_property :
    let o := plain "a \x7b ".toList ++ [.hole 0] ++ plain ": b ".toList ++ [.hole 1] ++ plain " !important \x7d".toList
    let x : Refill := ⟨fun _ => "x".toList, fun _ => "';\x7b:y".toList, o.holesFrom (fun _ => "x".toList) 0,
      o.holesFrom (fun _ => "';\x7b:y".toList) 0⟩
    ∃ root root', parse ⟨o.fill x.old, Position.front, none⟩ x.oldHoles (.component [] none) = .ok root ∧
      parse ⟨o.fill x.new, Position.front, none⟩ x.newHoles (.component [] none) = .ok root' ∧ x.Roots root root' := by
  intro o x
  have hagree : "';\x7b:y".toList.any Run.isWordCharacter = "x".toList.any Run.isWordCharacter := by decide +kernel
  have hfills : x.Fills o ⟨o.fill x.old, Position.front, none⟩ ⟨o.fill x.new, Position.front, none⟩ :=
    ⟨rfl, rfl, fun _ => Iff.rfl, fun _ => Iff.rfl⟩
  have halike := (parse_refill (by decide +kernel) hfills (.component [] none)).2 fun _ => hagree
  have hok : (parse ⟨o.fill x.old, Position.front, none⟩ x.oldHoles (.component [] none)).isOk = true := by
    decide +kernel
  generalize parse ⟨o.fill x.old, Position.front, none⟩ x.oldHoles (.component [] none) = y at halike hok ⊢
  generalize parse ⟨o.fill x.new, Position.front, none⟩ x.newHoles (.component [] none) = y' at halike ⊢
  cases halike with
  | ok hroots => exact ⟨_, _, rfl, rfl, hroots⟩
  | error => cases hok
  | old hfalse => exact hfalse.elim
  | new hfalse => exact hfalse.elim

open Outline in
/-- The body of a hole between a property and its colon tells: a name in it is taken for a word of the text. -/
theorem parse_tells_bodies :
    let o := plain "a ".toList ++ [.hole 0] ++ plain ": b".toList
    let x : Refill := ⟨fun _ => "x".toList, fun _ => "$".toList, o.holesFrom (fun _ => "x".toList) 0,
      o.holesFrom (fun _ => "$".toList) 0⟩
    o.Unescaped ∧ x.Fills o ⟨o.fill x.old, Position.front, none⟩ ⟨o.fill x.new, Position.front, none⟩ ∧
      ¬ x.Alike x.Roots (parse ⟨o.fill x.old, Position.front, none⟩ x.oldHoles (.component [] none))
        (parse ⟨o.fill x.new, Position.front, none⟩ x.newHoles (.component [] none)) := by
  intro o x
  refine ⟨by decide +kernel, ⟨rfl, rfl, fun _ => Iff.rfl, fun _ => Iff.rfl⟩, fun halike => ?_⟩
  have hrefused : (parse ⟨o.fill x.old, Position.front, none⟩ x.oldHoles (.component [] none)).isOk = false := by
    decide +kernel
  have hok : (parse ⟨o.fill x.new, Position.front, none⟩ x.newHoles (.component [] none)).isOk = true := by
    decide +kernel
  generalize parse ⟨o.fill x.old, Position.front, none⟩ x.oldHoles (.component [] none) = y at halike hrefused
  generalize parse ⟨o.fill x.new, Position.front, none⟩ x.newHoles (.component [] none) = y' at halike hok
  cases halike with
  | ok => cases hrefused
  | error => cases hok
  | old hfalse => exact hfalse
  | new hfalse => exact hfalse

end Root
end TaggedStyles
