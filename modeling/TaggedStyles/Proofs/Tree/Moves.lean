import Mathlib.Logic.Relation
import TaggedStyles.Proofs.Tree.Filler

/-! Parsing as changes of a builder. A step of parsing is a few moves (`Builder.Move`): text waits, a leaf is added, a
block is opened or closed, or a semicolon goes to the rule in front of it. What each move keeps, parsing keeps. -/
namespace TaggedStyles
set_option autoImplicit false

theorem Run.Found.left_subset (f : Run.Found) (custom : Bool) : f.left custom ⊆ f.tokens ++ f.unread := by
  have hunread : f.unread ⊆ f.tokens ++ f.unread := List.subset_append_right _ _
  have hopen : (if custom then f.unread else (Run.splitEnd Token.isTrivia f.tokens).2 ++ f.unread) ⊆
      f.tokens ++ f.unread := by
    split
    · exact hunread
    · have hsplit := Run.splitEnd_append Token.isTrivia f.tokens
      intro u hu
      rw [← hsplit, List.append_assoc]
      exact List.mem_append_right _ hu
  unfold left
  split
  · exact hopen
  · exact hopen
  · exact hunread

/-! ## All nodes -/

mutual

/-- A node and all nodes below it have a property. -/
def Node.Every (P : Node → Prop) : Node → Prop
  | .leaf content raws source => P (.leaf content raws source)
  | .block header ns raws source => P (.block header ns raws source) ∧ EveryIn P ns

def EveryIn (P : Node → Prop) : List Node → Prop
  | [] => True
  | n :: ns => n.Every P ∧ EveryIn P ns

end

section
variable {P : Node → Prop} {n : Node} {ns ms : List Node}

theorem everyIn_iff : EveryIn P ns ↔ ∀ n ∈ ns, n.Every P := by
  induction ns with
  | nil => simp [EveryIn]
  | cons n ns ih => simp [EveryIn, ih]

theorem everyIn_append : EveryIn P (ns ++ ms) ↔ EveryIn P ns ∧ EveryIn P ms := by
  simp only [everyIn_iff, List.mem_append, or_imp, forall_and]

end

mutual

theorem Node.Every.preorder {P : Node → Prop} {n : Node} (h : n.Every P) (depth index : Nat) :
    ∀ x ∈ n.preorder depth index, P x.node := by
  intro x hx
  cases n with
  | leaf content raws source =>
    rw [Node.preorder, List.mem_singleton] at hx
    rw [hx]
    exact h
  | block header ns raws source =>
    rw [Node.preorder, List.mem_cons] at hx
    cases hx with
    | inl hx =>
      rw [hx]
      exact h.1
    | inr hx => exact EveryIn.preorder h.2 (depth + 1) 0 x hx

theorem EveryIn.preorder {P : Node → Prop} {ns : List Node} (h : EveryIn P ns) (depth index : Nat) :
    ∀ x ∈ preorder depth index ns, P x.node := by
  intro x hx
  cases ns with
  | nil => cases hx
  | cons n ns =>
    rw [TaggedStyles.preorder, List.mem_append] at hx
    cases hx with
    | inl hx => exact Node.Every.preorder h.1 depth index x hx
    | inr hx => exact EveryIn.preorder h.2 depth (index + 1) x hx

end

/-! ## What has begun -/

/-- Of a node that has just begun and is no comment, the raw before it is known, and none behind it. -/
structure Raws.Begun (r : Raws) : Prop where
  before : r.before.isSome = true ∧ r.ends.before.isSome = true
  after : r.after = none ∧ r.ends.after = none
  sides : r.left = none ∧ r.right = none
  ownSemicolon : r.ownSemicolon = none ∧ r.ends.ownSemicolon = none
  semicolon : r.semicolon = none

theorem Raws.Begun.known {before : Text} {stop : Nat} {between important afterName : Option Text}
    {selector value params : Option RawValue} : Raws.Begun
      { before := some before, between := between, important := important, afterName := afterName
        selector := selector, value := value, params := params, ends := { before := some stop } } :=
  ⟨⟨rfl, rfl⟩, ⟨rfl, rfl⟩, ⟨rfl, rfl⟩, ⟨rfl, rfl⟩, rfl⟩

/-- A text that tokens of one sort make up, all of them out of a list. -/
def Text.MadeOf (p : Token → Bool) (ts : List Token) (text : Text) : Prop :=
  ∃ us, us ⊆ ts ∧ (∀ u ∈ us, p u = true) ∧ Token.joined us = text

namespace Text.MadeOf
variable {p : Token → Bool} {t : Token} {ts us : List Token} {x y : Text}

theorem nothing (p : Token → Bool) (ts : List Token) : MadeOf p ts [] := ⟨[], List.nil_subset ts, by simp, rfl⟩

theorem single (ht : t ∈ ts) (hp : p t = true) : MadeOf p ts t.text :=
  ⟨[t], by simpa using ht, by simpa using hp, List.append_nil t.text⟩

theorem append (h : MadeOf p ts x) (h' : MadeOf p ts y) : MadeOf p ts (x ++ y) := by
  obtain ⟨us, hus, hpus, rfl⟩ := h
  obtain ⟨vs, hvs, hpvs, rfl⟩ := h'
  refine ⟨us ++ vs, List.append_subset.2 ⟨hus, hvs⟩, fun u hu => ?_, Token.joined_append us vs⟩
  exact (List.mem_append.1 hu).elim (hpus u) (hpvs u)

theorem mono (hsubset : us ⊆ ts) (h : MadeOf p us x) : MadeOf p ts x := by
  obtain ⟨vs, hvs, h⟩ := h
  exact ⟨vs, List.Subset.trans hvs hsubset, h⟩

theorem splitEnd (hus : us ⊆ ts) : MadeOf p ts (Token.joined (Run.splitEnd p us).2) := by
  refine ⟨(Run.splitEnd p us).2, fun u hu => hus ?_, fun u hu => Run.of_mem_splitEnd hu, rfl⟩
  rw [← Run.splitEnd_append p us]
  exact List.mem_append_right _ hu

theorem filler (holes : List Hole) (h : MadeOf Token.isTrivia ts x) : MadeOf (Token.isFiller holes) ts x := by
  obtain ⟨us, hus, htrivia, hx⟩ := h
  refine ⟨us, hus, fun u hu => ?_, hx⟩
  have hkind := htrivia u hu
  simp only [Token.isTrivia, Bool.or_eq_true, decide_eq_true_eq] at hkind
  rcases hkind with hk | hk <;> simp [Token.isFiller, hk]

end Text.MadeOf

/-- Spaces and comments stand in front of the mark that opens a block or ends an at-rule. -/
def Raws.Between (ts : List Token) (r : Raws) : Prop :=
  ∃ text, r.between = some text ∧ Text.MadeOf Token.isTrivia ts text

/-- A block that has just begun starts where the raw before it ends. -/
structure Frame.Begun (ts : List Token) (f : Frame) : Prop where
  raws : f.raws.Begun
  between : f.raws.Between ts
  afterName : ∀ name params, f.header = .atRule name params → f.raws.afterName.isSome = true
  start : f.raws.ends.before = some f.source.start.offset
  nodes : f.nodes = []

/-- What is known of a declaration, and of an at-rule without a block. -/
structure Leaf.Begun (ts : List Token) (content : Leaf) (raws : Raws) : Prop where
  solid : content.isSolid = true
  begun : raws.Begun
  between : raws.between.isSome = true
  atRule : ∀ name params, content = .atRule name params → raws.Between ts ∧ raws.afterName.isSome = true

theorem Leaf.Begun.ofAtRule {ts : List Token} {name params : Text} {raws : Raws} (hraws : raws.Begun)
    (hbetween : raws.Between ts) (hname : raws.afterName.isSome = true) : (Leaf.atRule name params).Begun ts raws := by
  refine ⟨rfl, hraws, ?_, fun _ _ _ => ⟨hbetween, hname⟩⟩
  obtain ⟨text, hset, -⟩ := hbetween
  exact Option.isSome_of_eq_some hset

/-- Where a leaf stops that a semicolon at an offset ended: a declaration in front of the mark, an at-rule behind it. -/
def Leaf.stopAt? (e : Excerpt) (i : Nat) : Leaf → Option Position
  | .declaration .. => some (e.position i)
  | .atRule .. => some { e.position i with offset := (e.position i).offset + 1 }
  | .comment _ => none

/-- A semicolon out of some tokens ended a leaf, and it stops there. -/
def Leaf.StopsAtMark (e : Excerpt) (ts : List Token) (content : Leaf) (stop : Option Position) : Prop :=
  ∃ t ∈ ts, t.kind = .semicolon ∧ ∀ i, t.start = some i → t.last = none → stop = content.stopAt? e i

namespace Builder

/-! ## Moves -/

/-- Text waits: filler, behind what waited before if that is not taken. -/
def Waits (ts : List Token) (b : Builder) (pending : Text) : Prop :=
  ∃ text, Text.MadeOf (Token.isFiller b.holes) ts text ∧ (pending = text ∨ pending = b.pending ++ text)

/-- One change of a builder that takes a mark, a comment or filler from some tokens, if any token. Only a leaf that stops
at a semicolon says that one ended it. -/
inductive Move (ts : List Token) : Builder → Builder → Prop
  | wait (b : Builder) {pending : Text} (semicolon : Bool) : b.Waits ts pending →
      (semicolon = true → b.semicolon = true) → Move ts b { b with pending := pending, semicolon := semicolon }
  | leaf (b : Builder) {content : Leaf} {raws : Raws} (source : Span) {semicolon : Bool} : content.Begun ts raws →
      (semicolon = true → content.StopsAtMark b.excerpt ts source.stop) →
      Move ts b ({ b with semicolon := semicolon }.add (.leaf content raws (some source)))
  | comment (b : Builder) {t : Token} : t ∈ ts → t.kind = .comment → Move ts b (b.comment t)
  | openBlock (b : Builder) {f : Frame} : f.Begun ts → b.semicolon = false → Move ts b (b.openBlock f)
  | close {b b' : Builder} {t : Token} : t ∈ ts → t.kind = .closeCurly → b.close t = .ok b' → Move ts b b'
  | freeSemicolon (b : Builder) {t : Token} : t ∈ ts → t.kind = .semicolon → Move ts b (b.freeSemicolon t)

/-- Any number of moves. -/
abbrev Moves (ts : List Token) : Builder → Builder → Prop := Relation.ReflTransGen (Move ts)

variable {b b' : Builder} {t : Token} {ts us rest : List Token} {fault : Option Fault}

theorem Waits.nothing (ts : List Token) (b : Builder) : b.Waits ts [] := ⟨[], .nothing _ ts, .inl rfl⟩

theorem Waits.filler (ht : t ∈ ts) (hfiller : t.isFiller b.holes = true) : b.Waits ts (b.pending ++ t.text) :=
  ⟨t.text, .single ht hfiller, .inr rfl⟩

theorem Move.mono (hsubset : us ⊆ ts) (h : Move us b b') : Move ts b b' := by
  have hbetween : ∀ {r : Raws}, r.Between us → r.Between ts := fun ⟨x, hx, hmade⟩ => ⟨x, hx, hmade.mono hsubset⟩
  cases h with
  | wait semicolon hwaits hsemicolon =>
    obtain ⟨x, hmade, hwaits⟩ := hwaits
    exact .wait b semicolon ⟨x, hmade.mono hsubset, hwaits⟩ hsemicolon
  | leaf source hleaf hclosed =>
    refine .leaf b source ⟨hleaf.solid, hleaf.begun, hleaf.between, fun name params heq => ?_⟩ fun hs => ?_
    · obtain ⟨hraw, hname⟩ := hleaf.atRule name params heq
      exact ⟨hbetween hraw, hname⟩
    · obtain ⟨t, ht, hstops⟩ := hclosed hs
      exact ⟨t, hsubset ht, hstops⟩
  | comment ht hk => exact .comment b (hsubset ht) hk
  | openBlock hf hs => exact .openBlock b ⟨hf.raws, hbetween hf.between, hf.afterName, hf.start, hf.nodes⟩ hs
  | close ht hk hb => exact .close (hsubset ht) hk hb
  | freeSemicolon ht hk => exact .freeSemicolon b (hsubset ht) hk

theorem Moves.mono (hsubset : us ⊆ ts) (h : Moves us b b') : Moves ts b b' :=
  h.lift id fun _ _ => Move.mono hsubset

/-- What every move keeps is kept. -/
theorem Moves.keep {P : Builder → Prop} (h : Moves ts b b') (hmove : ∀ b b', Move ts b b' → P b → P b') (hb : P b) :
    P b' := by
  induction h with
  | refl => exact hb
  | tail _ hlast ih => exact hmove _ _ hlast ih

theorem Moves.addLeaf {pending : Text} (hwaits : b.Waits ts pending) (semicolon : Bool) {content : Leaf} {raws : Raws}
    (source : Span) (hleaf : content.Begun ts raws)
    (hclosed : semicolon = true → content.StopsAtMark b.excerpt ts source.stop) :
    Moves ts b ({ b with pending := pending, semicolon := semicolon }.add (.leaf content raws (some source))) :=
  .tail (.single (.wait b b.semicolon hwaits id)) (.leaf _ source hleaf hclosed)

theorem Moves.openTaken (b : Builder) {f : Frame} (hf : f.Begun ts) : Moves ts b (b.taken.openBlock f) :=
  .tail (.single (.wait b false (.nothing ts b) nofun)) (.openBlock _ hf rfl)

/-! ## Properties of all nodes -/

/-- All nodes that a builder holds have a property, and its open blocks have another. -/
structure Every (P : Node → Prop) (Q : Header → Raws → Span → Prop) (b : Builder) : Prop where
  nodes : EveryIn P b.nodes
  frames : ∀ f ∈ b.frames, Q f.header f.raws f.source ∧ EveryIn P f.nodes

namespace Every
variable {P : Node → Prop} {Q : Header → Raws → Span → Prop} {n : Node}

theorem mapNodes (h : b.Every P Q) {f : List Node → List Node} (hf : ∀ ns, EveryIn P ns → EveryIn P (f ns)) :
    (b.mapNodes f).Every P Q := by
  obtain ⟨hnodes, hframes⟩ := h
  unfold Builder.mapNodes
  split
  · exact ⟨hf _ hnodes, hframes⟩
  · rename_i frame frames he
    rw [he] at hframes
    obtain ⟨hframe, hothers⟩ := List.forall_mem_cons.1 hframes
    exact ⟨hnodes, List.forall_mem_cons.2 ⟨⟨hframe.1, hf _ hframe.2⟩, hothers⟩⟩

theorem add (h : b.Every P Q) (hn : n.Every P) : (b.add n).Every P Q :=
  h.mapNodes fun _ hns => everyIn_append.2 ⟨hns, hn, trivial⟩

theorem replaceLast (h : b.Every P Q) (hn : n.Every P) : (b.mapNodes (·.dropLast ++ [n])).Every P Q := by
  refine h.mapNodes fun ns hns => everyIn_append.2 ⟨everyIn_iff.2 fun m hm => ?_, hn, trivial⟩
  exact everyIn_iff.1 hns m ((List.dropLast_prefix ns).subset hm)

theorem openBlock (h : b.Every P Q) {f : Frame} (hf : Q f.header f.raws f.source) (hnil : f.nodes = []) :
    (b.openBlock f).Every P Q :=
  ⟨h.nodes, List.forall_mem_cons.2 ⟨⟨hf, hnil ▸ trivial⟩, h.frames⟩⟩

theorem lastNode (h : b.Every P Q) (hlast : b.lastNode? = some n) : n.Every P := by
  unfold lastNode? at hlast
  split at hlast
  · exact everyIn_iff.1 h.nodes n (List.mem_of_getLast? hlast)
  · rename_i f fs he
    have hf := h.frames f (by rw [he]; exact List.mem_cons_self)
    exact everyIn_iff.1 hf.2 n (List.mem_of_getLast? hlast)

end Every

/-! ## Constructs -/

theorem moves_declare {run : List Token} {custom : Bool} {reached : Nat} (hrun : run ⊆ ts)
    (hb : b.declare run custom reached = .ok b') : Moves ts b b' := by
  unfold declare at hb
  split at hb
  · rename_i last hlast
    simp only at hb
    obtain ⟨_, -, hb⟩ := bind_eq_ok.1 hb
    obtain ⟨_, -, hb⟩ := bind_eq_ok.1 hb
    obtain rfl := eq_of_guard hb
    refine .addLeaf (.nothing ts b) _ _ ⟨rfl, .known, rfl, nofun⟩ fun hs => ?_
    refine ⟨last, hrun (List.mem_of_getLast? hlast), of_decide_eq_true hs, fun i hstart hnone => ?_⟩
    rw [Token.anchor?, hnone, hstart]
    rfl
  · obtain rfl := Except.ok.inj hb
    exact .single (.wait b false (.nothing ts b) nofun)

theorem moves_fill (hb : b.fill ts = .ok b') : Moves ts b b' := by
  induction ts generalizing b with
  | nil =>
    obtain rfl := Except.ok.inj hb
    exact .refl
  | cons t ts ih =>
    have hrest : ts ⊆ t :: ts := List.subset_cons_self t ts
    rw [fill] at hb
    split at hb
    · rename_i hfills
      have hfiller : t.isFiller b.holes = true := by
        simp only [Bool.or_eq_true, decide_eq_true_eq] at hfills
        simp only [Token.isFiller, Bool.or_eq_true, decide_eq_true_eq]
        exact hfills.imp .inl id
      exact .head (.wait b b.semicolon (.filler List.mem_cons_self hfiller) id) ((ih hb).mono hrest)
    · split at hb
      · exact .head (.comment b List.mem_cons_self ‹_›) ((ih hb).mono hrest)
      · cases hb

theorem moves_openRule {run : List Token} (hrun : run ⊆ ts) : Moves ts b (b.openRule run) := by
  refine .openTaken b ⟨.known, ⟨_, rfl, .splitEnd ?_⟩, by simp, rfl, rfl⟩
  intro u hu
  refine hrun ?_
  rw [← Run.splitHoleLines_append b.holes run]
  exact List.mem_append_right _ hu

theorem moves_atRule (hb : b.atRule fault t ts = .ok (b', rest)) : Moves (t :: ts) b b' ∧ rest ⊆ t :: ts := by
  have hsplits := collectParams_splits [] ts
  unfold Builder.atRule at hb
  generalize collectParams [] ts = run at hb hsplits
  have hparams := hsplits.params_subset
  obtain ⟨ps, ending, unread⟩ := run
  have hps : ps ⊆ t :: ts := List.Subset.trans hparams (List.subset_cons_self t ts)
  simp only at hb
  split at hb
  · cases hb
  · cases ending with
    | semicolon =>
      obtain ⟨s, us, rfl, hs, rfl⟩ := hsplits
      obtain ⟨rfl, rfl⟩ := Prod.mk.inj (Except.ok.inj hb)
      refine ⟨.addLeaf (.nothing _ b) true _ (.ofAtRule .known ⟨_, rfl, .splitEnd hps⟩ rfl) fun _ => ⟨s, by simp, hs, ?_⟩,
        fun u hu => by simp_all⟩
      intro i hstart _
      simp only [List.head?_cons, Option.bind_some, hstart, Option.getD_some]
      rfl
    | block =>
      obtain ⟨s, -, rfl⟩ := hsplits
      obtain ⟨rfl, rfl⟩ := Prod.mk.inj (Except.ok.inj hb)
      exact ⟨.openTaken b ⟨.known, ⟨_, rfl, .splitEnd hps⟩, fun _ _ _ => rfl, rfl, rfl⟩, fun u hu => by simp_all⟩
    | boundary closing =>
      obtain ⟨hk, rfl⟩ := hsplits
      obtain ⟨built, hclose, hb⟩ := bind_eq_ok.1 hb
      obtain ⟨rfl, rfl⟩ := Prod.mk.inj (Except.ok.inj hb)
      exact ⟨.tail (Moves.addLeaf (.nothing _ b) false _ (.ofAtRule .known ⟨_, rfl, .splitEnd hps⟩ rfl) nofun)
        (.close (by simp) hk hclose), fun u hu => by simp_all⟩
    | exhausted =>
      obtain ⟨rfl, rfl⟩ := hsplits
      simp only [if_true] at hb
      split at hb
      · cases hb
      · obtain ⟨rfl, rfl⟩ := Prod.mk.inj (Except.ok.inj hb)
        -- What is split off its end waits, unless there is nothing else.
        refine ⟨.addLeaf ?_ false _ (.ofAtRule .known ⟨_, rfl, ?_⟩ rfl) nofun, List.nil_subset _⟩
        · split
          · exact ⟨_, (Text.MadeOf.splitEnd hps).filler b.holes, .inl rfl⟩
          · exact .nothing _ b
        · split
          · exact .nothing _ _
          · exact .splitEnd hps

theorem moves_run (hb : b.run fault t ts = .ok (b', rest)) : Moves (t :: ts) b b' ∧ rest ⊆ t :: ts := by
  have happ := (Run.collects t.isCustom false [] none (t :: ts)).append
  obtain ⟨-, hrest, hdone⟩ := run_spec rfl hb
  generalize Run.collect t.isCustom false [] none (t :: ts) = found at happ hrest hdone
  have hsubset := found.left_subset t.isCustom
  rw [happ, ← hrest] at hsubset
  obtain ⟨tokens, colon, opener, ending, unread⟩ := found
  refine ⟨?_, hsubset⟩
  have htokens : tokens ⊆ t :: ts := happ ▸ List.subset_append_left _ _
  cases ending <;> cases colon
  case block.false | block.true =>
    rw [hdone]
    exact moves_openRule (List.Subset.trans (List.dropLast_subset tokens) htokens)
  case semicolon.false | boundary.false | exhausted.false => exact (moves_fill hdone).mono htokens
  case semicolon.true =>
    obtain ⟨reached, hdone⟩ := hdone
    exact moves_declare htokens hdone
  case boundary.true | exhausted.true =>
    obtain ⟨reached, hdone⟩ := hdone
    refine moves_declare ?_ hdone
    split
    · exact htokens
    · exact fun u hu => htokens (Run.splitEnd_append Token.isTrivia tokens ▸ List.mem_append_left _ hu)

/-! ## Steps -/

theorem moves_step (hb : b.step fault t ts = .ok (b', rest)) : Moves (t :: ts) b b' ∧ rest ⊆ t :: ts := by
  have hrest : ts ⊆ t :: ts := List.subset_cons_self t ts
  unfold step at hb
  split at hb
  · obtain ⟨rfl, rfl⟩ := Prod.mk.inj (Except.ok.inj hb)
    exact ⟨.single (.wait b b.semicolon (.filler List.mem_cons_self (by simp [Token.isFiller, *])) id), hrest⟩
  · obtain ⟨rfl, rfl⟩ := Prod.mk.inj (Except.ok.inj hb)
    exact ⟨.single (.freeSemicolon b List.mem_cons_self ‹_›), hrest⟩
  · obtain ⟨built, hclose, he⟩ := map_eq_ok.1 hb
    obtain ⟨rfl, rfl⟩ := Prod.mk.inj he
    exact ⟨.single (.close List.mem_cons_self ‹_› hclose), hrest⟩
  · obtain ⟨rfl, rfl⟩ := Prod.mk.inj (Except.ok.inj hb)
    exact ⟨.single (.comment b List.mem_cons_self ‹_›), hrest⟩
  · exact moves_atRule hb
  · obtain ⟨rfl, rfl⟩ := Prod.mk.inj (Except.ok.inj hb)
    exact ⟨.openTaken b ⟨.known, ⟨[], rfl, .nothing _ _⟩, by simp, rfl, rfl⟩, hrest⟩
  · exact moves_run hb

theorem moves_steps {n : Nat} (hb : steps fault n b ts = .ok b') : Moves ts b b' := by
  induction n generalizing b ts with
  | zero =>
    cases ts with
    | nil =>
      obtain ⟨-, rfl⟩ := steps_nil hb
      exact .refl
    | cons t ts =>
      obtain rfl := Except.ok.inj hb
      exact .refl
  | succ n ih =>
    cases ts with
    | nil =>
      obtain ⟨-, rfl⟩ := steps_nil hb
      exact .refl
    | cons t ts =>
      obtain ⟨⟨b₁, rest⟩, hstep, hb⟩ := bind_eq_ok.1 hb
      obtain ⟨hmoves, hrest⟩ := moves_step hstep
      exact hmoves.trans ((ih hb).mono hrest)

end Builder

namespace Root
variable {e : Excerpt} {holes : List Hole} {role : Role} {r : Root}

/-- A root is what finishes a builder that moves over the tokens of its text lead to. -/
theorem finish_of_parse (h : Root.parse e holes role = .ok r) : ∃ built : Builder, built.finish role = .ok r ∧
    Builder.Moves (Reader.start e holes).drain.1 { excerpt := e, holes := (Reader.start e holes).holes } built := by
  unfold Root.parse at h
  rcases hdrain : (Reader.start e holes).drain with ⟨tokens, fault, last⟩
  simp only [hdrain] at h
  obtain ⟨built, hsteps, hfinish⟩ := bind_eq_ok.1 h
  exact ⟨built, hfinish, Builder.moves_steps hsteps⟩

/-- The nodes of a root are what moves over the tokens of its text lead to. -/
theorem moves_of_parse (h : Root.parse e holes role = .ok r) : ∃ built : Builder, built.nodes = r.nodes ∧
    Builder.Moves (Reader.start e holes).drain.1 { excerpt := e, holes := (Reader.start e holes).holes } built := by
  obtain ⟨built, hfinish, hmoves⟩ := finish_of_parse h
  refine ⟨built, ?_, hmoves⟩
  unfold Builder.finish at hfinish
  split at hfinish
  · cases hfinish
  · obtain rfl := Except.ok.inj hfinish
    rfl

end Root

end TaggedStyles
