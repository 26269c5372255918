import TaggedStyles.Proofs.Token.Refill
import TaggedStyles.Proofs.Tree.Parser

/-! What runs of tokens are split into, and what is read off them, does not depend on the bodies of holes: tokens in
the place of others give texts and runs in the place of those. Only the word that must not stand in front of a colon is
told by its characters, so a run can be refused for the characters in a body (`Outcomes.old`, `Outcomes.new`). -/
namespace TaggedStyles
set_option autoImplicit false

/-! ## Lists of pairs -/

section
variable {α : Type} {R : α → α → Prop} {p q : α → Bool} {as bs : List α} {a b : Option α}

theorem forall₂_isEmpty (h : List.Forall₂ R as bs) : bs.isEmpty = as.isEmpty := by
  cases h <;> rfl

theorem forall₂_takeWhile (h : List.Forall₂ R as bs) (hp : ∀ a b, R a b → p b = p a) :
    List.Forall₂ R (as.takeWhile p) (bs.takeWhile p) := by
  induction h with
  | nil => exact .nil
  | @cons a b as bs hab _ ih =>
    rw [List.takeWhile_cons, List.takeWhile_cons, hp a b hab]
    cases p a with
    | true => exact .cons hab ih
    | false => exact .nil

theorem forall₂_dropWhile (h : List.Forall₂ R as bs) (hp : ∀ a b, R a b → p b = p a) :
    List.Forall₂ R (as.dropWhile p) (bs.dropWhile p) := by
  induction h with
  | nil => exact .nil
  | @cons a b as bs hab hmore ih =>
    rw [List.dropWhile_cons, List.dropWhile_cons, hp a b hab]
    cases p a with
    | true => exact ih
    | false => exact .cons hab hmore

theorem forall₂_head? (h : List.Forall₂ R as bs) : Option.Rel R as.head? bs.head? := by
  cases h with
  | nil => exact .none
  | cons hab _ => exact .some hab

theorem forall₂_getLast? (h : List.Forall₂ R as bs) : Option.Rel R as.getLast? bs.getLast? := by
  rw [List.getLast?_eq_head?_reverse, List.getLast?_eq_head?_reverse]
  exact forall₂_head? (List.rel_reverse h)

theorem forall₂_getElem? (h : List.Forall₂ R as bs) (n : Nat) : Option.Rel R as[n]? bs[n]? := by
  rw [← List.head?_drop, ← List.head?_drop]
  exact forall₂_head? (List.forall₂_drop n h)

theorem forall₂_dropLast (h : List.Forall₂ R as bs) : List.Forall₂ R as.dropLast bs.dropLast := by
  rw [List.dropLast_eq_take, List.dropLast_eq_take, h.length_eq]
  exact List.forall₂_take _ h

theorem isSome_eq_of_rel (h : Option.Rel R a b) : b.isSome = a.isSome := by
  cases h <;> rfl

theorem getD_of_rel {d : α} (h : Option.Rel R a b) (hd : R d d) : R (a.getD d) (b.getD d) := by
  cases h with
  | none => exact hd
  | some hab => exact hab

theorem ite_of_rel {c : Prop} [Decidable c] {r r' s s' : α} (h : R r r') (h' : R s s') :
    R (if c then r else s) (if c then r' else s') := by
  split
  · exact h
  · exact h'

theorem any_eq_of_rel (h : Option.Rel R a b) (hpq : ∀ a b, R a b → q b = p a) : b.any q = a.any p := by
  cases h with
  | none => rfl
  | some hab => exact hpq _ _ hab

end

/-! ## Outcomes -/

/-- How two runs end: both with results or both with errors of their kinds, or one of them with an error that is in
doubt for the other. -/
inductive Outcomes {ε α : Type} (E : ε → ε → Prop) (D D' : ε → Prop) (R : α → α → Prop) :
    Except ε α → Except ε α → Prop
  | ok {a a' : α} : R a a' → Outcomes E D D' R (.ok a) (.ok a')
  | error {f f' : ε} : E f f' → Outcomes E D D' R (.error f) (.error f')
  | old {f : ε} {y : Except ε α} : D f → Outcomes E D D' R (.error f) y
  | new {f : ε} {y : Except ε α} : D' f → Outcomes E D D' R y (.error f)

namespace Outcomes
variable {ε ε' α β : Type} {E : ε → ε → Prop} {D D' : ε → Prop} {R : α → α → Prop} {S : β → β → Prop}
  {y y' : Except ε α} {f f' : α → Except ε β}

theorem bind (h : Outcomes E D D' R y y') (hf : ∀ a a', R a a' → Outcomes E D D' S (f a) (f' a')) :
    Outcomes E D D' S (y >>= f) (y' >>= f') := by
  cases h with
  | ok ha => exact hf _ _ ha
  | error he => exact .error he
  | old hd => exact .old hd
  | new hd => exact .new hd

theorem map {g g' : α → β} (h : Outcomes E D D' R y y') (hg : ∀ a a', R a a' → S (g a) (g' a')) :
    Outcomes E D D' S (y.map g) (y'.map g') := by
  cases h with
  | ok ha => exact .ok (hg _ _ ha)
  | error he => exact .error he
  | old hd => exact .old hd
  | new hd => exact .new hd

theorem mapError {E' : ε' → ε' → Prop} {C C' : ε' → Prop} {g g' : ε → ε'} (h : Outcomes E D D' R y y')
    (hE : ∀ e e', E e e' → E' (g e) (g' e')) (hD : ∀ e, D e → C (g e)) (hD' : ∀ e, D' e → C' (g' e)) :
    Outcomes E' C C' R (y.mapError g) (y'.mapError g') := by
  cases h with
  | ok ha => exact .ok ha
  | error he => exact .error (hE _ _ he)
  | old hd => exact .old (hD _ hd)
  | new hd => exact .new (hD' _ hd)

theorem mono {C C' : ε → Prop} (h : Outcomes E D D' R y y') (hD : ∀ e, D e → C e) (hD' : ∀ e, D' e → C' e) :
    Outcomes E C C' R y y' := by
  cases h with
  | ok ha => exact .ok ha
  | error he => exact .error he
  | old hd => exact .old (hD _ hd)
  | new hd => exact .new (hD' _ hd)

end Outcomes

namespace Refill
variable {x : Refill} {t t' : Token} {ts ts' us us' : List Token} {before before' value value' mark mark' : Text}
  {custom : Bool}

/-- Runs of tokens in the place of each other. -/
abbrev Runs (x : Refill) : List Token → List Token → Prop := List.Forall₂ x.Tokens

/-- Two texts, each with a run. -/
def Splits (x : Refill) (a a' : Text × List Token) : Prop := x.Texts a.1 a'.1 ∧ x.Runs a.2 a'.2

/-- How two runs fare that are refused for one token. -/
abbrev TokenOutcomes (x : Refill) {α : Type} (R : α → α → Prop) : Except Token α → Except Token α → Prop :=
  Outcomes (fun t t' => x.Texts t.text t'.text) (fun t => x.Doubtful t.text) (fun t => x.swap.Doubtful t.text) R

namespace Tokens

theorem isTrivia (h : x.Tokens t t') : t'.isTrivia = t.isTrivia := by
  rw [Token.isTrivia, Token.isTrivia, h.kind]

theorem isSpaceToken (h : x.Tokens t t') : Run.isSpaceToken t' = Run.isSpaceToken t := by
  rw [Run.isSpaceToken, Run.isSpaceToken, h.kind]

theorem endsProperty (h : x.Tokens t t') : Run.endsProperty t' = Run.endsProperty t := by
  rw [Run.endsProperty, Run.endsProperty, h.kind]

end Tokens

namespace Runs

theorem joined (h : x.Runs ts ts') : x.Texts (Token.joined ts) (Token.joined ts') := by
  induction h with
  | nil => exact .same x []
  | cons ht _ ih => exact ht.text.append ih

theorem all_isTrivia (h : x.Runs ts ts') : ts'.all Token.isTrivia = ts.all Token.isTrivia := by
  induction h with
  | nil => rfl
  | cons ht _ ih => rw [List.all_cons, List.all_cons, ht.isTrivia, ih]

theorem spells (h : x.Runs ts ts') : ∀ t ∈ ts, Lexeme.Spells t.kind t.text := by
  induction h with
  | nil => simp
  | cons ht _ ih => exact List.forall_mem_cons.2 ⟨ht.spells, ih⟩

theorem spells' (h : x.Runs ts ts') : ∀ t ∈ ts', Lexeme.Spells t.kind t.text := by
  induction h with
  | nil => simp
  | cons ht _ ih => exact List.forall_mem_cons.2 ⟨ht.kind ▸ ht.spells', ih⟩

/-! ## Ends of a run -/

theorem splitEnd {p : Token → Bool} (h : x.Runs ts ts') (hp : ∀ t t', x.Tokens t t' → p t' = p t) :
    x.Runs (Run.splitEnd p ts).1 (Run.splitEnd p ts').1 ∧ x.Runs (Run.splitEnd p ts).2 (Run.splitEnd p ts').2 :=
  ⟨List.rel_reverse (forall₂_dropWhile (List.rel_reverse h) hp),
    List.rel_reverse (forall₂_takeWhile (List.rel_reverse h) hp)⟩

/-! ## Cleaned values -/

theorem isGap {o o' : Option Token} (h : Option.Rel x.Tokens o o') : Run.isGap o' = Run.isGap o := by
  cases h with
  | none => rfl
  | some h => exact congrArg (fun k => decide (k = Token.Kind.space)) h.kind

theorem cleanFrom {o o' : Option Token} {whole : Bool} (ho : Option.Rel x.Tokens o o') (hvalue : x.Texts value value')
    (h : x.Runs ts ts') :
    x.Texts (Run.cleanFrom custom o value whole ts).1 (Run.cleanFrom custom o' value' whole ts').1 ∧
      (Run.cleanFrom custom o' value' whole ts').2 = (Run.cleanFrom custom o value whole ts).2 := by
  induction h generalizing o o' value value' whole with
  | nil => exact ⟨hvalue, rfl⟩
  | @cons t t' ts ts' ht hts ih =>
    have hcomma : decide (value'.getLast? = some ',') = decide (value.getLast? = some ',') :=
      decide_eq_decide.2 (hvalue.getLast?_eq_iff (by decide)).symm
    rw [Run.cleanFrom, Run.cleanFrom, ht.kind, forall₂_isEmpty hts, isGap ho, isGap (forall₂_head? hts), hcomma]
    split
    · exact ⟨hvalue, rfl⟩
    · split
      · exact ih (.some ht) hvalue
      · exact ih (.some ht) (hvalue.append ht.text)

end Runs

/-- A cleaned value with the text it was cleaned from. -/
def RawValues (x : Refill) (r r' : RawValue) : Prop := x.Texts r.value r'.value ∧ x.Texts r.raw r'.raw

namespace Runs

theorem clean (custom : Bool) (h : x.Runs ts ts') : x.Texts (Run.clean custom ts).1 (Run.clean custom ts').1 ∧
    Option.Rel x.RawValues (Run.clean custom ts).2 (Run.clean custom ts').2 := by
  obtain ⟨hvalue, hwhole⟩ :
      x.Texts (Run.cleanFrom custom none [] true ts).1 (Run.cleanFrom custom none [] true ts').1 ∧
      (Run.cleanFrom custom none [] true ts').2 = (Run.cleanFrom custom none [] true ts).2 :=
    h.cleanFrom .none (.same x [])
  unfold Run.clean
  generalize Run.cleanFrom custom none [] true ts = y at hvalue hwhole
  generalize Run.cleanFrom custom none [] true ts' = y' at hvalue hwhole
  obtain ⟨v, whole⟩ := y
  obtain ⟨v', whole'⟩ := y'
  obtain rfl : whole' = whole := hwhole
  cases whole' with
  | true => exact ⟨hvalue, .none⟩
  | false => exact ⟨hvalue, .some ⟨hvalue, h.joined⟩⟩

/-! ## In front of a selector -/

theorem holeLinesFrom (h : x.Runs ts ts') (passed cut : Nat) :
    Run.holeLinesFrom x.newHoles passed cut ts' = Run.holeLinesFrom x.oldHoles passed cut ts := by
  induction h generalizing passed cut with
  | nil => rfl
  | @cons t t' ts ts' ht hts ih =>
    rw [Run.holeLinesFrom, Run.holeLinesFrom, ht.kind, ht.hole,
      any_eq_of_rel (forall₂_head? hts) fun _ _ => Tokens.hole, ih, ih]
    by_cases hk : t.kind = .space
    · rw [ht.spaces hk]
    · rw [if_neg hk, if_neg hk]

theorem splitHoleLines (h : x.Runs ts ts') :
    x.Runs (Run.splitHoleLines x.oldHoles ts).1 (Run.splitHoleLines x.newHoles ts').1 ∧
      x.Runs (Run.splitHoleLines x.oldHoles ts).2 (Run.splitHoleLines x.newHoles ts').2 := by
  unfold Run.splitHoleLines
  rw [any_eq_of_rel (forall₂_head? h) fun _ _ => Tokens.hole, h.holeLinesFrom, ← h.length_eq]
  split
  · simp only
    split
    · exact ⟨List.forall₂_take _ h, List.forall₂_drop _ h⟩
    · exact ⟨.nil, h⟩
  · exact ⟨.nil, h⟩

/-! ## Pieces of a declaration -/

theorem splitProperty (hbefore : x.Texts before before') (h : x.Runs ts ts') :
    x.TokenOutcomes x.Splits (Run.splitProperty x.oldHoles before ts) (Run.splitProperty x.newHoles before' ts') := by
  induction h generalizing before before' with
  | nil => exact .ok ⟨hbefore, .nil⟩
  | @cons t t' ts ts' ht hts ih =>
    have hnext : (ts'.head?.any fun u => decide (u.kind = .space) || u.isHole x.newHoles) =
        ts.head?.any fun u => decide (u.kind = .space) || u.isHole x.oldHoles :=
      any_eq_of_rel (forall₂_head? hts) fun u u' hu => by rw [hu.kind, hu.hole]
    rw [Run.splitProperty, Run.splitProperty, ht.kind, ht.hole, hnext, forall₂_isEmpty hts]
    split
    · exact .ok ⟨hbefore, .cons ht hts⟩
    · split
      · exact .error ht.text
      · exact ih (hbefore.append ht.text)

/-- The one place where characters tell: a word in front of the colon. -/
theorem splitColon (hbefore : x.Texts before before') (h : x.Runs ts ts') :
    x.TokenOutcomes x.Splits (Run.splitColon before ts) (Run.splitColon before' ts') := by
  induction h generalizing before before' with
  | nil => exact .ok ⟨hbefore, .nil⟩
  | @cons t t' ts ts' ht hts ih =>
    rw [Run.splitColon, Run.splitColon, ht.kind]
    by_cases hcolon : t.kind = .colon
    · rw [if_pos hcolon, if_pos hcolon]
      exact .ok ⟨hbefore.append ht.text, hts⟩
    · rw [if_neg hcolon, if_neg hcolon]
      have hmore := ih (hbefore.append ht.text)
      by_cases hword : t.kind = .word
      · simp only [hword, decide_true, Bool.true_and]
        obtain hany | hdoubt | hdoubt := ht.text.any_cases
        · rw [hany]
          split
          · exact .error ht.text
          · exact hmore
        · rw [if_pos hdoubt.any]
          exact .old hdoubt
        · rw [if_pos hdoubt.any]
          exact .new hdoubt
      · simpa only [hword, decide_false, Bool.false_and, Bool.false_eq_true, if_false] using hmore

/-! ## The important mark -/

theorem opensMark (h : x.Texts mark mark') : Run.opensMark mark' = Run.opensMark mark := by
  obtain ⟨front, back, mid, mid', hmid, ⟨-, hopened, hshown⟩, -, hopened', hshown'⟩ := h.trim
  refine decide_eq_decide.2 ?_
  rw [Text.trim, Text.trim, hopened, hopened', hshown, hshown']
  exact (hmid.head?_eq_iff (by decide)).symm

theorem unwindMark (n : Nat) (h : x.Runs ts ts') (hmark : x.Texts mark mark') :
    x.Runs (Run.unwindMark n ts mark).1 (Run.unwindMark n ts' mark').1 ∧
      x.Texts (Run.unwindMark n ts mark).2 (Run.unwindMark n ts' mark').2 := by
  induction n generalizing ts ts' mark mark' with
  | zero => exact ⟨h, hmark⟩
  | succ n ih =>
    have hlast : x.Texts ((ts.getLast?.map (·.text)).getD []) ((ts'.getLast?.map (·.text)).getD []) := by
      have hrel := forall₂_getLast? h
      generalize ts.getLast? = o at hrel ⊢
      generalize ts'.getLast? = o' at hrel ⊢
      cases hrel with
      | none => exact .same x []
      | some hu => exact hu.text
    rw [Run.unwindMark, Run.unwindMark, opensMark hmark,
      any_eq_of_rel (forall₂_getElem? h (n + 1)) fun t t' ht => congrArg (!·) ht.isSpaceToken]
    split
    · exact ⟨h, hmark⟩
    · exact ih (forall₂_dropLast h) (hlast.append hmark)

theorem splitImportant (h : x.Runs ts ts') :
    x.Runs (Run.splitImportant ts).1 (Run.splitImportant ts').1 ∧
      (Run.splitImportant ts').2.1 = (Run.splitImportant ts).2.1 ∧
      Option.Rel x.Texts (Run.splitImportant ts).2.2 (Run.splitImportant ts').2.2 := by
  obtain ⟨hkept, htrivia⟩ := h.splitEnd fun _ _ => Tokens.isTrivia
  unfold Run.splitImportant
  simp only
  have hlength := hkept.length_eq
  have hrel := forall₂_getLast? hkept
  obtain ⟨hvalue, hspaces⟩ := Runs.splitEnd (p := Run.isSpaceToken) (forall₂_dropLast hkept) fun _ _ =>
    Tokens.isSpaceToken
  generalize (Run.splitEnd Token.isTrivia ts).1.getLast? = o at hrel ⊢
  generalize (Run.splitEnd Token.isTrivia ts').1.getLast? = o' at hrel ⊢
  cases hrel with
  | none => exact ⟨h, rfl, .none⟩
  | @some last last' hlast =>
    simp only
    by_cases hwhole : last.text.map Char.toLower = "!important".toList
    · have hwhole' := (hlast.text.toLower_iff (by decide)).1 hwhole
      have hmark := (hspaces.joined.append hlast.text).append htrivia.joined
      rw [if_pos hwhole, if_pos hwhole']
      refine ⟨hvalue, rfl, ?_⟩
      by_cases husual : Token.joined (Run.splitEnd Run.isSpaceToken (Run.splitEnd Token.isTrivia ts).1.dropLast).2 ++
          last.text ++ Token.joined (Run.splitEnd Token.isTrivia ts).2 = Run.usualMark
      · rw [if_pos husual, if_pos ((hmark.eq_iff (by decide)).1 husual)]
        exact .none
      · rw [if_neg husual, if_neg fun h => husual ((hmark.eq_iff (by decide)).2 h)]
        exact .some hmark
    · rw [if_neg hwhole, if_neg fun h => hwhole ((hlast.text.toLower_iff (by decide)).2 h)]
      by_cases hpart : last.text.map Char.toLower = "important".toList
      · rw [if_pos hpart, if_pos ((hlast.text.toLower_iff (by decide)).1 hpart), ← hlength]
        obtain ⟨hleft, hmark⟩ := h.unwindMark ((Run.splitEnd Token.isTrivia ts).1.length - 1) (.same x [])
        rw [opensMark hmark]
        split
        · exact ⟨hleft, rfl, .some hmark⟩
        · exact ⟨h, rfl, .none⟩
      · rw [if_neg hpart, if_neg fun h => hpart ((hlast.text.toLower_iff (by decide)).2 h)]
        exact ⟨h, rfl, .none⟩

end Runs

/-! ## A colon in a value -/

/-- What a colon tells of two runs. -/
inductive Verdicts (x : Refill) : Run.ColonVerdict → Run.ColonVerdict → Prop
  | absent : Verdicts x .absent .absent
  | double {t t' : Token} : Verdicts x (.double t) (.double t')
  | within {ts ts' : List Token} : x.Runs ts ts' → Verdicts x (.within ts) (.within ts')

namespace Runs

theorem findColon {passed passed' : List Token} {o o' : Option Token} (h : x.Runs ts ts') (depth : Nat)
    (hpassed : x.Runs passed passed') (ho : Option.Rel x.Tokens o o') :
    x.Verdicts (Run.findColon passed o depth ts) (Run.findColon passed' o' depth ts') := by
  induction h generalizing passed passed' o o' depth with
  | nil => exact .absent
  | @cons t t' ts ts' ht hts ih =>
    rw [Run.findColon.eq_def, Run.findColon.eq_def]
    simp only [ht.kind]
    generalize (if t.kind = .openParen then depth + 1 else if t.kind = .closeParen then depth - 1 else depth) = depth
    split
    · cases ho with
      | none => exact .double
      | @some b b' hb =>
        have hprogid : decide (b'.text = "progid".toList) = decide (b.text = "progid".toList) :=
          decide_eq_decide.2 (hb.text.eq_iff (by decide)).symm
        simp only [hb.kind, hprogid]
        split
        · exact ih _ (.cons ht hpassed) (.some hb)
        · exact .within hpassed
    · exact ih _ (.cons ht hpassed) (.some ht)

theorem colonFault? (h : x.Runs ts ts') : (Run.colonFault? ts').map Prod.fst = (Run.colonFault? ts).map Prod.fst := by
  have hverdict := findColon h 0 .nil .none
  unfold Run.colonFault?
  generalize Run.findColon [] none 0 ts = verdict at hverdict
  generalize Run.findColon [] none 0 ts' = verdict' at hverdict
  cases hverdict with
  | absent => rfl
  | double => rfl
  | @within passed passed' hpassed =>
    have hsolid : x.Runs (passed.filter (!Run.isSpaceToken ·)) (passed'.filter (!Run.isSpaceToken ·)) :=
      List.rel_filter (fun t t' ht => by simp only [ht.isSpaceToken]) hpassed
    have hsecond := forall₂_getElem? hsolid 1
    have hlast := forall₂_getLast? hpassed
    simp only
    generalize (passed.filter (!Run.isSpaceToken ·))[1]? = o at hsecond ⊢
    generalize (passed'.filter (!Run.isSpaceToken ·))[1]? = o' at hsecond ⊢
    generalize passed.getLast? = u at hlast ⊢
    generalize passed'.getLast? = u' at hlast ⊢
    cases hsecond with
    | some => rfl
    | none => cases hlast <;> rfl

theorem colon_mem (custom : Bool) (h : x.Runs ts ts') (hfault : (Run.colonFault? ts).isSome = true) :
    ts.all Token.isTrivia = false ∧ ':' ∈ (Run.clean custom ts).1 ∧ ':' ∈ (Run.clean custom ts').1 := by
  have hfault' : (Run.colonFault? ts').isSome = true := by
    rw [← Option.isSome_map, h.colonFault?, Option.isSome_map, hfault]
  obtain ⟨hcolon, hbare⟩ := Run.mem_clean_of_colonFault? custom h.spells hfault
  exact ⟨hbare, hcolon, (Run.mem_clean_of_colonFault? custom h.spells' hfault').1⟩

end Runs

/-! ## Runs as they are found -/

inductive Endings (x : Refill) : Run.Ending → Run.Ending → Prop
  | semicolon : Endings x .semicolon .semicolon
  | block : Endings x .block .block
  | boundary {t t' : Token} : x.Tokens t t' → Endings x (.boundary t) (.boundary t')
  | exhausted : Endings x .exhausted .exhausted

theorem Endings.exhausted_iff {e e' : Run.Ending} (h : x.Endings e e') : e' = .exhausted ↔ e = .exhausted := by
  cases h <;> simp

structure Founds (x : Refill) (f f' : Run.Found) : Prop where
  tokens : x.Runs f.tokens f'.tokens
  colon : f'.colon = f.colon
  opener : f'.opener.isSome = f.opener.isSome
  ending : x.Endings f.ending f'.ending
  unread : x.Runs f.unread f'.unread

theorem Founds.cons {f f' : Run.Found} (h : x.Founds f f') (ht : x.Tokens t t') : x.Founds (f.cons t) (f'.cons t') :=
  ⟨.cons ht h.tokens, h.colon, h.opener, h.ending, h.unread⟩

namespace Runs

theorem collect {colon : Bool} {closers : List Token.Kind} {o o' : Option Token} (ho : o'.isSome = o.isSome)
    (h : x.Runs ts ts') :
    x.Founds (Run.collect custom colon closers o ts) (Run.collect custom colon closers o' ts') := by
  induction h generalizing colon closers o o' with
  | nil => exact ⟨.nil, rfl, ho, .exhausted, .nil⟩
  | @cons t t' ts ts' ht hts ih =>
    rw [Run.collect.eq_def, Run.collect.eq_def]
    simp only [ht.kind]
    cases t.kind.closer? (custom && colon) with
    | some closer => exact (ih (by cases o <;> cases o' <;> simp_all)).cons ht
    | none =>
      cases closers with
      | nil =>
        simp only
        cases t.kind with
        | semicolon => exact ⟨.cons ht .nil, rfl, ho, .semicolon, hts⟩
        | openCurly => exact ⟨.cons ht .nil, rfl, ho, .block, hts⟩
        | closeCurly | atWord => exact ⟨.nil, rfl, ho, .boundary ht, .cons ht hts⟩
        | _ => exact (ih ho).cons ht
      | cons closer outer =>
        simp only
        split
        · refine (ih ?_).cons ht
          split
          · rfl
          · exact ho
        · exact (ih ho).cons ht

end Runs

structure AtRuleRuns (x : Refill) (r r' : AtRuleRun) : Prop where
  params : x.Runs r.params r'.params
  ending : x.Endings r.ending r'.ending
  unread : x.Runs r.unread r'.unread

theorem Runs.collectParams (closers : List Token.Kind) (h : x.Runs ts ts') :
    x.AtRuleRuns (collectParams closers ts) (collectParams closers ts') := by
  induction h generalizing closers with
  | nil => exact ⟨.nil, .exhausted, .nil⟩
  | @cons t t' ts ts' ht hts ih =>
    rw [TaggedStyles.collectParams.eq_def, TaggedStyles.collectParams.eq_def]
    simp only [ht.kind]
    split
    · exact ⟨.nil, .semicolon, .cons ht hts⟩
    · exact ⟨.nil, .block, hts⟩
    · exact ⟨.nil, .boundary ht, hts⟩
    · exact ⟨.cons ht (ih _).params, (ih _).ending, (ih _).unread⟩

end Refill
end TaggedStyles
