import Mathlib.Data.List.Induction
import TaggedStyles.Proofs.Tree.Parser

/-! Brackets in runs. A declaration and the header of a rule have all their round and square brackets closed, each by its
own mark, and a run that leaves one open is an error at the outermost of them. The parameters of an at-rule have theirs
closed too, unless they go on to the end of the text: there an open bracket is no error, and takes all that is left. -/
namespace TaggedStyles
set_option autoImplicit false

/-! ## Round and square brackets -/

namespace Token

/-- The mark that closes a round or square bracket. -/
def Kind.awaited? : Kind → Option Kind
  | .openParen => some .closeParen
  | .openSquare => some .closeSquare
  | _ => none

/-- Take a closing mark off the top of a stack if it is awaited there. -/
def Kind.unstack (k : Kind) (stack : List Kind) : List Kind := if stack.head? = some k then stack.tail else stack

/-- The marks that are awaited behind some tokens, innermost first; a mark that is not awaited next closes nothing. -/
def awaits : List Kind → List Token → List Kind
  | stack, [] => stack
  | stack, t :: ts =>
    match t.kind.awaited? with
    | some k => awaits (k :: stack) ts
    | none => awaits (t.kind.unstack stack) ts

/-- Behind each round or square bracket comes the mark that closes it, as soon as all brackets between them are closed. -/
def BracketsClose (ts : List Token) : Prop :=
  ∀ us o vs k, ts = us ++ o :: vs → o.kind.awaited? = some k →
    ∃ inside c rest, vs = inside ++ c :: rest ∧ c.kind = k ∧ awaits [k] inside = [k]

variable {stack closers : List Kind} {t : Token} {ts us vs : List Token} {k : Kind}

theorem awaits_append (stack : List Kind) (ts us : List Token) : awaits stack (ts ++ us) = awaits (awaits stack ts) us := by
  induction ts generalizing stack with
  | nil => rfl
  | cons t ts ih =>
    rw [List.cons_append, awaits, awaits]
    split
    · exact ih _
    · exact ih _

theorem awaits_opening (h : t.kind.awaited? = some k) : awaits stack (t :: ts) = awaits (k :: stack) ts := by
  rw [awaits, h]

theorem awaits_other (h : t.kind.awaited? = none) : awaits stack (t :: ts) = awaits (t.kind.unstack stack) ts := by
  rw [awaits, h]

theorem Kind.awaited?_awaited {k' : Kind} (h : k'.awaited? = some k) : k.awaited? = none := by
  cases k' <;> cases h <;> rfl

/-- Behind an opening bracket either its mark comes, or it is awaited to the end. -/
theorem closes_or_stays (k : Kind) (vs : List Token) :
    (∃ inside c rest, vs = inside ++ c :: rest ∧ c.kind = k ∧ awaits [k] inside = [k]) ∨
      ∃ top, ∀ stack, awaits (k :: stack) vs = top ++ k :: stack := by
  induction vs using List.reverseRecOn with
  | nil => exact .inr ⟨[], fun stack => rfl⟩
  | append_singleton vs t ih =>
    rcases ih with ⟨inside, c, rest, rfl, hc, hinside⟩ | ⟨top, htop⟩
    · exact .inl ⟨inside, c, rest ++ [t], by simp, hc, hinside⟩
    cases hk : t.kind.awaited? with
    | some k' =>
      refine .inr ⟨k' :: top, fun stack => ?_⟩
      rw [awaits_append, htop, awaits_opening hk]
      rfl
    | none =>
      cases top with
      | nil =>
        by_cases ht : t.kind = k
        · exact .inl ⟨vs, t, [], rfl, ht, htop []⟩
        · refine .inr ⟨[], fun stack => ?_⟩
          rw [awaits_append, htop, awaits_other hk, Kind.unstack]
          exact if_neg (by simpa using Ne.symm ht)
      | cons p top =>
        by_cases ht : p = t.kind
        · refine .inr ⟨top, fun stack => ?_⟩
          rw [awaits_append, htop, awaits_other hk, Kind.unstack]
          exact if_pos (by simp [ht])
        · refine .inr ⟨p :: top, fun stack => ?_⟩
          rw [awaits_append, htop, awaits_other hk, Kind.unstack]
          exact if_neg (by simpa using ht)

theorem BracketsClose.right (h : BracketsClose (us ++ ts)) : BracketsClose ts := by
  rintro vs o ws k rfl hk
  exact h (us ++ vs) o ws k (List.append_assoc ..).symm hk

/-- All brackets are closed exactly if no mark is awaited behind them. -/
theorem bracketsClose_iff (ts : List Token) : BracketsClose ts ↔ awaits [] ts = [] := by
  constructor
  · intro h
    induction hn : ts.length using Nat.strongRecOn generalizing ts with
    | ind n ih =>
      cases ts with
      | nil => rfl
      | cons t ts =>
        cases hk : t.kind.awaited? with
        | none =>
          rw [awaits_other hk]
          exact ih ts.length (by simp [← hn]) ts (BracketsClose.right (show BracketsClose ([t] ++ ts) from h)) rfl
        | some k =>
          obtain ⟨inside, c, rest, rfl, hc, hinside⟩ := h [] t ts k rfl hk
          have hclose : BracketsClose rest := by
            have hall : BracketsClose (t :: inside ++ [c] ++ rest) := by simpa using h
            exact hall.right
          have hlength : rest.length < n := by
            rw [← hn, List.length_cons, List.length_append, List.length_cons]
            omega
          have hpop : c.kind.unstack [k] = [] := by
            rw [hc]
            exact if_pos rfl
          rw [awaits_opening hk, awaits_append, hinside, awaits_other (by rw [hc]; exact Kind.awaited?_awaited hk), hpop]
          exact ih rest.length hlength rest hclose rfl
  · rintro h us o vs k rfl hk
    refine (closes_or_stays k vs).resolve_right ?_
    rintro ⟨top, htop⟩
    rw [awaits_append, awaits_opening hk, htop] at h
    simp at h

instance (ts : List Token) : Decidable (BracketsClose ts) := decidable_of_iff' _ (bracketsClose_iff ts)

/-! ## Fewer marks than the parser awaits -/

theorem Kind.unstack_sublist (k : Kind) (stack : List Kind) : (k.unstack stack).Sublist stack := by
  unfold unstack
  split
  · exact List.tail_sublist stack
  · exact .refl stack

theorem Kind.unstack_sublist_of_cons (h : stack.Sublist (k :: closers)) : (k.unstack stack).Sublist closers := by
  unfold unstack
  cases h with
  | cons _ h =>
    split
    · exact (List.tail_sublist stack).trans h
    · exact h
  | cons_cons _ h => exact if_pos rfl ▸ h

theorem Kind.unstack_sublist_unstack (h : stack.Sublist closers) : (k.unstack stack).Sublist (k.unstack closers) := by
  by_cases hhead : closers.head? = some k
  · obtain ⟨outer, rfl⟩ := List.head?_eq_some_iff.1 hhead
    have hpop : k.unstack (k :: outer) = outer := if_pos rfl
    rw [hpop]
    exact unstack_sublist_of_cons h
  · have hkeep : k.unstack closers = closers := if_neg hhead
    rw [hkeep]
    exact (unstack_sublist k stack).trans h

theorem Kind.closer?_cases {braces : Bool} {closer : Kind} (h : k.closer? braces = some closer) :
    k.awaited? = some closer ∨ k.awaited? = none := by
  cases k <;> cases braces <;> simp_all [closer?, awaited?]

theorem Kind.awaited?_of_closer? {braces : Bool} (h : k.closer? braces = none) : k.awaited? = none := by
  cases k <;> simp_all [closer?, awaited?]

end Token

namespace Run
variable {custom colon : Bool} {closers stack : List Token.Kind} {opener : Option Token} {ts : List Token} {f : Found}

/-- A run that leaves no bracket open closes all round and square ones. -/
theorem awaits_collect (hawaits : Awaits closers opener) (hopener : (collect custom colon closers opener ts).opener = none)
    (hstack : stack.Sublist closers) : Token.awaits stack (collect custom colon closers opener ts).tokens = [] := by
  induction ts generalizing colon closers opener stack with
  | nil =>
    obtain rfl := hawaits.1.2 hopener
    exact List.sublist_nil.1 hstack
  | cons t ts ih =>
    rw [collect.eq_def] at hopener ⊢
    simp only at hopener ⊢
    split at hopener
    · rename_i closer hc
      rcases Token.Kind.closer?_cases hc with hk | hk
      · exact (Token.awaits_opening hk).trans (ih (hawaits.push hc) hopener (hstack.cons_cons closer))
      · refine (Token.awaits_other hk).trans (ih (hawaits.push hc) hopener ?_)
        exact ((Token.Kind.unstack_sublist _ _).trans hstack).cons closer
    · rename_i hc
      have hk := Token.Kind.awaited?_of_closer? hc
      split at hopener
      · obtain rfl := List.sublist_nil.1 hstack
        have hnone : ∀ us, Token.awaits [] (t :: us) = Token.awaits [] us := fun us => Token.awaits_other hk
        split at hopener
        · exact hnone []
        · exact hnone []
        · rfl
        · rfl
        · exact (hnone _).trans (ih hawaits hopener (.refl []))
        · exact (hnone _).trans (ih hawaits hopener (.refl []))
      · rename_i closer outer
        split at hopener
        · rename_i ht
          rw [if_pos ht]
          refine (Token.awaits_other hk).trans (ih hawaits.pop hopener ?_)
          exact Token.Kind.unstack_sublist_of_cons (ht ▸ hstack)
        · rename_i ht
          rw [if_neg ht]
          exact (Token.awaits_other hk).trans (ih hawaits hopener ((Token.Kind.unstack_sublist _ _).trans hstack))

theorem bracketsClose_of_collect (hopener : (collect custom colon [] none ts).opener = none) :
    Token.BracketsClose (collect custom colon [] none ts).tokens :=
  (Token.bracketsClose_iff _).2 (awaits_collect ⟨by simp, by simp⟩ hopener (.refl []))

theorem Collects.open_at_end (h : Collects custom colon closers opener ts f) (hawaits : Awaits closers opener)
    {o : Token} (hopener : f.opener = some o) : f.ending = .exhausted := by
  induction h with
  | exhausted => rfl
  | semicolon | block | boundary => rw [hawaits.1.1 rfl] at hopener; cases hopener
  | opening hc _ ih => exact ih (hawaits.push hc) hopener
  | colon _ _ ih | plain _ _ ih | inside _ _ ih => exact ih hawaits hopener
  | closing _ _ ih => exact ih hawaits.pop hopener

/-- What is left open is a bracket, or a brace in the value of a custom property. -/
theorem Collects.opener_opens (h : Collects custom colon closers opener ts f) :
    ∀ o ∈ f.opener, (o.kind.awaited?.isSome = true ∨ custom = true ∧ o.kind = .openCurly) ∨ o ∈ opener := by
  induction h with
  | exhausted | semicolon | block | boundary => exact fun o ho => .inr ho
  | colon _ _ ih | plain _ _ ih | inside _ _ ih => exact ih
  | @opening colon closers opener u us f closer hc _ ih =>
    intro o ho
    rcases ih o ho with hopens | hmem
    · exact .inl hopens
    · cases opener with
      | some o' => exact .inr hmem
      | none =>
        obtain rfl := Option.some.inj hmem
        refine .inl ?_
        cases hk : u.kind <;> simp_all [Token.Kind.closer?, Token.Kind.awaited?]
  | @closing colon closer outer opener u us f _ _ ih =>
    intro o ho
    rcases ih o ho with hopens | hmem
    · exact .inl hopens
    · split at hmem
      · cases hmem
      · exact .inr hmem

end Run

/-! ## Parameters -/

namespace AtRuleRun
variable {closers stack : List Token.Kind} {t : Token} {ts : List Token}

/-- The marks that are awaited in the parameters of an at-rule: a brace is only met inside a bracket. -/
def Awaits (closers : List Token.Kind) : Prop :=
  (∀ k ∈ closers, k = .closeParen ∨ k = .closeSquare ∨ k = .closeCurly) ∧ closers.getLast? ≠ some .closeCurly

theorem Awaits.push (h : Awaits closers) {closer : Token.Kind} (hc : t.kind.closer? (!closers.isEmpty) = some closer) :
    Awaits (closer :: closers) := by
  refine ⟨List.forall_mem_cons.2 ⟨?_, h.1⟩, ?_⟩
  · cases hk : t.kind <;> simp_all [Token.Kind.closer?]
  · cases closers with
    | nil =>
      cases hk : t.kind <;> simp only [hk, Token.Kind.closer?] at hc <;> cases hc <;> simp
    | cons k closers =>
      rw [List.getLast?_cons_cons]
      exact h.2

theorem Awaits.pop (h : Awaits closers) (k : Token.Kind) : Awaits (k.unstack closers) := by
  refine ⟨fun k' hk' => h.1 k' ((Token.Kind.unstack_sublist k closers).subset hk'), ?_⟩
  unfold Token.Kind.unstack
  split
  · rcases closers with _ | ⟨a, _ | ⟨b, closers⟩⟩
    · exact h.2
    · simp
    · exact h.2
  · exact h.2

theorem Awaits.eq_nil_of_unstack (h : Awaits closers) {k : Token.Kind} (hk : k ≠ .closeParen ∧ k ≠ .closeSquare)
    (hnil : k.unstack closers = []) : closers = [] := by
  unfold Token.Kind.unstack at hnil
  split at hnil
  · rename_i hhead
    rcases closers with _ | ⟨a, closers⟩
    · rfl
    · obtain rfl : a = k := Option.some.inj hhead
      obtain rfl : closers = [] := hnil
      rcases h.1 a List.mem_cons_self with ha | ha | ha
      · exact absurd ha hk.1
      · exact absurd ha hk.2
      · exact absurd (congrArg some ha) h.2
  · exact hnil

/-- The marks that are awaited behind a token of the parameters. -/
def awaitedBehind (closers : List Token.Kind) (t : Token) : List Token.Kind :=
  match t.kind.closer? (!closers.isEmpty) with
  | some closer => closer :: closers
  | none => t.kind.unstack closers

theorem Awaits.behind (h : Awaits closers) (t : Token) : Awaits (awaitedBehind closers t) := by
  unfold awaitedBehind
  split
  · exact h.push ‹_›
  · exact h.pop t.kind

/-- A token ends the parameters where no mark is awaited, or it is one of them. -/
theorem collectParams_cases (closers : List Token.Kind) (t : Token) (ts : List Token) :
    (awaitedBehind closers t = [] ∧ t.kind ∈ [Token.Kind.semicolon, .openCurly, .closeCurly] ∧
      (collectParams closers (t :: ts)).params = []) ∨
    collectParams closers (t :: ts) = { collectParams (awaitedBehind closers t) ts with
      params := t :: (collectParams (awaitedBehind closers t) ts).params } := by
  generalize hrun : collectParams (awaitedBehind closers t) ts = run
  unfold collectParams
  extract_lets closers' run'
  have hclosers : awaitedBehind closers t = closers' := rfl
  obtain rfl : run' = run := by rw [← hrun, hclosers]
  rw [hclosers]
  clear_value run' closers'
  split
  · exact .inl ⟨rfl, by simp [*], rfl⟩
  · exact .inl ⟨rfl, by simp [*], rfl⟩
  · exact .inl ⟨rfl, by simp [*], rfl⟩
  · exact .inr rfl

theorem awaits_cons (hstack : stack.Sublist closers) (t : Token) : ∃ stack' : List Token.Kind,
    stack'.Sublist (awaitedBehind closers t) ∧ ∀ us, Token.awaits stack (t :: us) = Token.awaits stack' us := by
  unfold awaitedBehind
  split
  · rename_i closer hc
    rcases Token.Kind.closer?_cases hc with hk | hk
    · exact ⟨closer :: stack, hstack.cons_cons closer, fun us => Token.awaits_opening hk⟩
    · exact ⟨_, ((Token.Kind.unstack_sublist _ _).trans hstack).cons closer, fun us => Token.awaits_other hk⟩
  · rename_i hc
    have hk := Token.Kind.awaited?_of_closer? hc
    exact ⟨_, Token.Kind.unstack_sublist_unstack hstack, fun us => Token.awaits_other hk⟩

/-- Parameters that something in the text ends have all round and square brackets closed. -/
theorem awaits_collectParams (hawaits : Awaits closers) (hending : (collectParams closers ts).ending ≠ .exhausted)
    (hstack : stack.Sublist closers) : Token.awaits stack (collectParams closers ts).params = [] := by
  induction ts generalizing closers stack with
  | nil => exact absurd rfl hending
  | cons t ts ih =>
    rcases collectParams_cases closers t ts with ⟨hnil, hk, hparams⟩ | hmore
    · have hclosers : closers = [] := by
        unfold awaitedBehind at hnil
        split at hnil
        · cases hnil
        · refine hawaits.eq_nil_of_unstack ?_ hnil
          constructor
          · intro h
            simp [h] at hk
          · intro h
            simp [h] at hk
      rw [hparams]
      exact List.sublist_nil.1 (hclosers ▸ hstack)
    · obtain ⟨stack', hstack', hstep⟩ := awaits_cons hstack t
      rw [hmore] at hending ⊢
      exact (hstep _).trans (ih (hawaits.behind t) hending hstack')

end AtRuleRun

/-! ## Runs that are read -/

namespace Builder
variable {b b' : Builder} {t o : Token} {ts rest : List Token} {fault : Option Fault}

theorem step_of_startsRun (ht : t.StartsRun) : b.step fault t ts = b.run fault t ts := by
  unfold step
  cases hk : t.kind <;> simp_all [Token.StartsRun]

theorem bracketsClose_of_run (hb : b.run fault t ts = .ok (b', rest)) :
    Token.BracketsClose (Run.collect t.isCustom false [] none (t :: ts)).tokens := by
  obtain ⟨hopener, -⟩ := run_spec rfl hb
  exact Run.bracketsClose_of_collect hopener

/-- A run with a bracket left open is an error there, unless there is one in the tokens already. -/
theorem run_unclosed (ho : (Run.collect t.isCustom false [] none (t :: ts)).opener = some o) :
    b.run fault t ts = .error (fault.getD (b.error .unclosedBracket (o.start.getD 0))) := by
  have hcustom : ['-', '-'].isPrefixOf t.text = t.isCustom := rfl
  have hending := (Run.collects t.isCustom false [] none (t :: ts)).open_at_end ⟨by simp, by simp⟩ ho
  unfold Builder.run
  simp only [hcustom]
  generalize Run.collect t.isCustom false [] none (t :: ts) = found at ho hending
  obtain ⟨tokens, colon, opener, ending, unread⟩ := found
  simp only at ho hending
  subst ho hending
  cases fault <;> rfl

theorem exists_atRule_at_end (hname : (t.text.drop 1).isEmpty = false) (hending : (collectParams [] ts).ending = .exhausted)
    (b : Builder) : ∃ b', b.atRule none t ts = .ok (b', []) := by
  have hsplits := collectParams_splits [] ts
  unfold Builder.atRule
  generalize collectParams [] ts = run at hsplits hending
  obtain ⟨ps, ending, unread⟩ := run
  simp only at hending
  subst hending
  obtain ⟨rfl, -⟩ := hsplits
  simp only [hname]
  exact ⟨_, rfl⟩

end Builder

theorem Excerpt.Comes.of_drain {e : Excerpt} {holes : List Hole} {us : List Token}
    (h : (Reader.start e holes).drain.1 = us) :
    e.Comes holes { excerpt := e, holes := (Reader.start e holes).holes } us :=
  h ▸ .start

namespace Root
variable {e : Excerpt} {holes : List Hole} {role : Role} {b : Builder} {t : Token} {ts : List Token}

/-- Wherever parsing comes to, the run that is read next closes its round and square brackets if the text is accepted, and
if it does not, it goes on to the end of the text and parsing fails at a bracket of it. The parameters of an at-rule close
theirs if a semicolon, a brace or the end of a block ends them. If they do not, they are all that is left of the text, and
the at-rule is read nevertheless. -/
theorem brackets_of_parse (h : e.Comes holes b (t :: ts)) (role : Role) :
    (t.StartsRun →
      (∀ r, Root.parse e holes role = .ok r →
        Token.BracketsClose (Run.collect t.isCustom false [] none (t :: ts)).tokens) ∧
      (¬ Token.BracketsClose (Run.collect t.isCustom false [] none (t :: ts)).tokens →
        (Run.collect t.isCustom false [] none (t :: ts)).tokens = t :: ts ∧
        ∃ o ∈ t :: ts, (o.kind.awaited?.isSome = true ∨ t.isCustom = true ∧ o.kind = .openCurly) ∧
          Root.parse e holes role =
            .error ((Reader.start e holes).drain.2.1.getD (.style (e.error .unclosedBracket (o.start.getD 0)))))) ∧
    (t.kind = .atWord →
      ((collectParams [] ts).ending ≠ .exhausted → Token.BracketsClose (collectParams [] ts).params) ∧
      (¬ Token.BracketsClose (collectParams [] ts).params → (collectParams [] ts).params = ts ∧
        ((t.text.drop 1).isEmpty = false → ∃ b', b.step none t ts = .ok (b', [])))) := by
  obtain ⟨⟨w, p, hreads, htiled⟩, n, hn, hparse⟩ := h.spec (Cuts.trivial _ _)
  obtain ⟨m, rfl⟩ : ∃ m, n = m + 1 := ⟨n - 1, by simp only [List.length_cons] at hn; omega⟩
  have hsteps : Root.parse e holes role = b.step (Reader.start e holes).drain.2.1 t ts >>= fun next =>
      Builder.steps (Reader.start e holes).drain.2.1 m next.1 next.2 >>= (·.finish role) := by
    rw [hparse role, Builder.steps, bind_assoc]
  constructor
  · intro hstarts
    rw [Builder.step_of_startsRun hstarts] at hsteps
    have hfound := Run.collects t.isCustom false [] none (t :: ts)
    refine ⟨fun r hr => ?_, fun hopen => ?_⟩
    · rw [hsteps] at hr
      obtain ⟨⟨b', rest⟩, hrun, -⟩ := bind_eq_ok.1 hr
      exact Builder.bracketsClose_of_run hrun
    · cases ho : (Run.collect t.isCustom false [] none (t :: ts)).opener with
      | none => exact absurd (Run.bracketsClose_of_collect ho) hopen
      | some o =>
        have hall : (Run.collect t.isCustom false [] none (t :: ts)).tokens = t :: ts := by
          have hends := hfound.endsAsSaid
          rw [Run.Found.EndsAsSaid, hfound.open_at_end ⟨by simp, by simp⟩ ho] at hends
          have happ := hfound.append
          rwa [hends, List.append_nil] at happ
        refine ⟨hall, o, ?_, (hfound.opener_opens o ho).resolve_right (by simp), ?_⟩
        · exact hall ▸ (hfound.opener_mem o ho).resolve_right (by simp)
        · rw [hsteps, Builder.run_unclosed ho, Builder.error, hreads.stands.excerpt]
          rfl
  · intro hk
    have hclose : (collectParams [] ts).ending ≠ .exhausted → Token.BracketsClose (collectParams [] ts).params := by
      intro hending
      rw [Token.bracketsClose_iff]
      exact AtRuleRun.awaits_collectParams ⟨by simp, by simp⟩ hending (.refl [])
    refine ⟨hclose, fun hopen => ?_⟩
    have hending : (collectParams [] ts).ending = .exhausted := Classical.not_not.1 (mt hclose hopen)
    have hsplits := collectParams_splits [] ts
    rw [AtRuleRun.Splits, hending] at hsplits
    refine ⟨hsplits.2.symm, fun hname => ?_⟩
    obtain ⟨b', hb'⟩ := Builder.exists_atRule_at_end hname hending b
    refine ⟨b', ?_⟩
    rw [Builder.step, hk]
    exact hb'

/-- A semicolon in two brackets, and the same run without its end. -/
theorem brackets_of_parse_nested :
    let closed : Excerpt := ⟨"a:[x(b(c;d);e)]".toList, .front, none⟩
    let opened : Excerpt := ⟨"a:[x(b(c;d);e".toList, .front, none⟩
    let t : Token := .ranged .word "a".toList 0
    let ts : List Token := [.punctuation .colon ':' 1, .punctuation .openSquare '[' 2, .ranged .word "x".toList 3,
      .punctuation .openParen '(' 4, .ranged .word "b".toList 5, .ranged .brackets "(c;d)".toList 6,
      .punctuation .semicolon ';' 11, .ranged .word "e".toList 12]
    let us := ts ++ [.punctuation .closeParen ')' 13, .punctuation .closeSquare ']' 14]
    (∃ b r, closed.Comes [] b (t :: us) ∧ t.StartsRun ∧ Root.parse closed [] = .ok r ∧
        (Run.collect t.isCustom false [] none (t :: us)).tokens = t :: us ∧ Token.BracketsClose (t :: us)) ∧
      (∃ b, opened.Comes [] b (t :: ts)) ∧
      (Run.collect t.isCustom false [] none (t :: ts)).tokens = t :: ts ∧ ¬ Token.BracketsClose (t :: ts) ∧
      ∃ o ∈ t :: ts, Root.parse opened [] = .error (.style (opened.error .unclosedBracket (o.start.getD 0))) := by
  intro closed opened t ts us
  have hstarts : t.StartsRun := by
    show t.kind ∉ [_, _, _, _, _, _]
    decide
  obtain ⟨b, hclosed⟩ : ∃ b, closed.Comes [] b (t :: us) := ⟨_, .of_drain (by decide +kernel)⟩
  obtain ⟨b', hopened⟩ : ∃ b, opened.Comes [] b (t :: ts) := ⟨_, .of_drain (by decide +kernel)⟩
  obtain ⟨r, hr⟩ : ∃ r, Root.parse closed [] = .ok r := exists_ok_of_isOk (by decide +kernel)
  have hwhole : (Run.collect t.isCustom false [] none (t :: us)).tokens = t :: us := by decide +kernel
  have hpart : (Run.collect t.isCustom false [] none (t :: ts)).tokens = t :: ts := by decide +kernel
  have hopen : ¬ Token.BracketsClose (t :: ts) := by decide +kernel
  have hfault : (Reader.start opened []).drain.2.1 = none := by decide +kernel
  have hclose := ((brackets_of_parse hclosed (.component [] none)).1 hstarts).1 r hr
  obtain ⟨-, o, ho, -, herror⟩ := ((brackets_of_parse hopened (.component [] none)).1 hstarts).2 (hpart ▸ hopen)
  rw [hfault] at herror
  exact ⟨⟨b, r, hclosed, hstarts, hr, hwhole, hwhole ▸ hclose⟩, ⟨b', hopened⟩, hpart, hopen, o, ho, herror⟩

/-- The bracket of the at-rule is still open where the text ends, and the semicolon and the declaration are in it. -/
theorem brackets_of_parse_open :
    let e : Excerpt := ⟨"@media (a;b:c".toList, .front, none⟩
    let t : Token := .ranged .atWord "@media".toList 0
    let ts : List Token := [.space " ".toList, .punctuation .openParen '(' 7, .ranged .word "a".toList 8,
      .punctuation .semicolon ';' 9, .ranged .word "b".toList 10, .punctuation .colon ':' 11, .ranged .word "c".toList 12]
    ∃ b r, Root.parse e [] = .ok r ∧ e.Comes [] b (t :: ts) ∧ t.kind = .atWord ∧ (collectParams [] ts).params = ts ∧
      ¬ Token.BracketsClose ts ∧ r.nodes.map Node.css = ["@media (a;b:c".toList] := by
  intro e t ts
  have hnodes : (Root.parse e []).toOption.map (·.nodes.map Node.css) = some ["@media (a;b:c".toList] := by
    decide +kernel
  obtain ⟨r, hr⟩ : ∃ r, Root.parse e [] = .ok r := exists_ok_of_isOk (by decide +kernel)
  rw [hr] at hnodes
  exact ⟨_, r, hr, .of_drain (by decide +kernel), rfl, by decide +kernel, by decide +kernel, Option.some.inj hnodes⟩

end Root
end TaggedStyles
