import TaggedStyles.Proofs.Tree.Filler

/-! Where a construct ends. The tokens of a run and the parameters of an at-rule are read one at a time, and the brackets
that are open decide behind each of them whether reading goes on (`Scan`). So a construct is known as soon as the token
that ends it is read: what stands behind it makes no difference (`Builder.step_append`). -/
namespace TaggedStyles
set_option autoImplicit false

/-- Inside a construct: whether a colon stood outside its brackets, and the closing marks that are awaited, innermost
first. -/
structure Scan where
  colon : Bool := false
  closers : List Token.Kind := []

namespace Scan

/-- A run goes on behind a token, unless that ends it. -/
def ofRun (custom : Bool) (s : Scan) (t : Token) : Option Scan :=
  match t.kind.closer? (custom && s.colon) with
  | some closer => some { s with closers := closer :: s.closers }
  | none =>
    match s.closers with
    | [] =>
      match t.kind with
      | .semicolon | .openCurly | .closeCurly | .atWord => none
      | .colon => some { s with colon := true }
      | _ => some s
    | closer :: outer => some (if t.kind = closer then { s with closers := outer } else s)

/-- The closing marks that are awaited in the parameters of an at-rule behind a token. -/
def paramClosers (closers : List Token.Kind) (t : Token) : List Token.Kind :=
  match t.kind.closer? (!closers.isEmpty) with
  | some closer => closer :: closers
  | none => if closers.head? = some t.kind then closers.tail else closers

/-- The parameters of an at-rule go on behind a token, unless that ends them. -/
def ofParams (s : Scan) (t : Token) : Option Scan :=
  match paramClosers s.closers t, t.kind with
  | [], .semicolon | [], .openCurly | [], .closeCurly => none
  | _, _ => some { s with closers := paramClosers s.closers t }

variable {goesOn : Scan → Token → Option Scan} {s : Scan} {us : List Token}

/-- Tokens that end a loop, by induction: one of them ends it, and behind those in front of that it goes on. -/
theorem ends_induction {motive : Scan → List Token → Prop} (ends : ∀ s t ts, goesOn s t = none → motive s (t :: ts))
    (goes : ∀ s t s' ts, goesOn s t = some s' → motive s' ts → motive s (t :: ts)) (h : us.foldlM goesOn s = none) :
    motive s us := by
  induction us generalizing s with
  | nil => cases h
  | cons t ts ih =>
    rw [List.foldlM_cons] at h
    cases hs : goesOn s t with
    | none => exact ends s t ts hs
    | some s' =>
      rw [hs] at h
      exact goes s t s' ts hs (ih h)

theorem goes_induction {motive : Scan → List Token → Prop} (nil : ∀ s, motive s [])
    (goes : ∀ s t s' ts, goesOn s t = some s' → motive s' ts → motive s (t :: ts))
    (h : (us.foldlM goesOn s).isSome = true) : motive s us := by
  induction us generalizing s with
  | nil => exact nil s
  | cons t ts ih =>
    rw [List.foldlM_cons] at h
    cases hs : goesOn s t with
    | none =>
      rw [hs] at h
      cases h
    | some s' =>
      rw [hs] at h
      exact goes s t s' ts hs (ih h)

end Scan

namespace Token

/-- Whether a token is a construct of its own. So is an at-word without a name, which is an error. -/
def isAlone (t : Token) : Bool :=
  match t.kind with
  | .space | .semicolon | .closeCurly | .comment | .openCurly => true
  | .atWord => (t.text.drop 1).isEmpty
  | _ => false

/-- How the construct goes on that starts with a token. -/
def goesOn (start : Token) : Scan → Token → Option Scan :=
  if start.kind = .atWord then Scan.ofParams else Scan.ofRun start.isCustom

/-- Behind the token that starts a construct. -/
def scan (start : Token) : Scan := if start.kind = .atWord then {} else (Scan.ofRun start.isCustom {} start).getD {}

end Token

variable {custom : Bool} {s s' : Scan} {t : Token} {ts us : List Token}

/-! ## Runs -/

namespace Run

theorem collect_goesOn (h : Scan.ofRun custom s t = some s') (opener : Option Token) : ∃ opener', ∀ ts,
    collect custom s.colon s.closers opener (t :: ts) = (collect custom s'.colon s'.closers opener' ts).cons t := by
  obtain ⟨colon, closers⟩ := s
  simp only [collect.eq_def custom colon closers opener (t :: _), Scan.ofRun] at h ⊢
  cases hcloser : t.kind.closer? (custom && colon) with
  | some closer =>
    simp only [hcloser] at h ⊢
    obtain rfl := Option.some.inj h
    exact ⟨_, fun ts => rfl⟩
  | none =>
    simp only [hcloser] at h ⊢
    cases closers with
    | nil => cases hk : t.kind <;> simp only [hk] at h ⊢ <;> cases h <;> exact ⟨opener, fun ts => rfl⟩
    | cons closer outer =>
      obtain rfl := Option.some.inj h
      by_cases hk : t.kind = closer
      · simp only [if_pos hk]
        exact ⟨_, fun ts => rfl⟩
      · simp only [if_neg hk]
        exact ⟨_, fun ts => rfl⟩

theorem collect_ends (h : Scan.ofRun custom s t = none) (opener : Option Token) : ∃ f : Found, f.ending ≠ .exhausted ∧
    ∀ ts, collect custom s.colon s.closers opener (t :: ts) = { f with unread := f.unread ++ ts } := by
  obtain ⟨colon, closers⟩ := s
  simp only [collect.eq_def custom colon closers opener (t :: _), Scan.ofRun] at h ⊢
  cases hcloser : t.kind.closer? (custom && colon) with
  | some closer => simp [hcloser] at h
  | none =>
    simp only [hcloser] at h ⊢
    cases closers with
    | cons closer outer => cases h
    | nil =>
      cases hk : t.kind <;> simp only [hk] at h ⊢
      case semicolon => exact ⟨⟨[t], colon, opener, .semicolon, []⟩, by simp, fun ts => rfl⟩
      case openCurly => exact ⟨⟨[t], colon, opener, .block, []⟩, by simp, fun ts => rfl⟩
      case closeCurly | atWord => exact ⟨⟨[], colon, opener, .boundary t, [t]⟩, by simp, fun ts => rfl⟩
      all_goals cases h

/-- A run is known when the token that ends it is read. -/
theorem collect_append (h : us.foldlM (Scan.ofRun custom) s = none) (opener : Option Token) : ∃ f : Found,
    f.ending ≠ .exhausted ∧
      ∀ ts, collect custom s.colon s.closers opener (us ++ ts) = { f with unread := f.unread ++ ts } := by
  refine Scan.ends_induction (motive := fun s us => ∀ opener, ∃ f : Found, f.ending ≠ .exhausted ∧
    ∀ ts, collect custom s.colon s.closers opener (us ++ ts) = { f with unread := f.unread ++ ts }) ?_ ?_ h opener
  · intro s u us hs opener
    obtain ⟨f, hf, hcollect⟩ := collect_ends hs opener
    refine ⟨{ f with unread := f.unread ++ us }, hf, fun ts => ?_⟩
    rw [List.cons_append, hcollect, List.append_assoc]
  · intro s u s' us hs ih opener
    obtain ⟨opener', hcollect⟩ := collect_goesOn hs opener
    obtain ⟨f, hf, hmore⟩ := ih opener'
    refine ⟨f.cons u, hf, fun ts => ?_⟩
    rw [List.cons_append, hcollect, hmore]
    rfl

theorem collect_exhausted (h : (us.foldlM (Scan.ofRun custom) s).isSome = true) (opener : Option Token) :
    (collect custom s.colon s.closers opener us).ending = .exhausted := by
  refine Scan.goes_induction (motive := fun s us => ∀ opener,
    (collect custom s.colon s.closers opener us).ending = .exhausted) (fun _ _ => rfl) ?_ h opener
  intro s u s' us hs ih opener
  obtain ⟨opener', hcollect⟩ := collect_goesOn hs opener
  rw [hcollect]
  exact ih opener'

end Run

/-! ## Parameters -/

theorem collectParams_cons (closers : List Token.Kind) (t : Token) (ts : List Token) : collectParams closers (t :: ts) =
    match Scan.paramClosers closers t, t.kind with
    | [], .semicolon => ⟨[], .semicolon, t :: ts⟩
    | [], .openCurly => ⟨[], .block, ts⟩
    | [], .closeCurly => ⟨[], .boundary t, ts⟩
    | _, _ =>
      let run := collectParams (Scan.paramClosers closers t) ts
      { run with params := t :: run.params } := by
  rw [collectParams.eq_def closers]
  rfl

theorem collectParams_goesOn (h : Scan.ofParams s t = some s') (ts : List Token) : collectParams s.closers (t :: ts) =
    { collectParams s'.closers ts with params := t :: (collectParams s'.closers ts).params } := by
  rw [collectParams_cons]
  unfold Scan.ofParams at h
  split at h
  · cases h
  · cases h
  · cases h
  · obtain rfl := Option.some.inj h
    rfl

theorem collectParams_ends (h : Scan.ofParams s t = none) : ∃ run : AtRuleRun, run.ending ≠ .exhausted ∧
    ∀ ts, collectParams s.closers (t :: ts) = { run with unread := run.unread ++ ts } := by
  unfold Scan.ofParams at h
  simp only [collectParams_cons]
  split at h
  · exact ⟨⟨[], .semicolon, [t]⟩, by simp, fun ts => rfl⟩
  · exact ⟨⟨[], .block, []⟩, by simp, fun ts => rfl⟩
  · exact ⟨⟨[], .boundary t, []⟩, by simp, fun ts => rfl⟩
  · cases h

/-- The parameters of an at-rule are known when the token that ends them is read. -/
theorem collectParams_append (h : us.foldlM Scan.ofParams s = none) : ∃ run : AtRuleRun, run.ending ≠ .exhausted ∧
    ∀ ts, collectParams s.closers (us ++ ts) = { run with unread := run.unread ++ ts } := by
  refine Scan.ends_induction (motive := fun s us => ∃ run : AtRuleRun, run.ending ≠ .exhausted ∧
    ∀ ts, collectParams s.closers (us ++ ts) = { run with unread := run.unread ++ ts }) ?_ ?_ h
  · intro s u us hs
    obtain ⟨run, hrun, hcollect⟩ := collectParams_ends hs
    refine ⟨{ run with unread := run.unread ++ us }, hrun, fun ts => ?_⟩
    rw [List.cons_append, hcollect, List.append_assoc]
  · intro s u s' us hs ih
    obtain ⟨run, hrun, hmore⟩ := ih
    refine ⟨{ run with params := u :: run.params }, hrun, fun ts => ?_⟩
    rw [List.cons_append, collectParams_goesOn hs, hmore]

theorem collectParams_exhausted (h : (us.foldlM Scan.ofParams s).isSome = true) :
    (collectParams s.closers us).ending = .exhausted := by
  refine Scan.goes_induction (motive := fun s us => (collectParams s.closers us).ending = .exhausted)
    (fun _ => rfl) ?_ h
  intro s u s' us hs ih
  rw [collectParams_goesOn hs]
  exact ih

/-! ## Constructs -/

namespace Builder
variable {b : Builder} {fault : Option Fault}

/-- What a step leaves, with more tokens behind it. -/
def withMore (more : List Token) (x : Except Fault (Builder × List Token)) : Except Fault (Builder × List Token) :=
  x.map fun (b, left) => (b, left ++ more)

theorem withMore_bind (x : Except Fault Builder) (left more : List Token) :
    withMore more (do return (← x, left)) = do return (← x, left ++ more) := by
  cases x <;> rfl

theorem step_alone (ht : t.isAlone = true) (b : Builder) (fault : Option Fault) (ts : List Token) :
    b.step fault t ts = withMore ts (b.step none t []) := by
  unfold Token.isAlone at ht
  unfold step
  cases hk : t.kind <;> simp only [hk] at ht ⊢ <;> try cases ht
  case closeCurly => cases b.close t <;> rfl
  case atWord =>
    unfold atRule
    simp only [ht, if_true]
    rfl
  all_goals rfl

theorem atRule_append (h : us.foldlM Scan.ofParams {} = none) (b : Builder) (fault : Option Fault) (t : Token)
    (more : List Token) : b.atRule fault t (us ++ more) = withMore more (b.atRule none t us) := by
  obtain ⟨run, hending, hcollect⟩ := collectParams_append h
  have hhere : collectParams [] us = run := by
    rw [← List.append_nil us]
    exact (hcollect []).trans (by rw [List.append_nil])
  have hsplits := collectParams_splits [] us
  rw [hhere] at hsplits
  unfold atRule
  rw [show collectParams [] (us ++ more) = _ from hcollect more, hhere]
  obtain ⟨params, ending, unread⟩ := run
  simp only
  split
  · rfl
  · cases ending with
    | exhausted => exact absurd rfl hending
    | semicolon =>
      obtain ⟨s, vs, hunread, -⟩ := hsplits
      obtain rfl : unread = s :: vs := hunread
      rfl
    | block => rfl
    | boundary closing =>
      exact (withMore_bind _ unread more).symm

theorem atRule_exhausted (h : (us.foldlM Scan.ofParams {}).isSome = true) (hname : (t.text.drop 1).isEmpty = false)
    (b : Builder) (f : Fault) : b.atRule (some f) t us = .error f := by
  have hending : (collectParams [] us).ending = .exhausted := collectParams_exhausted h
  unfold atRule
  simp only [hname, hending]
  rfl

theorem collect_scan (ht : t.StartsRun) : ∃ opener, ∀ ts, Run.collect t.isCustom false [] none (t :: ts) =
    (Run.collect t.isCustom t.scan.colon t.scan.closers opener ts).cons t := by
  simp only [Token.StartsRun, List.mem_cons, List.not_mem_nil, or_false, not_or] at ht
  obtain ⟨s, hs⟩ : ∃ s, Scan.ofRun t.isCustom {} t = some s := by
    unfold Scan.ofRun
    split
    · exact ⟨_, rfl⟩
    · cases hk : t.kind <;> simp_all
  obtain ⟨opener, hcollect⟩ := Run.collect_goesOn hs none
  refine ⟨opener, ?_⟩
  rw [Token.scan, if_neg ht.2.2.2.2.2, hs]
  exact hcollect

theorem run_append (ht : t.StartsRun) (h : us.foldlM (Scan.ofRun t.isCustom) t.scan = none) (b : Builder)
    (fault : Option Fault) (more : List Token) :
    b.run fault t (us ++ more) = withMore more (b.run none t us) := by
  obtain ⟨opener, hscan⟩ := collect_scan ht
  obtain ⟨found, hending, hcollect⟩ := Run.collect_append h opener
  have hhere : Run.collect t.isCustom false [] none (t :: us) = found.cons t := by
    have hcollect := hcollect []
    rw [List.append_nil, List.append_nil] at hcollect
    rw [hscan, hcollect]
  have hmore : Run.collect t.isCustom false [] none (t :: (us ++ more)) =
      ⟨t :: found.tokens, found.colon, found.opener, found.ending, found.unread ++ more⟩ := by
    rw [hscan, hcollect]
    rfl
  have hcustom : ['-', '-'].isPrefixOf t.text = t.isCustom := rfl
  unfold run
  simp only [hcustom, hhere, hmore]
  obtain ⟨tokens, colon, opener, ending, unread⟩ := found
  cases ending with
  | exhausted => exact absurd rfl hending
  | block => cases opener <;> rfl
  | semicolon =>
    cases opener with
    | some opener => rfl
    | none => cases colon <;> exact (withMore_bind _ unread more).symm
  | boundary next =>
    cases opener with
    | some opener => rfl
    | none =>
      cases colon with
      | false => exact (withMore_bind _ unread more).symm
      | true =>
        refine Eq.trans ?_ (withMore_bind _ _ more).symm
        rw [List.append_assoc]
        rfl

theorem run_exhausted (ht : t.StartsRun) (h : (us.foldlM (Scan.ofRun t.isCustom) t.scan).isSome = true) (b : Builder)
    (f : Fault) : b.run (some f) t us = .error f := by
  obtain ⟨opener, hscan⟩ := collect_scan ht
  have hending := Run.collect_exhausted h opener
  have hcustom : ['-', '-'].isPrefixOf t.text = t.isCustom := rfl
  unfold run
  simp only [hcustom, hscan, Run.Found.cons, hending]
  rfl

/-- A token that is no construct of its own starts the parameters of an at-rule or a run. -/
theorem step_of_not_alone (ht : t.isAlone = false) :
    (t.kind = .atWord ∧ (t.text.drop 1).isEmpty = false ∧ t.goesOn = Scan.ofParams ∧ t.scan = {} ∧
      ∀ (b : Builder) fault ts, b.step fault t ts = b.atRule fault t ts) ∨
    (t.StartsRun ∧ t.goesOn = Scan.ofRun t.isCustom ∧
      ∀ (b : Builder) fault ts, b.step fault t ts = b.run fault t ts) := by
  unfold Token.isAlone at ht
  by_cases hk : t.kind = .atWord
  · rw [hk] at ht
    refine .inl ⟨hk, ht, if_pos hk, if_pos hk, fun b fault ts => ?_⟩
    rw [step, hk]
  · have hstarts : t.StartsRun := by
      unfold Token.StartsRun
      cases h : t.kind <;> simp_all
    refine .inr ⟨hstarts, if_neg hk, fun b fault ts => ?_⟩
    unfold step
    cases h : t.kind <;> simp_all

/-- A step reads no further than the token that ends its construct. -/
theorem step_append (ht : t.isAlone = false) (h : us.foldlM t.goesOn t.scan = none) (b : Builder)
    (fault : Option Fault) (more : List Token) : b.step fault t (us ++ more) = withMore more (b.step none t us) := by
  rcases step_of_not_alone ht with ⟨-, -, hgoes, hscan, hstep⟩ | ⟨hstarts, hgoes, hstep⟩
  · rw [hgoes, hscan] at h
    rw [hstep, hstep, atRule_append h]
  · rw [hgoes] at h
    rw [hstep, hstep, run_append hstarts h]

/-- A step that no token ends fails as the text does. -/
theorem step_exhausted (ht : t.isAlone = false) (h : (us.foldlM t.goesOn t.scan).isSome = true) (b : Builder)
    (f : Fault) : b.step (some f) t us = .error f := by
  rcases step_of_not_alone ht with ⟨-, hname, hgoes, hscan, hstep⟩ | ⟨hstarts, hgoes, hstep⟩
  · rw [hgoes, hscan] at h
    rw [hstep, atRule_exhausted h hname]
  · rw [hgoes] at h
    rw [hstep, run_exhausted hstarts h]

end Builder
end TaggedStyles
