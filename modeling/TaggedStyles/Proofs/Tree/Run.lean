import TaggedStyles.Tree.Parser
import TaggedStyles.Printer.Basic
import TaggedStyles.Proofs.Token.Tiling

/-! Runs keep their text: whatever a run of tokens is split into, the texts of the pieces give the text of
the run again, raws and the important mark included. -/
namespace TaggedStyles
set_option autoImplicit false

namespace Run
variable {holes : List Hole} {custom : Bool}

/-! ## Ends of a run -/

theorem splitEnd_append (p : Token → Bool) (ts : List Token) : (splitEnd p ts).1 ++ (splitEnd p ts).2 = ts := by
  have h := congrArg List.reverse (List.takeWhile_append_dropWhile (p := p) (l := ts.reverse))
  rw [List.reverse_append, List.reverse_reverse] at h
  exact h

theorem joined_splitEnd (p : Token → Bool) (ts : List Token) :
    Token.joined (splitEnd p ts).1 ++ Token.joined (splitEnd p ts).2 = Token.joined ts := by
  rw [← Token.joined_append, splitEnd_append]

theorem of_mem_splitEnd {p : Token → Bool} {ts : List Token} {t : Token} (h : t ∈ (splitEnd p ts).2) :
    p t = true :=
  List.all_eq_true.1 List.all_takeWhile t (List.mem_reverse.1 h)

theorem getLast?_splitEnd {p : Token → Bool} {ts : List Token} {t : Token}
    (h : (splitEnd p ts).1.getLast? = some t) : p t = false := by
  have hhead := List.head?_dropWhile_not p ts.reverse
  rw [splitEnd, List.getLast?_reverse] at h
  rw [h] at hhead
  simpa using hhead

theorem joined_takeWhile (p : Token → Bool) (ts : List Token) :
    Token.joined (ts.takeWhile p) ++ Token.joined (ts.dropWhile p) = Token.joined ts := by
  rw [← Token.joined_append, List.takeWhile_append_dropWhile]

theorem joined_dropLast (ts : List Token) :
    Token.joined ts.dropLast ++ (ts.getLast?.map (·.text)).getD [] = Token.joined ts := by
  rcases List.eq_nil_or_concat ts with rfl | ⟨init, t, rfl⟩
  · rfl
  · rw [List.concat_eq_append, List.dropLast_concat, List.getLast?_concat, Token.joined_append]
    simp [Token.joined]

/-! ## Cleaned values -/

theorem cleanFrom_whole {before : Option Token} {value value' : Text} {whole : Bool} {ts : List Token}
    (h : cleanFrom custom before value whole ts = (value', true)) :
    whole = true ∧ value' = value ++ Token.joined ts := by
  induction ts generalizing before value whole with
  | nil =>
    obtain ⟨rfl, rfl⟩ := Prod.mk.inj h
    simp
  | cons t ts ih =>
    rw [cleanFrom] at h
    split at h
    · simp at h
    · split at h
      · have h1 := (ih h).1
        simp at h1
      · obtain ⟨hw, rfl⟩ := ih h
        exact ⟨hw, by rw [Token.joined_cons, List.append_assoc]⟩

theorem isPrefix_cleanFrom (custom : Bool) (before : Option Token) (value : Text) (whole : Bool)
    (ts : List Token) :
    value <+: (cleanFrom custom before value whole ts).1 := by
  induction ts generalizing before value whole with
  | nil => exact List.prefix_rfl
  | cons t ts ih =>
    rw [cleanFrom]
    split
    · exact List.prefix_rfl
    · split
      · exact ih _ _ _
      · exact (List.prefix_append _ _).trans (ih _ _ _)

theorem text_clean (custom : Bool) (ts : List Token) :
    RawValue.text (clean custom ts).2 (clean custom ts).1 = Token.joined ts := by
  unfold clean
  split
  · rename_i value h
    exact (cleanFrom_whole h).2
  · simp [RawValue.text]

theorem clean_value (custom : Bool) (ts : List Token) : (clean custom ts).1 = (cleanFrom custom none [] true ts).1 := by
  unfold clean
  split <;> rename_i h <;> rw [h]

theorem clean_ne_nil (custom : Bool) {t : Token} {ts : List Token} (ht : t.isTrivia = false)
    (htext : t.text ≠ []) :
    (clean custom (t :: ts)).1 ≠ [] := by
  simp only [Token.isTrivia, Bool.or_eq_false_iff, decide_eq_false_iff_not] at ht
  rw [clean_value, cleanFrom]
  simp only [ht.1, ht.2, decide_false, Bool.false_and, Bool.false_eq_true, if_false, List.nil_append]
  intro h
  have hp := isPrefix_cleanFrom custom (some t) t.text true ts
  rw [h] at hp
  exact htext (List.prefix_nil.1 hp)

theorem mem_cleanFrom {o : Option Token} {value : Text} {whole : Bool} {ts : List Token} {t : Token} (ht : t ∈ ts)
    (hsolid : t.isTrivia = false) {c : Char} (hc : c ∈ t.text) : c ∈ (cleanFrom custom o value whole ts).1 := by
  induction ts generalizing o value whole with
  | nil => cases ht
  | cons u us ih =>
    rw [cleanFrom]
    cases List.mem_cons.1 ht with
    | inl ht =>
      subst ht
      simp only [Token.isTrivia, Bool.or_eq_false_iff] at hsolid
      simp only [hsolid.1, hsolid.2, Bool.false_and, Bool.false_eq_true, if_false]
      exact (isPrefix_cleanFrom ..).subset (List.mem_append_right value hc)
    | inr ht =>
      rw [List.isEmpty_eq_false_iff_exists_mem.2 ⟨t, ht⟩, Bool.and_false, Bool.false_and]
      simp only [Bool.false_eq_true, if_false]
      split
      · exact ih ht
      · exact ih ht

/-! ## In front of a selector -/

theorem holeLinesFrom_cases (holes : List Hole) (ts : List Token) (passed cut : Nat) :
    holeLinesFrom holes passed cut ts = cut ∨
    ∃ k t, ts[k]? = some t ∧ t.kind = .space ∧ holeLinesFrom holes passed cut ts = passed + (k + 1) := by
  induction ts generalizing passed cut with
  | nil => exact .inl rfl
  | cons t ts ih =>
    rw [holeLinesFrom]
    have hlater : ∀ cut', (∃ k u, ts[k]? = some u ∧ u.kind = .space ∧
        holeLinesFrom holes (passed + 1) cut' ts = passed + 1 + (k + 1)) →
        ∃ k u, (t :: ts)[k]? = some u ∧ u.kind = .space ∧
          holeLinesFrom holes (passed + 1) cut' ts = passed + (k + 1) := by
      rintro cut' ⟨k, u, hu, hk, he⟩
      exact ⟨k + 1, u, hu, hk, by omega⟩
    split
    · rename_i hspace
      split
      · split
        · rcases ih (passed + 1) (passed + 1) with he | he
          · exact .inr ⟨0, t, rfl, hspace, he⟩
          · exact .inr (hlater _ he)
        · exact .inr ⟨0, t, rfl, hspace, rfl⟩
      · rcases ih (passed + 1) cut with he | he
        · exact .inl he
        · exact .inr (hlater _ he)
    · split
      · rcases ih (passed + 1) cut with he | he
        · exact .inl he
        · exact .inr (hlater _ he)
      · exact .inl rfl

theorem splitHoleLines_append (holes : List Hole) (ts : List Token) :
    (splitHoleLines holes ts).1 ++ (splitHoleLines holes ts).2 = ts := by
  unfold splitHoleLines
  split
  · simp only
    split
    · exact List.take_append_drop _ _
    · rfl
  · rfl

theorem splitHoleLines_head (holes : List Hole) {cut : Nat → Prop} {i : Nat} {t : Token} {ts : List Token}
    (htiled : Tiled cut i (t :: ts)) (ht : t.kind ≠ .space) :
    ∃ u us, (splitHoleLines holes (t :: ts)).2 = u :: us ∧ u.kind ≠ .space := by
  unfold splitHoleLines
  split
  · simp only
    split
    · rename_i hcut
      rcases holeLinesFrom_cases holes (t :: ts) 0 0 with he | ⟨k, s, hs, hspace, he⟩
      · rw [he]
        exact ⟨t, ts, rfl, ht⟩
      · obtain ⟨hk, rfl⟩ := List.getElem?_eq_some_iff.1 hs
        rw [he, Nat.zero_add] at hcut ⊢
        rw [← List.take_append_drop k (t :: ts), List.drop_eq_getElem_cons hk] at htiled
        refine ⟨(t :: ts)[k + 1], (t :: ts).drop (k + 1 + 1), List.drop_eq_getElem_cons hcut, ?_⟩
        refine htiled.right.2.2.1 hspace _ ?_
        rw [List.drop_eq_getElem_cons hcut]
        rfl
    · exact ⟨t, ts, rfl, ht⟩
  · exact ⟨t, ts, rfl, ht⟩

/-! ## Pieces of a declaration -/

theorem splitProperty_eq_ok {before before' : Text} {ts rest : List Token}
    (h : splitProperty holes before ts = .ok (before', rest)) :
    ∃ dropped, ts = dropped ++ rest ∧ before' = before ++ Token.joined dropped ∧
      ∀ t ∈ ts.head?, ∃ u us, rest = u :: us ∧ u.kind = .word := by
  induction ts generalizing before with
  | nil =>
    obtain ⟨rfl, rfl⟩ := Prod.mk.inj (Except.ok.inj h)
    exact ⟨[], rfl, by simp, by simp⟩
  | cons t ts ih =>
    rw [splitProperty] at h
    split at h
    · rename_i hword
      obtain ⟨rfl, rfl⟩ := Prod.mk.inj (Except.ok.inj h)
      rw [Bool.and_eq_true, decide_eq_true_eq] at hword
      exact ⟨[], rfl, by simp, fun _ _ => ⟨t, ts, rfl, hword.1⟩⟩
    · split at h
      · simp at h
      · rename_i hne
        obtain ⟨dropped, rfl, rfl, hhead⟩ := ih h
        refine ⟨t :: dropped, rfl, by rw [Token.joined_cons, List.append_assoc], fun _ _ => ?_⟩
        cases hmore : dropped ++ rest with
        | nil => simp [hmore] at hne
        | cons u us => exact hhead u (by rw [hmore]; rfl)

theorem splitColon_eq_ok {between between' : Text} {ts rest : List Token}
    (h : splitColon between ts = .ok (between', rest)) :
    between' ++ Token.joined rest = between ++ Token.joined ts := by
  induction ts generalizing between with
  | nil =>
    obtain ⟨rfl, rfl⟩ := Prod.mk.inj (Except.ok.inj h)
    rfl
  | cons t ts ih =>
    rw [splitColon] at h
    split at h
    · obtain ⟨rfl, rfl⟩ := Prod.mk.inj (Except.ok.inj h)
      rw [Token.joined_cons, List.append_assoc]
    · split at h
      · simp at h
      · rw [ih h, Token.joined_cons, List.append_assoc]

theorem joined_unwindMark (n : Nat) (ts : List Token) (mark : Text) :
    Token.joined (unwindMark n ts mark).1 ++ (unwindMark n ts mark).2 = Token.joined ts ++ mark := by
  induction n generalizing ts mark with
  | zero => rfl
  | succ n ih =>
    rw [unwindMark]
    split
    · rfl
    · rw [ih, ← List.append_assoc, joined_dropLast]

/-- What the important mark is printed as. -/
def markText (important : Bool) (mark : Option Text) : Text :=
  if important then (mark.filter (!·.isEmpty)).getD usualMark else []

theorem markText_some {mark : Text} (h : mark ≠ []) : markText true (some mark) = mark := by
  have hfilter : (some mark).filter (!·.isEmpty) = some mark := by
    rw [Option.filter_some, if_pos (by simpa using h)]
  rw [markText, if_pos rfl, hfilter, Option.getD_some]

theorem opensMark_ne_nil {t : Text} (h : opensMark t = true) : t ≠ [] := by
  rintro rfl
  exact absurd h (by decide)

theorem joined_splitImportant (ts : List Token) :
    Token.joined (splitImportant ts).1 ++ markText (splitImportant ts).2.1 (splitImportant ts).2.2 =
      Token.joined ts := by
  have htrivia := joined_splitEnd Token.isTrivia ts
  unfold splitImportant
  simp only
  split
  · simp [markText]
  · rename_i last hlast
    split
    · rename_i hword
      have hkept := joined_dropLast (splitEnd Token.isTrivia ts).1
      have hspaces := joined_splitEnd isSpaceToken (splitEnd Token.isTrivia ts).1.dropLast
      have hne : last.text ≠ [] := by
        rintro h
        simp [h] at hword
      rw [hlast] at hkept
      simp only [Option.map_some, Option.getD_some] at hkept
      rw [← htrivia, ← hkept, ← hspaces]
      split
      · rename_i hmark
        simp only [markText, if_true, Option.filter_none, Option.getD_none]
        rw [← hmark]
        simp only [List.append_assoc]
      · rw [markText_some (by simp [hne])]
        simp only [List.append_assoc]
    · split
      · split
        · rename_i hmark
          rw [markText_some (opensMark_ne_nil hmark), joined_unwindMark, List.append_nil]
        · simp [markText]
      · simp [markText]

/-! ## A colon in a value -/

theorem exists_colon {passed ts : List Token} {o : Option Token} {depth : Nat}
    (h : findColon passed o depth ts ≠ .absent) : ∃ t ∈ ts, t.kind = .colon := by
  induction ts generalizing passed o depth with
  | nil => exact absurd rfl h
  | cons t ts ih =>
    by_cases hk : t.kind = .colon
    · exact ⟨t, List.mem_cons_self, hk⟩
    · rw [findColon.eq_def] at h
      simp only [hk, decide_false, Bool.and_false, Bool.false_eq_true, if_false] at h
      obtain ⟨u, hu, hcolon⟩ := ih h
      exact ⟨u, List.mem_cons_of_mem t hu, hcolon⟩

theorem mem_clean_of_colonFault? (custom : Bool) {ts : List Token} (hspells : ∀ t ∈ ts, Lexeme.Spells t.kind t.text)
    (h : (colonFault? ts).isSome = true) : ':' ∈ (clean custom ts).1 ∧ ts.all Token.isTrivia = false := by
  have hfound : findColon [] none 0 ts ≠ .absent := by
    intro hnone
    rw [colonFault?, hnone] at h
    cases h
  obtain ⟨t, ht, hk⟩ := exists_colon hfound
  have htext : t.text = [':'] := by
    have hmark := hspells t ht
    rw [hk] at hmark
    obtain ⟨c, hc, htext⟩ := hmark
    simpa [Lexeme.IsMark, htext] using hc
  have hsolid : t.isTrivia = false := by simp [Token.isTrivia, hk]
  refine ⟨?_, List.all_eq_false.2 ⟨t, ht, by simp [hsolid]⟩⟩
  rw [clean_value]
  exact mem_cleanFrom ht hsolid (by rw [htext]; exact List.mem_singleton.2 rfl)

/-! ## Runs as they are found -/

/-- How a run is found, token by token. -/
inductive Collects (custom : Bool) : Bool → List Token.Kind → Option Token → List Token → Found → Prop
  | exhausted {colon : Bool} {closers : List Token.Kind} {opener : Option Token} :
      Collects custom colon closers opener [] ⟨[], colon, opener, .exhausted, []⟩
  | opening {colon : Bool} {closers : List Token.Kind} {opener : Option Token} {t : Token} {ts : List Token}
      {f : Found} {closer : Token.Kind} : t.kind.closer? (custom && colon) = some closer →
      Collects custom colon (closer :: closers) (opener <|> some t) ts f →
      Collects custom colon closers opener (t :: ts) (f.cons t)
  | semicolon {colon : Bool} {opener : Option Token} {t : Token} {ts : List Token} : t.kind = .semicolon →
      Collects custom colon [] opener (t :: ts) ⟨[t], colon, opener, .semicolon, ts⟩
  | block {colon : Bool} {opener : Option Token} {t : Token} {ts : List Token} : t.kind = .openCurly →
      Collects custom colon [] opener (t :: ts) ⟨[t], colon, opener, .block, ts⟩
  | boundary {colon : Bool} {opener : Option Token} {t : Token} {ts : List Token} :
      t.kind = .closeCurly ∨ t.kind = .atWord →
      Collects custom colon [] opener (t :: ts) ⟨[], colon, opener, .boundary t, t :: ts⟩
  | colon {colon : Bool} {opener : Option Token} {t : Token} {ts : List Token} {f : Found} : t.kind = .colon →
      Collects custom true [] opener ts f → Collects custom colon [] opener (t :: ts) (f.cons t)
  | plain {colon : Bool} {opener : Option Token} {t : Token} {ts : List Token} {f : Found} :
      t.kind ≠ .semicolon → Collects custom colon [] opener ts f →
      Collects custom colon [] opener (t :: ts) (f.cons t)
  | closing {colon : Bool} {closer : Token.Kind} {outer : List Token.Kind} {opener : Option Token} {t : Token}
      {ts : List Token} {f : Found} : t.kind = closer →
      Collects custom colon outer (if outer.isEmpty then none else opener) ts f →
      Collects custom colon (closer :: outer) opener (t :: ts) (f.cons t)
  | inside {colon : Bool} {closer : Token.Kind} {outer : List Token.Kind} {opener : Option Token} {t : Token}
      {ts : List Token} {f : Found} : t.kind ≠ closer → Collects custom colon (closer :: outer) opener ts f →
      Collects custom colon (closer :: outer) opener (t :: ts) (f.cons t)

theorem collects (custom colon : Bool) (closers : List Token.Kind) (opener : Option Token) (ts : List Token) :
    Collects custom colon closers opener ts (collect custom colon closers opener ts) := by
  induction ts generalizing colon closers opener with
  | nil => exact .exhausted
  | cons t ts ih =>
    rw [collect.eq_def]
    simp only
    split
    · exact .opening ‹_› (ih ..)
    · split
      · split
        · exact .semicolon ‹_›
        · exact .block ‹_›
        · exact .boundary (.inl ‹_›)
        · exact .boundary (.inr ‹_›)
        · exact .colon ‹_› (ih ..)
        · exact .plain ‹_› (ih ..)
      · split
        · exact .closing ‹_› (ih ..)
        · exact .inside ‹_› (ih ..)

/-- What a run ends with and is followed by. -/
def Found.EndsAsSaid (f : Found) : Prop :=
  match f.ending with
  | .semicolon => ∃ init s, f.tokens = init ++ [s] ∧ s.kind = .semicolon
  | .block => ∃ init s, f.tokens = init ++ [s] ∧ s.kind = .openCurly
  | .boundary next => (∃ us, f.unread = next :: us) ∧ (next.kind = .closeCurly ∨ next.kind = .atWord)
  | .exhausted => f.unread = []

theorem Found.EndsAsSaid.cons {f : Found} (h : f.EndsAsSaid) (t : Token) : (f.cons t).EndsAsSaid := by
  unfold EndsAsSaid Found.cons at *
  cases hf : f.ending with
  | semicolon | block =>
    simp only [hf] at h ⊢
    obtain ⟨init, s, he, hs⟩ := h
    exact ⟨t :: init, s, by rw [he, List.cons_append], hs⟩
  | boundary next => simpa only [hf] using h
  | exhausted => simpa only [hf] using h

namespace Collects
variable {colon : Bool} {closers : List Token.Kind} {opener : Option Token} {ts : List Token} {f : Found}

theorem append (h : Collects custom colon closers opener ts f) : f.tokens ++ f.unread = ts := by
  induction h with
  | exhausted | semicolon | block | boundary => rfl
  | opening _ _ ih | colon _ _ ih | plain _ _ ih | closing _ _ ih | inside _ _ ih =>
    exact congrArg (List.cons _) ih

theorem endsAsSaid (h : Collects custom colon closers opener ts f) : f.EndsAsSaid := by
  induction h with
  | exhausted => rfl
  | semicolon hk | block hk => exact ⟨[], _, rfl, hk⟩
  | boundary hk => exact ⟨⟨_, rfl⟩, hk⟩
  | opening _ _ ih | colon _ _ ih | plain _ _ ih | closing _ _ ih | inside _ _ ih => exact ih.cons _

theorem head {t : Token} (h : Collects custom colon closers opener (t :: ts) f)
    (ht : t.kind ≠ .closeCurly ∧ t.kind ≠ .atWord) : ∃ us, f.tokens = t :: us := by
  cases h with
  | boundary hk => exact absurd hk (by simp [ht.1, ht.2])
  | semicolon | block => exact ⟨[], rfl⟩
  | opening | colon | plain | closing | inside => exact ⟨_, rfl⟩

theorem mem_of_colon (h : Collects custom colon closers opener ts f) (hf : f.colon = true) :
    colon = true ∨ ∃ t ∈ f.tokens, t.kind = .colon := by
  induction h with
  | exhausted | semicolon | block | boundary => exact .inl hf
  | colon hk => exact .inr ⟨_, List.mem_cons_self, hk⟩
  | opening _ _ ih | plain _ _ ih | closing _ _ ih | inside _ _ ih =>
    exact (ih hf).imp id fun ⟨t, ht, hk⟩ => ⟨t, List.mem_cons_of_mem _ ht, hk⟩

theorem opener_mem (h : Collects custom colon closers opener ts f) : ∀ t ∈ f.opener, t ∈ f.tokens ∨ t ∈ opener := by
  have hcons : ∀ {f : Found} {opener : Option Token} {u : Token}, (∀ t ∈ f.opener, t ∈ f.tokens ∨ t ∈ opener) →
      ∀ t ∈ (f.cons u).opener, t ∈ (f.cons u).tokens ∨ t ∈ opener :=
    fun hf t ht => (hf t ht).imp (List.mem_cons_of_mem _) id
  induction h with
  | exhausted | semicolon | block | boundary => exact fun t ht => .inr ht
  | colon _ _ ih | plain _ _ ih | inside _ _ ih => exact hcons ih
  | @opening colon closers opener u us f closer _ _ ih =>
    intro t ht
    rcases ih t ht with hmem | hmem
    · exact .inl (List.mem_cons_of_mem _ hmem)
    · cases opener with
      | none =>
        obtain rfl := Option.some.inj hmem
        exact .inl List.mem_cons_self
      | some o => exact .inr hmem
  | @closing colon closer outer opener u us f _ _ ih =>
    intro t ht
    rcases ih t ht with hmem | hmem
    · exact .inl (List.mem_cons_of_mem _ hmem)
    · split at hmem
      · cases hmem
      · exact .inr hmem

end Collects

/-! ## Brackets -/

/-- The awaited closing marks fit the outermost opening one. -/
def Awaits (closers : List Token.Kind) (opener : Option Token) : Prop :=
  (closers = [] ↔ opener = none) ∧ ∀ k ∈ closers, k = .closeParen ∨ k = .closeSquare ∨ k = .closeCurly

theorem Awaits.push {closers : List Token.Kind} {opener : Option Token} (h : Awaits closers opener)
    {braces : Bool} {t : Token} {closer : Token.Kind} (hc : t.kind.closer? braces = some closer) :
    Awaits (closer :: closers) (opener <|> some t) := by
  refine ⟨by cases opener <;> simp, fun k hk => ?_⟩
  rcases List.mem_cons.1 hk with rfl | hk
  · unfold Token.Kind.closer? at hc
    split at hc
    · exact .inl (Option.some.inj hc).symm
    · exact .inr (.inl (Option.some.inj hc).symm)
    · split at hc
      · exact .inr (.inr (Option.some.inj hc).symm)
      · simp at hc
    · simp at hc
  · exact h.2 k hk

theorem Awaits.pop {closer : Token.Kind} {outer : List Token.Kind} {opener : Option Token}
    (h : Awaits (closer :: outer) opener) : Awaits outer (if outer.isEmpty then none else opener) := by
  have hopener : opener ≠ none := fun h0 => by simpa using h.1.2 h0
  refine ⟨?_, fun k hk => h.2 k (List.mem_cons_of_mem _ hk)⟩
  cases outer with
  | nil => simp
  | cons k outer => simp [hopener]

/-- Every semicolon has a token behind it that is neither a space nor a comment. -/
def SemicolonsInside (ts : List Token) : Prop :=
  ∀ s tail, s :: tail <:+ ts → s.kind = .semicolon → ∃ u ∈ tail, u.isTrivia = false

theorem SemicolonsInside.cons {ts : List Token} (h : SemicolonsInside ts) {t : Token}
    (ht : t.kind = .semicolon → ∃ u ∈ ts, u.isTrivia = false) : SemicolonsInside (t :: ts) := by
  intro s tail hs hk
  rcases List.suffix_cons_iff.1 hs with he | hs
  · obtain ⟨rfl, rfl⟩ := List.cons.inj he
    exact ht hk
  · exact h s tail hs hk

theorem SemicolonsInside.kind_last {ts us : List Token} (h : SemicolonsInside (ts ++ us))
    (hus : ∀ u ∈ us, u.isTrivia = true) {last : Token} (hlast : ts.getLast? = some last) : last.kind ≠ .semicolon := by
  intro hk
  obtain ⟨init, rfl⟩ := List.getLast?_eq_some_iff.1 hlast
  obtain ⟨u, hu, hut⟩ := h last us ⟨init, by simp⟩ hk
  rw [hus u hu] at hut
  cases hut

/-- In a run with all its brackets closed that no semicolon ended, a semicolon stands in a bracket, and
that is closed behind it. -/
theorem Collects.semicolonsInside {colon : Bool} {closers : List Token.Kind} {opener : Option Token}
    {ts : List Token} {f : Found} (h : Collects custom colon closers opener ts f)
    (hawaits : Awaits closers opener) (hopener : f.opener = none)
    (hending : f.ending ≠ .semicolon ∧ f.ending ≠ .block) :
    (closers ≠ [] → ∃ u ∈ f.tokens, u.isTrivia = false) ∧ SemicolonsInside f.tokens := by
  induction h with
  | exhausted => exact ⟨fun hne => absurd (hawaits.1.2 hopener) hne, fun s tail hs => by simp at hs⟩
  | boundary => exact ⟨fun hne => absurd rfl hne, fun s tail hs => by simp at hs⟩
  | semicolon => exact absurd rfl hending.1
  | block => exact absurd rfl hending.2
  | opening hc _ ih =>
    obtain ⟨hmore, hinside⟩ := ih (hawaits.push hc) hopener hending
    obtain ⟨u, hu, hut⟩ := hmore (List.cons_ne_nil _ _)
    exact ⟨fun _ => ⟨u, List.mem_cons_of_mem _ hu, hut⟩, hinside.cons fun _ => ⟨u, hu, hut⟩⟩
  | colon hk _ ih =>
    refine ⟨fun hne => absurd rfl hne, (ih hawaits hopener hending).2.cons fun h => ?_⟩
    simp [hk] at h
  | plain hk _ ih => exact ⟨fun hne => absurd rfl hne, (ih hawaits hopener hending).2.cons fun h => absurd h hk⟩
  | @closing colon closer outer opener t ts f hk _ ih =>
    have hcloser := hawaits.2 closer List.mem_cons_self
    have ht : t.isTrivia = false ∧ t.kind ≠ .semicolon := by
      rw [← hk] at hcloser
      rcases hcloser with h | h | h <;> simp [Token.isTrivia, h]
    exact ⟨fun _ => ⟨t, List.mem_cons_self, ht.1⟩, (ih hawaits.pop hopener hending).2.cons fun h => absurd h ht.2⟩
  | inside _ _ ih =>
    obtain ⟨hmore, hinside⟩ := ih hawaits hopener hending
    obtain ⟨u, hu, hut⟩ := hmore (List.cons_ne_nil _ _)
    exact ⟨fun _ => ⟨u, List.mem_cons_of_mem _ hu, hut⟩, hinside.cons fun _ => ⟨u, hu, hut⟩⟩

end Run

/-! ## Parameters of an at-rule -/

/-- The tokens that are left to be read behind an at-rule. -/
def AtRuleRun.rest (run : AtRuleRun) : List Token :=
  match run.ending with
  | .semicolon => run.unread.drop 1
  | _ => run.unread

/-- How the tokens behind the name of an at-rule are split: a semicolon is left to be read, a brace is not. -/
def AtRuleRun.Splits (run : AtRuleRun) (ts : List Token) : Prop :=
  match run.ending with
  | .semicolon => ∃ s us, run.unread = s :: us ∧ s.kind = .semicolon ∧ ts = run.params ++ s :: us
  | .block => ∃ s, s.kind = .openCurly ∧ ts = run.params ++ s :: run.unread
  | .boundary s => s.kind = .closeCurly ∧ ts = run.params ++ s :: run.unread
  | .exhausted => run.unread = [] ∧ ts = run.params

theorem AtRuleRun.Splits.cons {run : AtRuleRun} {ts : List Token} (h : run.Splits ts) (t : Token) :
    AtRuleRun.Splits { run with params := t :: run.params } (t :: ts) := by
  unfold Splits at *
  cases hending : run.ending with
  | semicolon =>
    simp only [hending] at h ⊢
    obtain ⟨s, us, hu, hs, he⟩ := h
    exact ⟨s, us, hu, hs, by rw [he, List.cons_append]⟩
  | block =>
    simp only [hending] at h ⊢
    obtain ⟨s, hs, he⟩ := h
    exact ⟨s, hs, by rw [he, List.cons_append]⟩
  | boundary s =>
    simp only [hending] at h ⊢
    exact ⟨h.1, by rw [h.2, List.cons_append]⟩
  | exhausted =>
    simp only [hending] at h ⊢
    exact ⟨h.1, by rw [h.2]⟩

theorem AtRuleRun.Splits.params_subset {run : AtRuleRun} {ts : List Token} (h : run.Splits ts) :
    run.params ⊆ ts := by
  unfold Splits at h
  split at h
  · obtain ⟨s, us, -, -, rfl⟩ := h
    exact List.subset_append_left _ _
  · obtain ⟨s, -, rfl⟩ := h
    exact List.subset_append_left _ _
  · rw [h.2]
    exact List.subset_append_left _ _
  · rw [h.2]
    exact List.Subset.refl _

theorem collectParams_splits (closers : List Token.Kind) (ts : List Token) :
    (collectParams closers ts).Splits ts := by
  induction ts generalizing closers with
  | nil => exact ⟨rfl, rfl⟩
  | cons t ts ih =>
    unfold collectParams
    extract_lets closers' run
    clear_value closers'
    split
    · rename_i hk
      exact ⟨t, ts, rfl, hk, rfl⟩
    · rename_i hk
      exact ⟨t, hk, rfl⟩
    · rename_i hk
      exact ⟨hk, rfl⟩
    · exact (ih _).cons t

end TaggedStyles
