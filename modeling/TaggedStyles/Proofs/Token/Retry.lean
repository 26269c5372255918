import TaggedStyles.Proofs.Token.Lossless

/-! What a failed call leaves behind. A string or a comment without an end changes nothing, so all later calls answer as
if the failed one had not been made. An address without an end has used up its word `url`: asked again, the reader fails
once for each such word that is left on top, and then reads the bracket as one that opens no address. -/
namespace TaggedStyles
set_option autoImplicit false

/-! ## Failing at a bracket -/

namespace Lexeme
variable {holes : List Hole} {lenient : Bool} {word cs : Text} {i : Nat}

theorem word_eq_error {c : Char} {b : Blocked} (h : Lexeme.word holes i c cs = .error b) : ∃ n, b = .split n := by
  unfold Lexeme.word at h
  split at h
  · split at h
    · cases h
    · exact ⟨_, (Except.error.inj h).symm⟩
  · cases h

/-- What fails at an opening bracket is an address without an end, and nowhere else does one. -/
theorem paren_iff_of_error {b : Blocked} (h : first holes lenient word i cs = .error b) :
    cs.head? = some '(' ↔ b = .unclosed .unclosedBracket := by
  cases cs with
  | nil => cases h
  | cons c cs =>
    by_cases hc : c = '('
    · subst hc
      rw [first_paren] at h
      split at h
      · simp [address_eq_error (of_map_some_eq_error h)]
      · cases h
    · refine iff_of_false (by simpa using hc) ?_
      rintro rfl
      simp only [first] at h
      split at h
      · cases h
      · split at h
        iterate 7 cases h
        · exact hc rfl
        iterate 2 cases string_eq_error (of_map_some_eq_error h)
        iterate 2 cases h
        · split at h
          · cases comment_eq_error (of_map_some_eq_error h)
          · obtain ⟨n, hn⟩ := word_eq_error (of_map_some_eq_error h)
            cases hn

theorem eq_url_of_opensAddress (h : opensAddress word cs = true) : word = "url".toList := by
  rw [opensAddress, Bool.and_eq_true, beq_iff_eq] at h
  exact h.1

/-- A bracket that is read as a group is never the bracket alone that stands for an open address. -/
theorem group_ne_bracket {i : Nat} : Reader.tokenOf (group holes i cs) i ≠ Reader.tokenOf ⟨.brackets, ['('], cs⟩ i := by
  intro h
  have hkind := congrArg Token.kind h
  have htext := congrArg Token.text h
  rw [Reader.tokenOf_kind, Reader.tokenOf_kind] at hkind
  rw [Reader.tokenOf_text, Reader.tokenOf_text] at htext
  rcases group_cases holes i cs with hg | ⟨l, hl, hg⟩
  · rw [hg] at hkind
    cases hkind
  · obtain ⟨hne, rfl⟩ := through?_eq_some hl
    rw [hg] at htext
    have hlength := congrArg List.length htext
    have hpos := List.length_pos_iff.2 hne
    simp only [List.length_append, List.length_take, List.length_singleton] at hlength
    omega

end Lexeme

/-! ## Calls with push-back -/

namespace Reader

/-- A call of a reader. -/
inductive Call where
  | next (lenient : Bool)
  | back (t : Token)
deriving DecidableEq

/-- What some calls answer, and the reader behind them. -/
def use : List Call → Reader → List (Except Fault (Option Token)) × Reader
  | [], r => ([], r)
  | .next lenient :: cs, r =>
    ((r.next lenient).1 :: (use cs (r.next lenient).2).1, (use cs (r.next lenient).2).2)
  | .back t :: cs, r => use cs (r.back t)

variable {r r' : Reader} {lenient : Bool} {error : StyleError} {cs : Text} {words : List Text}

theorem use_append (as bs : List Call) (r : Reader) :
    use (as ++ bs) r = ((use as r).1 ++ (use bs (use as r).2).1, (use bs (use as r).2).2) := by
  induction as generalizing r with
  | nil => rfl
  | cons a as ih => cases a <;> simp [use, ih]

/-! ## Open addresses -/

/-- A strict reader stands at a bracket that opens an address without an end if the last word is `url`. -/
structure AtOpenAddress (r : Reader) (cs : Text) : Prop where
  rest : r.rest = '(' :: cs
  strict : r.lenient = false
  returned : r.returned = []
  opens : Lexeme.opensAddress "url".toList cs = true
  unclosed : Lexeme.address r.holes false r.position cs = .error (.unclosed .unclosedBracket)

theorem AtOpenAddress.withWords (h : r.AtOpenAddress cs) (words : List Text) :
    AtOpenAddress { r with words := words } cs := ⟨h.rest, h.strict, h.returned, h.opens, h.unclosed⟩

theorem AtOpenAddress.address_lenient (h : r.AtOpenAddress cs) :
    Lexeme.address r.holes true r.position cs = .ok ⟨.brackets, ['('], cs⟩ := by
  have hunclosed := h.unclosed
  unfold Lexeme.address at hunclosed ⊢
  split at hunclosed
  · cases hunclosed
  · rfl

theorem AtOpenAddress.answer (h : r.AtOpenAddress cs) (lenient : Bool) :
    (r.next lenient).1 =
      if r.words.head? = some "url".toList then
        if lenient then .ok (some (tokenOf ⟨.brackets, ['('], cs⟩ r.position))
        else .error (.style (r.excerpt.error .unclosedBracket r.position))
      else .ok (some (tokenOf (Lexeme.group r.holes r.position cs) r.position)) := by
  have hhead : Lexeme.opensAddress (r.words.headD []) cs = true ↔ r.words.head? = some "url".toList := by
    cases hwords : r.words with
    | nil => simp [Lexeme.opensAddress]
    | cons word words =>
      rw [List.headD_cons, List.head?_cons, Option.some_inj]
      exact ⟨Lexeme.eq_url_of_opensAddress, fun hword => hword ▸ h.opens⟩
  rw [next_eq h.returned, h.strict, Bool.false_or, h.rest, Lexeme.first_paren]
  by_cases hurl : r.words.head? = some "url".toList
  · rw [if_pos (hhead.2 hurl), if_pos hurl]
    cases lenient with
    | true =>
      rw [h.address_lenient]
      rfl
    | false =>
      rw [h.unclosed]
      rfl
  · rw [if_neg fun hopens => hurl (hhead.1 hopens), if_neg hurl]

theorem AtOpenAddress.next_url (h : r.AtOpenAddress cs) (hwords : r.words = "url".toList :: words) :
    r.next = (.error (.style (r.excerpt.error .unclosedBracket r.position)), { r with words := words }) := by
  have hused : r.used = { r with words := words } := by
    rw [used, h.rest, hwords]
    rfl
  have hfirst : Lexeme.first r.holes (r.lenient || false) (r.words.headD []) r.position r.rest =
      .error (.unclosed .unclosedBracket) := by
    rw [h.strict, Bool.or_self, h.rest, Lexeme.first_paren, hwords, List.headD_cons, if_pos h.opens, h.unclosed]
    rfl
  rw [next_eq h.returned, hfirst, hused]

theorem AtOpenAddress.use_next (h : r.AtOpenAddress cs) (k : Nat) {others : List Text}
    (hwords : r.words = List.replicate k "url".toList ++ others) :
    use (List.replicate k (.next false)) r =
      (List.replicate k (.error (.style (r.excerpt.error .unclosedBracket r.position))), { r with words := others }) := by
  induction k generalizing r with
  | zero =>
    rw [List.replicate_zero, List.nil_append] at hwords
    rw [← hwords]
    rfl
  | succ k ih =>
    rw [List.replicate_succ, List.cons_append] at hwords
    have hmore := ih (h.withWords _) rfl
    rw [List.replicate_succ, List.replicate_succ, use, h.next_url hwords]
    simp only [hmore]

theorem AtOpenAddress.use_next_succ (h : r.AtOpenAddress cs) (k : Nat) {others : List Text}
    (hwords : r.words = List.replicate k "url".toList ++ others) (hothers : others.head? ≠ some "url".toList) :
    (use (List.replicate (k + 1) (.next false)) r).1 =
      List.replicate k (.error (.style (r.excerpt.error .unclosedBracket r.position))) ++
        [.ok (some (tokenOf (Lexeme.group r.holes r.position cs) r.position))] := by
  rw [List.replicate_succ', use_append, h.use_next k hwords, use, use, (h.withWords others).answer, if_neg hothers]

theorem exists_replicate_urls (words : List Text) : ∃ others,
    words = List.replicate (words.takeWhile (· == "url".toList)).length "url".toList ++ others ∧
      others.head? ≠ some "url".toList := by
  refine ⟨words.dropWhile (· == "url".toList), ?_, fun hhead => ?_⟩
  · have hall : words.takeWhile (· == "url".toList) = List.replicate _ "url".toList :=
      List.eq_replicate_iff.2 ⟨rfl, fun w hw => by simpa using List.mem_takeWhile_imp hw⟩
    rw [← hall, List.takeWhile_append_dropWhile]
  · have hnot := List.head?_dropWhile_not (· == "url".toList) words
    rw [hhead] at hnot
    simp at hnot

/-! ## Failed calls -/

/-- What a failed call leaves: the reader as it was, or a reader at an open address with one word `url` less. -/
theorem next_failed (h : r.next lenient = (.error (.style error), r')) :
    (error.cause ≠ .unclosedBracket ∧ r' = r) ∨
    (error = r.excerpt.error .unclosedBracket r.position ∧ ∃ cs words, r.AtOpenAddress cs ∧
      r.words = "url".toList :: words ∧ r' = { r with words := words }) := by
  have hreturned : r.returned = [] := by
    unfold Reader.next at h
    split at h
    · cases (Prod.mk.inj h).1
    · assumption
  rw [next_eq hreturned] at h
  match hfirst : Lexeme.first r.holes (r.lenient || lenient) (r.words.headD []) r.position r.rest with
  | .ok none =>
    rw [hfirst] at h
    cases (Prod.mk.inj h).1
  | .ok (some l) =>
    rw [hfirst] at h
    cases (Prod.mk.inj h).1
  | .error (.split n) =>
    rw [hfirst] at h
    cases (Prod.mk.inj h).1
  | .error (.unclosed cause) =>
    rw [hfirst] at h
    obtain ⟨herror, rfl⟩ := Prod.mk.inj h
    obtain rfl := Fault.style.inj (Except.error.inj herror)
    have hparen := Lexeme.paren_iff_of_error hfirst
    by_cases hhead : r.rest.head? = some '('
    · obtain ⟨cs, hrest⟩ := List.head?_eq_some_iff.1 hhead
      obtain rfl := Blocked.unclosed.inj (hparen.1 hhead)
      rw [hrest, Lexeme.first_paren] at hfirst
      split at hfirst
      · rename_i hopens
        have hurl := Lexeme.eq_url_of_opensAddress hopens
        have haddress := Lexeme.of_map_some_eq_error hfirst
        have hmode : (r.lenient || lenient) = false := by
          cases hmode : r.lenient || lenient with
          | false => rfl
          | true =>
            rw [hmode] at haddress
            unfold Lexeme.address at haddress
            split at haddress <;> cases haddress
        rw [hmode] at haddress
        rw [hurl] at hopens
        cases hwords : r.words with
        | nil =>
          rw [hwords] at hurl
          cases hurl
        | cons word words =>
          rw [hwords, List.headD_cons] at hurl
          refine .inr ⟨rfl, cs, words, ⟨hrest, ?_, hreturned, hopens, haddress⟩, by rw [hurl], ?_⟩
          · exact (Bool.or_eq_false_iff.1 hmode).1
          · rw [used, if_pos hhead, hwords]
            rfl
      · cases hfirst
    · refine .inl ⟨fun hcause => hhead (hparen.2 ?_), by rw [used, if_neg hhead]⟩
      exact congrArg Blocked.unclosed hcause

/-- A failed call takes away the word `url` in front of an open address and changes nothing else. All later calls
answer as if it had not been made if and only if it did not fail at such an address. The next call answers as it would
have in place of the failed one, strictly or leniently, if and only if that or another word `url` is left on top. Behind
an open address the reader fails once for each of these words, and then takes the bracket for one that opens no
address. -/
theorem next_after_failed (h : r.next lenient = (.error (.style error), r')) :
    r' = { r with words := if error.cause = .unclosedBracket then r.words.tail else r.words } ∧
    ((∀ later, (use later r').1 = (use later r).1) ↔ error.cause ≠ .unclosedBracket) ∧
    (∀ again, (r'.next again).1 = (r.next again).1 ↔
      error.cause ≠ .unclosedBracket ∨ r.words.tail.head? = some "url".toList) ∧
    (error.cause = .unclosedBracket → ∃ cs, r.rest = '(' :: cs ∧
      let urls := (r.words.takeWhile (· == "url".toList)).length
      (use (List.replicate (urls + 1) (.next false)) r).1 = List.replicate urls (.error (.style error)) ++
        [.ok (some (tokenOf (Lexeme.group r.holes r.position cs) r.position))]) := by
  rcases next_failed h with ⟨hcause, rfl⟩ | ⟨rfl, cs, words, haddress, hwords, rfl⟩
  · exact ⟨by rw [if_neg hcause], iff_of_true (fun _ => rfl) hcause, fun _ => iff_of_true rfl (.inl hcause),
      fun hbracket => absurd hbracket hcause⟩
  · have hcause : (r.excerpt.error .unclosedBracket r.position).cause = .unclosedBracket := rfl
    obtain ⟨others, hsplit, hothers⟩ := exists_replicate_urls words
    -- The reader as it was fails once more often than the one behind the failed call.
    have hbefore : r.words = List.replicate ((words.takeWhile (· == "url".toList)).length + 1) "url".toList ++ others := by
      rw [hwords, List.replicate_succ, List.cons_append, ← hsplit]
    have hafter := haddress.withWords words
    refine ⟨by rw [if_pos hcause, hwords, List.tail_cons], iff_of_false (fun hsame => ?_) (by simp [hcause]),
      fun again => ?_, fun _ => ⟨cs, haddress.rest, ?_⟩⟩
    · have hlater := hsame (List.replicate ((words.takeWhile (· == "url".toList)).length + 1) (.next false))
      rw [hafter.use_next_succ _ hsplit hothers, haddress.use_next _ hbefore, List.replicate_succ'] at hlater
      obtain ⟨hlast, -⟩ := List.cons.inj (List.append_cancel_left hlater)
      cases hlast
    · rw [hafter.answer, haddress.answer, hwords, List.head?_cons, if_pos rfl, List.tail_cons]
      simp only [hcause, ne_eq, not_true_eq_false, false_or]
      by_cases hurl : words.head? = some "url".toList
      · simp only [hurl, if_true]
      · refine iff_of_false ?_ hurl
        rw [if_neg hurl]
        cases again with
        | true => exact fun hsame => Lexeme.group_ne_bracket (Option.some.inj (Except.ok.inj hsame))
        | false => exact fun hsame => by cases hsame
    · have hurls : (r.words.takeWhile (· == "url".toList)).length = (words.takeWhile (· == "url".toList)).length + 1 := by
        rw [hwords, List.takeWhile_cons_of_pos (by simp), List.length_cons]
      rw [hurls]
      exact haddress.use_next_succ _ hbefore hothers

/-- Behind two words `url` the call fails twice before the bracket is read. -/
theorem next_after_failed_twice :
    let r := (use [.next false, .next false, .next false] (start ⟨"url url(".toList, Position.front, none⟩ [])).2
    ∃ error r', r.next = (.error (.style error), r') ∧ (∀ again, (r'.next again).1 = (r.next again).1) ∧
      ¬∀ later, (use later r').1 = (use later r).1 := by
  intro r
  have hfault : r.next.1 = .error (.style ⟨.unclosedBracket, ⟨7, 1, 8⟩, none⟩) := by decide +kernel
  have hfailed : r.next = (.error (.style _), r.next.2) := Prod.ext hfault rfl
  obtain ⟨-, hlater, hagain, -⟩ := next_after_failed hfailed
  exact ⟨_, _, hfailed, fun again => (hagain again).2 (.inr (by decide +kernel)), fun h => hlater.1 h rfl⟩

/-- Behind one word `url` the next call reads the bracket at which the call before it failed. -/
theorem next_forgets_url : ¬∀ (e : Excerpt) (holes : List Hole) (cs : List Call) (error : StyleError) (r' : Reader),
    (use cs (start e holes)).2.next = (.error (.style error), r') →
      ∀ later, (use later r').1 = (use later (use cs (start e holes)).2).1 := by
  intro h
  have hfault : (use [.next false] (start ⟨"url(".toList, Position.front, none⟩ [])).2.next.1 =
      .error (.style ⟨.unclosedBracket, ⟨3, 1, 4⟩, none⟩) := by decide +kernel
  have hsame := h _ _ _ _ _ (Prod.ext hfault rfl) [.next false]
  exact absurd hsame (by decide +kernel)

end Reader
end TaggedStyles
