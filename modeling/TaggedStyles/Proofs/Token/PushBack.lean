import TaggedStyles.Proofs.Token.Lenient

/-! Push-back does not change what is read. As long as tokens are returned in the reverse order of reading, a reader goes
through the tokens of a plain run: those read and not returned are the front of it, the next call answers what follows
in it, and the place of the reader is the end of the longest such front so far. -/
namespace TaggedStyles
set_option autoImplicit false

namespace Reader
variable {e : Excerpt} {holes : List Hole} {lenient : Bool} {r r' r₀ : Reader} {t : Token} {read longest : List Token}

/-! ## Reading to the end -/

theorem back_next (r : Reader) (t : Token) : (r.back t).next = (.ok (some t), r) := next_of_returned rfl

theorem take_congr {n m : Nat} (hn : r.returned.length + r.rest.length < n) (hm : r.returned.length + r.rest.length < m) :
    take n r = take m r := by
  induction n generalizing m r with
  | zero => exact absurd hn (Nat.not_lt_zero _)
  | succ n ih =>
    obtain ⟨m, rfl⟩ := Nat.exists_eq_add_one_of_ne_zero (Nat.ne_of_gt (Nat.zero_lt_of_lt hm))
    rw [take, take]
    split
    · rename_i t r' hnext
      have hless := (next_shortens hnext).2
      rw [ih (m := m) (by omega) (by omega)]
    · rfl
    · rfl

/-- What is read to the end is the answer to the next call, and what is read to the end behind it. -/
theorem drain_eq (r : Reader) : r.drain = match r.next with
    | (.ok (some t), r') => (t :: r'.drain.1, r'.drain.2)
    | (.ok none, r') => ([], none, r')
    | (.error fault, r') => ([], some fault, r') := by
  rw [drain, take]
  rcases hnext : r.next with ⟨fault | o, r'⟩
  · rfl
  · cases o with
    | none => rfl
    | some t =>
      have hless := (next_shortens hnext).2
      simp only
      rw [take_congr (m := r'.returned.length + r'.rest.length + 1) hless (Nat.lt_succ_self _)]
      rfl

theorem drain_next (h : r.next = (.ok (some t), r')) : r.drain = (t :: r'.drain.1, r'.drain.2) := by
  rw [drain_eq, h]

theorem drain_back (r : Reader) (t : Token) : (r.back t).drain = (t :: r.drain.1, r.drain.2) :=
  drain_next (r.back_next t)

theorem drain_returned (r : Reader) (ts : List Token) :
    drain { r with returned := ts } = (ts ++ r.plain.drain.1, r.plain.drain.2) := by
  induction ts with
  | nil => rfl
  | cons t ts ih => rw [show ({ r with returned := t :: ts } : Reader) = back { r with returned := ts } t from rfl,
      drain_back, ih, List.cons_append]

/-- The answer to a call is the first token of what is read to the end, or what ends it. -/
theorem next_eq_drain (r : Reader) : r.next.1 = match r.drain.1, r.drain.2.1 with
    | t :: _, _ => .ok (some t)
    | [], some fault => .error fault
    | [], none => .ok none := by
  rw [drain_eq]
  rcases r.next with ⟨x, r'⟩
  rcases x with fault | o
  · rfl
  · cases o <;> rfl

theorem atEnd_iff_next : r.atEnd = true ↔ r.next.1 = .ok none := by
  rw [atEnd, Bool.and_eq_true, List.isEmpty_iff, List.isEmpty_iff]
  constructor
  · rintro ⟨hreturned, hrest⟩
    rw [next_eq hreturned, hrest]
    rfl
  · intro h
    cases hreturned : r.returned with
    | cons t ts =>
      rw [next_of_returned hreturned] at h
      cases h
    | nil =>
      have hnext : r.next = (.ok none, r.next.2) := Prod.ext h rfl
      exact ⟨rfl, next_none hreturned hnext⟩

theorem eq_of_next_none (h : r.next = (.ok none, r')) : r' = r := by
  have hend := atEnd_iff_next.2 (congrArg Prod.fst h)
  rw [atEnd, Bool.and_eq_true, List.isEmpty_iff] at hend
  exact next_nothing hend.1 h

theorem atEnd_iff_drain : r.atEnd = true ↔ r.drain.1 = [] ∧ r.drain.2.1 = none := by
  rw [atEnd_iff_next, next_eq_drain]
  split <;> simp_all

/-! ## Returning what was read -/

/-- A reader that is used so that only the last token that was read and not yet returned is pushed back, and calls that
fail are not made: the tokens read and not returned, the longest that they have been, and the reader. -/
inductive Rereads (r₀ : Reader) : (read longest : List Token) → Reader → Prop
  | start : Rereads r₀ [] [] r₀
  | next {read longest : List Token} {r r' : Reader} {t : Token} : Rereads r₀ read longest r →
      r.next = (.ok (some t), r') →
      Rereads r₀ (read ++ [t]) (if longest.length ≤ read.length then read ++ [t] else longest) r'
  | nothing {read longest : List Token} {r r' : Reader} : Rereads r₀ read longest r → r.next = (.ok none, r') →
      Rereads r₀ read longest r'
  | back {read longest : List Token} {r : Reader} {t : Token} : Rereads r₀ (read ++ [t]) longest r →
      Rereads r₀ read longest (r.back t)

/-- The tokens returned are those of the longest front that are not read again, and with what is read to the end behind
them the tokens are those of the reader at the start. -/
theorem Rereads.drain (h : Rereads r₀ read longest r) (hstart : r₀.returned = []) :
    longest = read ++ r.returned ∧ r₀.drain = (read ++ r.drain.1, r.drain.2) := by
  induction h with
  | start => exact ⟨hstart.symm, rfl⟩
  | @next read longest r r' t _ hnext ih =>
    obtain ⟨hlongest, hdrain⟩ := ih
    refine ⟨?_, by rw [hdrain, drain_next hnext, List.append_assoc, List.singleton_append]⟩
    cases hreturned : r.returned with
    | nil =>
      obtain ⟨-, -, -, -, -, -, -, hreturned'⟩ := next_some hreturned hnext
      rw [hlongest, hreturned, List.append_nil, if_pos (Nat.le_refl _), hreturned', List.append_nil]
    | cons u us =>
      rw [next_of_returned hreturned] at hnext
      obtain ⟨ht, rfl⟩ := Prod.mk.inj hnext
      obtain rfl := Option.some.inj (Except.ok.inj ht)
      rw [hlongest, hreturned, if_neg (by simp), List.append_assoc, List.singleton_append]
  | @nothing read longest r r' _ hnext ih =>
    obtain rfl := eq_of_next_none hnext
    exact ih
  | @back read longest r t _ ih =>
    obtain ⟨hlongest, hdrain⟩ := ih
    refine ⟨by rw [hlongest, List.append_assoc, List.singleton_append]; rfl, ?_⟩
    rw [hdrain, drain_back, List.append_assoc, List.singleton_append]

theorem Rereads.behind (h : Rereads (Reader.start e holes lenient) read longest r) :
    r.plain.Behind e holes (Token.joined longest) := by
  induction h with
  | start => exact Behind.start e holes lenient
  | @next read longest r r' t hbefore hnext ih =>
    obtain ⟨hlongest, -⟩ := hbefore.drain rfl
    cases hreturned : r.returned with
    | nil =>
      rw [hlongest, hreturned, List.append_nil] at ih ⊢
      rw [plain_of_returned hreturned] at ih
      have hbehind := ih.next hnext
      rw [if_pos (Nat.le_refl _), plain_of_returned hbehind.returned, Token.joined_append]
      exact hbehind
    | cons u us =>
      rw [next_of_returned hreturned] at hnext
      obtain ⟨-, rfl⟩ := Prod.mk.inj hnext
      rw [if_neg (by rw [hlongest, hreturned]; simp)]
      exact ih
  | @nothing read longest r r' _ hnext ih =>
    obtain rfl := eq_of_next_none hnext
    exact ih
  | back _ ih => exact ih

/-- However reading and returning alternate, if each token that is returned is the last one read and not yet returned:
the tokens read and not returned are the front of those of a plain run, the next call answers the token that follows
them there, or what ends the plain run, the reader's place is the end of the longest front read so far, and it is at the
end exactly if the front is all of a text that is read without a fault. -/
theorem reads_as_plain (h : Rereads (start e holes lenient) read longest r) :
    let plain := (start e holes lenient).drain
    read <+: longest ∧ longest <+: plain.1 ∧
    (∀ t rest, plain.1 = read ++ t :: rest → r.next.1 = .ok (some t)) ∧
    (read = plain.1 → r.next.1 = match plain.2.1 with | some fault => .error fault | none => .ok none) ∧
    e.text.slice? 0 r.position = some (Token.joined longest) ∧
    (r.atEnd = true ↔ read = plain.1 ∧ plain.2.1 = none) := by
  obtain ⟨hlongest, hdrain⟩ := h.drain rfl
  have hreturned : r.drain.1 = r.returned ++ r.plain.drain.1 := congrArg Prod.fst (r.drain_returned r.returned)
  have hbehind := h.behind
  intro plain
  have hplain : plain = (read ++ r.drain.1, r.drain.2) := hdrain
  rw [hplain]
  refine ⟨⟨r.returned, hlongest.symm⟩, ⟨r.plain.drain.1, ?_⟩, fun t rest hrest => ?_, fun hread => ?_, hbehind.slice, ?_⟩
  · rw [hlongest, List.append_assoc, ← hreturned]
  · rw [next_eq_drain, List.append_cancel_left hrest]
  · rw [next_eq_drain, List.append_right_eq_self.1 hread.symm]
    cases r.drain.2.1 <;> rfl
  · rw [atEnd_iff_drain, eq_comm (a := read), List.append_right_eq_self]

/-- Of three tokens that were read, a hole among them, two are returned; behind the third a call would fail. -/
theorem reads_as_plain_returned :
    ∃ hole space word r, Rereads (start ⟨"$\x7ba\x7d é'".toList, Position.front, none⟩ [⟨0, 3⟩]) [hole]
        [hole, space, word] r ∧
      r.next.1 = .ok (some space) ∧ r.atEnd = false ∧
      Text.slice? "$\x7ba\x7d é'".toList 0 r.position = some "$\x7ba\x7d é".toList := by
  obtain ⟨r₀, hr₀⟩ : ∃ r₀, r₀ = start ⟨"$\x7ba\x7d é'".toList, Position.front, none⟩ [⟨0, 3⟩] := ⟨_, rfl⟩
  have hhole : r₀.next.1 = .ok (some ⟨.word, "$\x7ba\x7d".toList, some 0, some 3⟩) := hr₀ ▸ by decide +kernel
  have hspace : r₀.next.2.next.1 = .ok (some (.space [' '])) := hr₀ ▸ by decide +kernel
  have hword : r₀.next.2.next.2.next.1 = .ok (some ⟨.word, ['é'], some 5, some 5⟩) := hr₀ ▸ by decide +kernel
  have hread := ((Rereads.start.next (Prod.ext hhole rfl)).next (Prod.ext hspace rfl)).next (Prod.ext hword rfl)
  have hback : Rereads r₀ [_] [_, _, _] _ := hread.back.back
  have hplain : r₀.drain.1 = [⟨.word, "$\x7ba\x7d".toList, some 0, some 3⟩, .space [' '],
      ⟨.word, ['é'], some 5, some 5⟩] := hr₀ ▸ by decide +kernel
  rw [hr₀] at hback hplain
  obtain ⟨-, -, hnext, -, hslice, hend⟩ := reads_as_plain hback
  refine ⟨_, _, _, _, hback, hnext _ [⟨.word, ['é'], some 5, some 5⟩] hplain, ?_, hslice⟩
  rw [← Bool.not_eq_true, hend, hplain]
  decide

end Reader
end TaggedStyles
