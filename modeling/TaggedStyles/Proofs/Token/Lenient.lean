import TaggedStyles.Proofs.Token.Retry

/-! Lenient reading goes further than strict reading. Wherever a reader has come to, a lenient call succeeds, and it
answers what a strict one answers if that succeeds; so a lenient run starts with the tokens of the strict one and goes
on to the end of the text. -/
namespace TaggedStyles
set_option autoImplicit false

/-! ## Lenient lexemes -/

/-- What is found strictly and leniently is the same, unless a closing mark is all that strict reading misses. -/
def Relaxes {α : Type} (strict lenient : Except Blocked α) : Prop :=
  (lenient = strict ∧ ∀ cause, strict ≠ .error (.unclosed cause)) ∨
    ∃ cause found, strict = .error (.unclosed cause) ∧ lenient = .ok found

namespace Relaxes
variable {α β : Type} {x y : Except Blocked α}

theorem of_ok (a : α) : Relaxes (.ok a) (.ok a) := .inl ⟨rfl, fun _ h => by cases h⟩

theorem map (h : Relaxes x y) (f : α → β) : Relaxes (f <$> x) (f <$> y) := by
  rcases h with ⟨rfl, hclosed⟩ | ⟨cause, found, rfl, rfl⟩
  · refine .inl ⟨rfl, fun cause hx => hclosed cause ?_⟩
    match y with
    | .error b => exact congrArg Except.error (Except.error.inj hx)
    | .ok a => cases hx
  · exact .inr ⟨cause, f found, rfl, rfl⟩

theorem eq_of_ok (h : Relaxes x y) {a : α} (hx : x = .ok a) : y = .ok a := by
  rcases h with ⟨rfl, -⟩ | ⟨cause, found, hopen, -⟩
  · exact hx
  · rw [hx] at hopen
    cases hopen

theorem split_of_error (h : Relaxes x y) {b : Blocked} (hy : y = .error b) : ∃ n, b = .split n := by
  rcases h with ⟨rfl, hclosed⟩ | ⟨cause, found, -, hfound⟩
  · cases b with
    | unclosed cause => exact absurd hy (hclosed cause)
    | split n => exact ⟨n, rfl⟩
  · rw [hfound] at hy
    cases hy

end Relaxes

namespace Lexeme
variable (holes : List Hole) (word cs : Text) (i : Nat)

theorem string_relaxes (quote : Char) : Relaxes (string holes false i quote cs) (string holes true i quote cs) := by
  unfold string
  split
  · exact .of_ok _
  · exact .inr ⟨_, _, rfl, rfl⟩

theorem comment_relaxes : Relaxes (comment holes false i cs) (comment holes true i cs) := by
  unfold comment
  split
  · exact .of_ok _
  · exact .inr ⟨_, _, rfl, rfl⟩

theorem address_relaxes : Relaxes (address holes false i cs) (address holes true i cs) := by
  unfold address
  split
  · exact .of_ok _
  · exact .inr ⟨_, _, rfl, rfl⟩

theorem word_relaxes (c : Char) : Relaxes (Lexeme.word holes i c cs) (Lexeme.word holes i c cs) := by
  refine .inl ⟨rfl, fun cause h => ?_⟩
  obtain ⟨n, hn⟩ := word_eq_error h
  cases hn

theorem first_relaxes : Relaxes (first holes false word i cs) (first holes true word i cs) := by
  cases cs with
  | nil => exact .of_ok _
  | cons c cs =>
    simp only [first]
    split
    · exact .of_ok _
    · split
      iterate 7 exact .of_ok _
      · split
        · exact (address_relaxes holes cs i).map some
        · exact .of_ok _
      iterate 2 exact (string_relaxes holes cs i _).map some
      iterate 2 exact .of_ok _
      · split
        · exact (comment_relaxes holes _ i).map some
        · exact (word_relaxes holes _ i _).map some

end Lexeme

/-! ## Lenient calls -/

namespace Reader
variable {e : Excerpt} {holes : List Hole} {option lenient : Bool} {r r' : Reader} {o : Option Token} {w : Text}

theorem next_lenient_of_ok (h : r.next = (.ok o, r')) : r.next true = (.ok o, r') := by
  by_cases hreturned : r.returned = []
  · have hrelaxes := Lexeme.first_relaxes r.holes (r.words.headD []) r.rest r.position
    rw [next_eq hreturned] at h ⊢
    cases hoption : r.lenient with
    | true => rwa [hoption] at h
    | false =>
      rw [hoption, Bool.or_self] at h
      rw [Bool.false_or]
      cases hfirst : Lexeme.first r.holes false (r.words.headD []) r.position r.rest with
      | ok found =>
        rw [hfirst] at h
        rw [hrelaxes.eq_of_ok hfirst]
        exact h
      | error b =>
        rw [hfirst] at h
        cases b <;> cases (Prod.mk.inj h).1
  · obtain ⟨t, ts, hts⟩ := List.exists_cons_of_ne_nil hreturned
    unfold Reader.next at h ⊢
    rw [hts] at h ⊢
    exact h

/-- Nothing but a word that is cut inside a character keeps a lenient call from succeeding. -/
theorem next_lenient_error {fault : Fault} (h : r.next true = (.error fault, r')) :
    r.returned = [] ∧ ∃ n, fault = .splitCharacter n := by
  have hreturned : r.returned = [] := by
    unfold Reader.next at h
    split at h
    · cases (Prod.mk.inj h).1
    · assumption
  have hrelaxes := Lexeme.first_relaxes r.holes (r.words.headD []) r.rest r.position
  rw [next_eq hreturned, Bool.or_true] at h
  refine ⟨hreturned, ?_⟩
  cases hfirst : Lexeme.first r.holes true (r.words.headD []) r.position r.rest with
  | ok found =>
    rw [hfirst] at h
    cases found <;> cases (Prod.mk.inj h).1
  | error b =>
    obtain ⟨n, rfl⟩ := hrelaxes.split_of_error hfirst
    rw [hfirst] at h
    exact ⟨n, (Except.error.inj (Prod.mk.inj h).1).symm⟩

/-! ## Wherever a reader has come to -/

theorem next_of_returned {t : Token} {ts : List Token} (h : r.returned = t :: ts) :
    r.next lenient = (.ok (some t), { r with returned := ts }) := by
  unfold Reader.next
  rw [h]

/-- The reader without the tokens that were pushed back. -/
def plain (r : Reader) : Reader := { r with returned := [] }

theorem plain_of_returned (h : r.returned = []) : r.plain = r := by
  rw [plain, ← h]

theorem Behind.use (h : r.plain.Behind e holes w) (cs : List Call) :
    ∃ w', (Reader.use cs r).2.plain.Behind e holes w' := by
  induction cs generalizing r w with
  | nil => exact ⟨w, h⟩
  | cons call cs ih =>
    cases call with
    | back t => exact ih h
    | next lenient =>
      cases hreturned : r.returned with
      | nil =>
        rw [plain_of_returned hreturned] at h
        rcases hstep : r.next lenient with ⟨x, r₁⟩
        have hbehind := h.next hstep
        rw [← plain_of_returned hbehind.returned] at hbehind
        rw [Reader.use, hstep]
        exact ih hbehind
      | cons t ts =>
        rw [Reader.use, next_of_returned hreturned]
        exact ih h

theorem Behind.next_lenient (h : r.plain.Behind e holes w)
    (hon : ∀ h ∈ holes, h.fits e.text.size = true → h.OnCharacters e.text) : ∃ o r', r.next true = (.ok o, r') := by
  match hnext : r.next true with
  | (.ok o, r') => exact ⟨o, r', rfl⟩
  | (.error fault, r') =>
    obtain ⟨hreturned, n, rfl⟩ := next_lenient_error hnext
    rw [plain_of_returned hreturned] at h
    obtain ⟨error, herror⟩ := next_fault h hnext hon
    cases herror

/-! ## Lenient runs -/

theorem next_shortens {t : Token} (h : r.next lenient = (.ok (some t), r')) :
    t.text ++ (Token.joined r'.returned ++ r'.rest) = Token.joined r.returned ++ r.rest ∧
      r'.returned.length + r'.rest.length < r.returned.length + r.rest.length := by
  cases hreturned : r.returned with
  | cons u us =>
    rw [next_of_returned hreturned] at h
    obtain ⟨ht, rfl⟩ := Prod.mk.inj h
    obtain rfl := Option.some.inj (Except.ok.inj ht)
    refine ⟨by rw [Token.joined_cons, List.append_assoc], ?_⟩
    simp only [List.length_cons]
    omega
  | nil =>
    obtain ⟨l, hreads, rfl, hrest, -, -, -, hreturned'⟩ := next_token hreturned h
    have happend := hreads.append
    have hlength := congrArg List.length happend
    have hpos := List.length_pos_iff.2 hreads.text_ne_nil
    rw [List.length_append] at hlength
    rw [hreturned', tokenOf_text, Token.joined_nil, List.nil_append, hrest]
    exact ⟨happend, by simp only [List.length_nil]; omega⟩

/-- The reader set to lenient reading. -/
def leniently (r : Reader) : Reader := { r with lenient := true }

theorem leniently_used (r : Reader) : r.leniently.used = r.used.leniently := by
  unfold used leniently
  split <;> rfl

/-- A reader set to lenient reading answers as one that is asked for it at each call. -/
theorem next_leniently (r : Reader) : r.leniently.next = ((r.next true).1, (r.next true).2.leniently) := by
  cases hreturned : r.returned with
  | cons t ts =>
    have hreturned' : r.leniently.returned = t :: ts := hreturned
    rw [next_of_returned hreturned, next_of_returned hreturned']
    rfl
  | nil =>
    have hreturned' : r.leniently.returned = [] := hreturned
    have hfirst : Lexeme.first r.leniently.holes (r.leniently.lenient || false) (r.leniently.words.headD [])
        r.leniently.position r.leniently.rest =
          Lexeme.first r.holes (r.lenient || true) (r.words.headD []) r.position r.rest := by
      rw [Bool.or_true]
      rfl
    rw [next_eq hreturned, next_eq hreturned', hfirst, leniently_used]
    match Lexeme.first r.holes (r.lenient || true) (r.words.headD []) r.position r.rest with
    | .ok none => rfl
    | .ok (some l) => rfl
    | .error (.unclosed cause) => rfl
    | .error (.split n) => rfl

/-- A lenient run from `r` takes the tokens `ts` and ends with the reader `last`: they are all that there was to read,
the strict run starts with them, and further calls find the end. -/
structure ReadsOut (r : Reader) (ts : List Token) (last : Reader) : Prop where
  strict : ∀ n, (take n r).1 <+: ts
  option : ∀ n, ts.length < n → take n r.leniently = (ts, none, last.leniently)
  calls : ∀ n, (use (List.replicate n (.next true)) r).1 =
    (ts.map fun t => .ok (some t)).take n ++ List.replicate (n - ts.length) (.ok none)
  length : ts.length ≤ r.returned.length + r.rest.length
  text : Token.joined ts = Token.joined r.returned ++ r.rest
  atEnd : last.atEnd = true

theorem ReadsOut.nil (h : r.next true = (.ok none, r')) : r.ReadsOut [] r := by
  have hreturned : r.returned = [] := by
    cases hreturned : r.returned with
    | nil => rfl
    | cons t ts =>
      rw [next_of_returned hreturned] at h
      cases h
  have hrest := next_none hreturned h
  obtain rfl := next_nothing hreturned h
  refine ⟨fun n => ?_, fun n hn => ?_, fun n => ?_, Nat.zero_le _, by rw [hreturned, hrest]; rfl, ?_⟩
  · cases n with
    | zero => exact List.prefix_refl _
    | succ n =>
      rw [take, next_eq hreturned, hrest]
      exact List.prefix_refl _
  · obtain ⟨n, rfl⟩ := Nat.exists_eq_add_one_of_ne_zero (Nat.ne_of_gt hn)
    rw [take, next_leniently, h]
  · induction n with
    | zero => rfl
    | succ n ih =>
      rw [List.replicate_succ, use, h]
      simpa [List.replicate_succ] using ih
  · rw [Reader.atEnd, hreturned, hrest]
    rfl

theorem ReadsOut.cons {t : Token} {ts : List Token} {last : Reader} (h : r.next true = (.ok (some t), r'))
    (hmore : r'.ReadsOut ts last) : r.ReadsOut (t :: ts) last := by
  obtain ⟨htext, hlength⟩ := next_shortens h
  refine ⟨fun n => ?_, fun n hn => ?_, fun n => ?_, ?_, ?_, hmore.atEnd⟩
  · cases n with
    | zero => exact List.nil_prefix
    | succ n =>
      rw [take]
      split
      · rename_i u r₁ hnext
        rw [next_lenient_of_ok hnext] at h
        obtain ⟨hu, rfl⟩ := Prod.mk.inj h
        obtain rfl := Option.some.inj (Except.ok.inj hu)
        exact List.cons_prefix_cons.2 ⟨rfl, hmore.strict n⟩
      · exact List.nil_prefix
      · exact List.nil_prefix
  · obtain ⟨n, rfl⟩ := Nat.exists_eq_add_one_of_ne_zero (Nat.ne_of_gt (Nat.lt_of_le_of_lt (Nat.zero_le _) hn))
    rw [take, next_leniently, h]
    simp only [hmore.option n (by simpa using hn)]
  · cases n with
    | zero => simp [use]
    | succ n =>
      rw [List.replicate_succ, use, h]
      simp only [hmore.calls n, List.map_cons, List.take_succ_cons, List.length_cons, Nat.add_sub_add_right,
        List.cons_append]
  · have hle := hmore.length
    rw [List.length_cons]
    omega
  · rw [Token.joined_cons, hmore.text, htext]

/-- A lenient run comes to the end, because each token makes less of what is to be read. -/
theorem Behind.exists_readsOut {r : Reader} {w : Text} (h : r.plain.Behind e holes w)
    (hon : ∀ h ∈ holes, h.fits e.text.size = true → h.OnCharacters e.text) : ∃ ts last, r.ReadsOut ts last := by
  obtain ⟨o, r', hnext⟩ := h.next_lenient hon
  cases o with
  | none => exact ⟨[], r, .nil hnext⟩
  | some t =>
    have hlength := (next_shortens hnext).2
    obtain ⟨w', hbehind⟩ := h.use [.next true]
    rw [Reader.use, hnext] at hbehind
    obtain ⟨ts, last, hmore⟩ := Behind.exists_readsOut (r := r') hbehind hon
    exact ⟨t :: ts, last, .cons hnext hmore⟩
termination_by r.returned.length + r.rest.length

/-- Wherever a reader has come to by calls and push-back, if the holes lie between characters: a lenient call succeeds;
where a strict call succeeds it gives the same and leaves the same reader; and a lenient run, set for the reader or asked
for at each call, starts with the tokens of the strict run, takes no more tokens than there are characters and tokens
pushed back, finds the end behind them, and has read all that there was to read. -/
theorem lenient_extends_strict (hon : ∀ h ∈ holes, h.fits e.text.size = true → h.OnCharacters e.text)
    {cs : List Call} (hr : (use cs (start e holes option)).2 = r) :
    (∃ o r', r.next true = (.ok o, r')) ∧
    (∀ o r', r.next = (.ok o, r') → r.next true = (.ok o, r')) ∧
    ∃ ts last, r.drain.1 <+: ts ∧ r.leniently.drain = (ts, none, last) ∧ last.atEnd = true ∧
      (∀ n, (use (List.replicate n (.next true)) r).1 =
        (ts.map fun t => .ok (some t)).take n ++ List.replicate (n - ts.length) (.ok none)) ∧
      ts.length ≤ r.returned.length + r.rest.length ∧
      Token.joined ts = Token.joined r.returned ++ r.rest := by
  obtain ⟨w, hbehind⟩ := Behind.use (r := start e holes option) (Behind.start e holes option) cs
  rw [hr] at hbehind
  obtain ⟨ts, last, hrun⟩ := hbehind.exists_readsOut hon
  exact ⟨hbehind.next_lenient hon, fun o r' => next_lenient_of_ok, ts, last.leniently, hrun.strict _,
    hrun.option _ (Nat.lt_succ_of_le hrun.length), hrun.atEnd, hrun.calls, hrun.length, hrun.text⟩

/-- An open string ends the strict run behind `é` and not the lenient one; a token that was pushed back comes first. -/
theorem lenient_extends_strict_open :
    ∃ r ts last, (use [.next false, .back ⟨.word, "a".toList, some 0, some 0⟩]
        (start ⟨"a é'b".toList, Position.front, none⟩ [⟨2, 3⟩])).2 = r ∧
      r.leniently.drain = (ts, none, last) ∧ r.drain.1 <+: ts ∧ r.drain.1.length = 3 ∧
      Token.joined ts = "a é'b".toList := by
  obtain ⟨r, hr⟩ : ∃ r, (use [.next false, .back ⟨.word, "a".toList, some 0, some 0⟩]
      (start ⟨"a é'b".toList, Position.front, none⟩ [⟨2, 3⟩])).2 = r := ⟨_, rfl⟩
  obtain ⟨-, -, ts, last, hstrict, hdrain, -, -, -, htext⟩ := lenient_extends_strict (by decide +kernel) hr
  refine ⟨r, ts, last, hr, hdrain, hstrict, ?_, htext.trans ?_⟩
  · rw [← hr]
    decide +kernel
  · rw [← hr]
    decide +kernel

end Reader
end TaggedStyles
