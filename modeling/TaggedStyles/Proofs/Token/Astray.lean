import TaggedStyles.Proofs.Token.Lenient

/-! Lenient reading and holes. An open string that is read leniently is its quote and one character, and the reader
goes on inside the string. That character can be the dollar sign of a hole, or the first of some backslashes in front
of a hole, of which the rest then escapes the dollar sign. Nothing else tears a hole in a lenient run. -/
namespace TaggedStyles
set_option autoImplicit false

/-! ## Open lexemes -/

namespace Lexeme
variable {holes : List Hole} {lenient : Bool} {word run cs : Text} {quote : Char} {i : Nat}

theorem first_backslash : first holes lenient word i ('\\' :: cs) = .ok (some (escape cs)) := rfl

theorem string_lenient {b : Blocked} (h : string holes false i quote cs = .error b) :
    string holes true i quote cs = .ok ⟨.string, quote :: cs.take 1, cs.drop 1⟩ := by
  unfold string at h ⊢
  split at h
  · cases h
  · rfl

/-- What is read leniently is read strictly, or an opening mark has no closing one. -/
theorem Reads.strict_or_open {l : Lexeme} (h : Reads holes true i cs l) : Reads holes false i cs l ∨
    (∃ more, cs = '(' :: more ∧ l = ⟨.brackets, ['('], more⟩) ∨ (∃ more, cs = '/' :: more ∧ l = ⟨.comment, cs, []⟩) ∨
      ∃ quote more, cs = quote :: more ∧ (quote = '\'' ∨ quote = '"') ∧
        Lexeme.string holes false i quote more = .error (.unclosed .unclosedString) ∧
        l = ⟨.string, quote :: more.take 1, more.drop 1⟩ := by
  cases h with
  | spaces hspace => exact .inl (.spaces hspace)
  | mark hmark => exact .inl (.mark hmark)
  | group hgroup => exact .inl (.group hgroup)
  | atWord => exact .inl .atWord
  | escape => exact .inl .escape
  | word hspace hslash hword => exact .inl (.word hspace hslash hword)
  | @address cs l haddress =>
    rcases address_cases haddress with hfound | ⟨-, rfl⟩
    · exact .inl (.address (by rw [Lexeme.address, hfound]))
    · exact .inr (.inl ⟨cs, rfl, rfl⟩)
  | @comment cs l hcomment =>
    rcases comment_cases hcomment with hfound | ⟨-, rfl⟩
    · exact .inl (.comment (by rw [Lexeme.comment, hfound]))
    · exact .inr (.inr (.inl ⟨'*' :: cs, rfl, rfl⟩))
  | @string quote cs l hquote hstring =>
    cases hstrict : Lexeme.string holes false i quote cs with
    | ok found =>
      have hfound := (string_relaxes holes cs i quote).eq_of_ok hstrict
      rw [hstring] at hfound
      obtain rfl := Except.ok.inj hfound
      exact .inl (.string hquote hstrict)
    | error b =>
      rw [string_lenient hstrict] at hstring
      obtain rfl := Except.ok.inj hstring
      obtain rfl := string_eq_error hstrict
      exact .inr (.inr (.inr ⟨quote, cs, rfl, hquote, hstrict, rfl⟩))

theorem escape_dollar (hrun : ∀ c ∈ run, c = '\\') (heven : run.length % 2 = 0) :
    escape (run ++ '$' :: cs) = ⟨.word, '\\' :: run ++ ['$'], cs⟩ := by
  have hall : ∀ c ∈ run, (c == '\\') = true := fun c hc => by simpa using hrun c hc
  have hspace : isSpace '$' = false := by decide
  have hdigit : isHexDigit '$' = false := by decide
  unfold escape
  rw [List.takeWhile_append_of_pos hall, List.dropWhile_append_of_pos hall]
  simp [heven, hspace, hdigit]

end Lexeme

/-! ## Places behind an open lexeme -/

theorem Text.size_of_backslashes {run : Text} (hrun : ∀ c ∈ run, c = '\\') : run.size = run.length := by
  induction run with
  | nil => rfl
  | cons c run ih =>
    have hone : ('\\' : Char).utf8Size = 1 := by decide
    rw [Text.size_cons, hrun c List.mem_cons_self, ih fun d hd => hrun d (List.mem_cons_of_mem c hd), hone,
      List.length_cons, Nat.add_comm]

namespace Hole.Proper
variable {text before cs : Text} {holes : List Hole} {quote : Char} {l : Lexeme}

/-- A hole that starts in front of the end of two characters is over there, if it starts at neither of them. -/
theorem whole_behind_two {c d : Char} (hp : Proper text holes) (htext : text = before ++ c :: d :: cs)
    (hw : Whole holes before.size) (hc : c ≠ '$') (hd : ∀ h ∈ holes, h.start ≠ before.size + c.utf8Size) :
    Whole holes (before.size + Text.size [c, d]) := by
  have hsplit : text = before ++ [c, d] ++ cs := by rw [htext, List.append_assoc]; rfl
  intro h hh hlt
  by_cases hle : before.size ≤ h.start
  · obtain ⟨u, v, huv, hstart, -⟩ := (hp.marked h hh).mem_of_start hsplit hle hlt
    match u with
    | [] => exact absurd (List.cons.inj huv).1 hc
    | b :: u =>
      obtain ⟨rfl, huv⟩ := List.cons.inj huv
      obtain rfl : u = [] := by cases u <;> simp at huv ⊢
      exact absurd (by simp [← hstart]) (hd h hh)
  · have hover := hw h hh (by omega)
    omega

/-- Behind a character and the first of some backslashes no hole is torn, unless it stands behind the backslashes. -/
theorem free_behind_backslash {c : Char} (hp : Proper text holes) (htext : text = before ++ c :: '\\' :: cs)
    (hw : Whole holes before.size) (hc : c ≠ '$') (hone : c.utf8Size = 1)
    (hapart : ∀ h ∈ holes, h.start ≠ before.size + 1 + (('\\' :: cs).takeWhile (· == '\\')).length) :
    Free text holes (before.size + Text.size [c, '\\']) := by
  have hsplit : text = before ++ [c, '\\'] ++ cs := by rw [htext, List.append_assoc]; rfl
  refine ⟨hp.whole_append hsplit hw (by simp [hc.symm]), fun a run b hab ha hrun _ h hh hstart => hapart h hh ?_⟩
  obtain ⟨rfl, rfl⟩ := Text.append_inj_of_size (hsplit.symm.trans (hab.trans (List.append_assoc a run b)))
    (by rw [Text.size_append, ha])
  obtain ⟨⟨more, rfl⟩, -⟩ := (hp.marked h hh).of_start hab (by rw [Text.size_append, ha, hstart])
  -- The backslashes that are left in front of the hole are one less than those behind the character.
  have hall : ∀ d ∈ '\\' :: run, (d == '\\') = true := by simpa using hrun
  have hbackslash : ('\\' : Char).utf8Size = 1 := by decide
  rw [← List.cons_append, List.takeWhile_append_of_pos hall, hstart, Text.size_of_backslashes hrun]
  simp [hone, hbackslash]
  omega

/-- Behind a quote and one more character no hole is torn, unless only backslashes stand between a hole and the
quote. -/
theorem free_behind_quote (hp : Proper text holes) (htext : text = before ++ quote :: cs)
    (hw : Whole holes before.size) (hquote : quote = '\'' ∨ quote = '"')
    (hapart : ∀ h ∈ holes, h.start ≠ before.size + 1 + (cs.takeWhile (· == '\\')).length) :
    Free text holes (before.size + Text.size (quote :: cs.take 1)) := by
  have hquote' : quote ≠ '$' ∧ quote ≠ '\\' ∧ quote.utf8Size = 1 := by rcases hquote with rfl | rfl <;> decide
  obtain ⟨hdollar, hslash, hone⟩ := hquote'
  cases cs with
  | nil => exact hp.free_of_clear (by simpa using hp.clear_one htext hdollar hslash hw)
  | cons c cs =>
    by_cases hc : c = '\\'
    · subst hc
      exact hp.free_behind_backslash htext hw hdollar hone hapart
    · have hwhole := hp.whole_behind_two htext hw hdollar (by simpa [hc, hone] using hapart)
      have hsplit : text = before ++ [quote, c] ++ cs := by rw [htext, List.append_assoc]; rfl
      refine hp.free_of_clear (clear_of_whole hsplit hwhole (by simp) fun hlast => ?_)
      exact absurd (by simpa using hlast) hc

/-- Behind what is read leniently no hole is torn, but for such an open string. -/
theorem free_reads (hp : Proper text holes) (htext : text = before ++ cs) (hfree : Free text holes before.size)
    (hreads : Lexeme.Reads holes true before.size cs l)
    (hapart : ∀ quote more, cs = quote :: more → quote = '\'' ∨ quote = '"' →
      Lexeme.string holes false before.size quote more = .error (.unclosed .unclosedString) →
      ∀ h ∈ holes, h.start ≠ before.size + 1 + (more.takeWhile (· == '\\')).length) :
    Free text holes (before.size + l.text.size) := by
  rcases hreads.strict_or_open with hstrict | ⟨more, rfl, rfl⟩ | ⟨more, rfl, rfl⟩ | ⟨quote, more, rfl, hquote, hopen, rfl⟩
  · exact hp.free_of_clear (hp.clear_reads htext hfree hstrict)
  · exact hp.free_of_clear (hp.clear_one htext (by decide) (by decide) hfree.whole)
  · have hsplit : text = before ++ '/' :: more ++ [] := by rw [htext, List.append_nil]
    have hend : Whole holes (before.size + Text.size ('/' :: more)) := by
      have hall := hp.whole_end
      rwa [htext, Text.size_append] at hall
    exact hp.free_of_clear (clear_of_whole hsplit hend (by simp) fun _ => by simp)
  · exact hp.free_behind_quote htext hfree.whole hquote (hapart quote more rfl hquote hopen)

end Hole.Proper

/-! ## Open strings in front of holes -/

namespace Reader
variable {e : Excerpt} {holes : List Hole} {lenient : Bool} {r r' : Reader} {w : Text}

/-- The reader stands at an open string, and nothing but backslashes stands between its quote and a hole. -/
def Astray (r : Reader) : Prop :=
  ∃ quote ∈ r.rest.head?, (quote = '\'' ∨ quote = '"') ∧
    Lexeme.string r.holes false r.position quote r.rest.tail = .error (.unclosed .unclosedString) ∧
    ∃ h ∈ r.holes, h.start = r.position + 1 + (r.rest.tail.takeWhile (· == '\\')).length

instance (r : Reader) : Decidable r.Astray := Option.decidableExistsMem r.rest.head?

/-- The next token, if there is one, neither begins nor ends inside a hole. -/
def ReadsWhole (holes : List Hole) (r : Reader) : Prop :=
  ∀ t r', r.next = (.ok (some t), r') → ∀ h ∈ holes,
    ¬(h.start < r.position ∧ r.position ≤ h.last) ∧ ¬(h.start < r'.position ∧ r'.position ≤ h.last)

/-- A reader set to lenient reading behind some text, at a place where no hole is torn. -/
structure Loose (e : Excerpt) (holes : List Hole) (r : Reader) : Prop where
  behind : ∃ w, r.Behind e holes w
  lenient : r.lenient = true
  free : Hole.Free e.text holes r.position

theorem Loose.start (hp : Hole.Proper e.text holes) : (start e holes true).Loose e holes :=
  ⟨⟨[], .start e holes true⟩, rfl, hp.free_of_clear hp.cuts.front⟩

theorem Loose.next (hp : Hole.Proper e.text holes) (h : r.Loose e holes) (hnot : ¬r.Astray) :
    r.next.2.Loose e holes := by
  obtain ⟨⟨w, hbehind⟩, hlenient, hfree⟩ := h
  rcases hnext : r.next with ⟨x, r'⟩
  by_cases hx : ∃ t, x = .ok (some t)
  · obtain ⟨t, rfl⟩ := hx
    obtain ⟨l, hreads, -, hrest, hposition, hholes, hlenient', -⟩ := next_some hbehind.returned hnext
    refine ⟨⟨_, hbehind.next hnext⟩, hlenient'.trans hlenient, ?_⟩
    rw [hbehind.holes_eq, hp.all_fit, hlenient, ← hbehind.position] at hreads
    rw [hposition, ← hbehind.position]
    rw [← hbehind.position] at hfree
    refine hp.free_reads hbehind.text hfree hreads fun quote more hcs hquote hopen h hh hstart => hnot ?_
    refine ⟨quote, by rw [hcs]; rfl, hquote, ?_⟩
    rw [hbehind.holes_eq, hp.all_fit, ← hbehind.position, hcs]
    exact ⟨hopen, h, hh, hstart⟩
  · obtain ⟨-, hposition, -, hlenient', -⟩ := next_stays hbehind.returned hnext fun t ht => hx ⟨t, ht⟩
    exact ⟨⟨_, hbehind.next hnext⟩, hlenient'.trans hlenient, hposition ▸ hfree⟩

theorem Loose.readsWhole (hp : Hole.Proper e.text holes) (h : r.Loose e holes) (hnot : ¬r.Astray) :
    r.ReadsWhole holes := by
  intro t r' hnext h' hh'
  have hmore := h.next hp hnot
  rw [hnext] at hmore
  refine ⟨fun ⟨hlt, hle⟩ => ?_, fun ⟨hlt, hle⟩ => ?_⟩
  · have hover := h.free.whole h' hh' hlt
    omega
  · have hover : h'.last < r'.position := hmore.free.whole h' hh' hlt
    omega

theorem after_succ (n : Nat) (r : Reader) : after (n + 1) r = (after n r).next.2 := by
  induction n generalizing r with
  | zero => rfl
  | succ n ih => exact ih r.next.2

theorem Loose.after (hp : Hole.Proper e.text holes) (h : r.Loose e holes) {n : Nat}
    (hnot : ∀ k < n, ¬(after k r).Astray) : (after n r).Loose e holes := by
  induction n with
  | zero => exact h
  | succ n ih =>
    rw [after_succ]
    exact (ih fun k hk => hnot k (Nat.lt_succ_of_lt hk)).next hp (hnot n (Nat.lt_succ_self n))

/-! ## Torn holes -/

theorem used_of_head (h : r.rest.head? ≠ some '(') : r.used = r := if_neg h

theorem next_open_string {quote : Char} {cs : Text} (hreturned : r.returned = []) (hlenient : r.lenient = true)
    (hrest : r.rest = quote :: cs) (hquote : quote = '\'' ∨ quote = '"')
    (hopen : Lexeme.string r.holes false r.position quote cs = .error (.unclosed .unclosedString)) :
    r.next = (.ok (some (tokenOf ⟨.string, quote :: cs.take 1, cs.drop 1⟩ r.position)),
      r.advance ⟨.string, quote :: cs.take 1, cs.drop 1⟩) := by
  have hparen : r.rest.head? ≠ some '(' := by rcases hquote with rfl | rfl <;> simp [hrest]
  rw [next_eq hreturned, hlenient, Bool.true_or, hrest, Lexeme.first_quote hquote, Lexeme.string_lenient hopen,
    used_of_head hparen]
  rfl

theorem next_backslash {cs : Text} (hreturned : r.returned = []) (hrest : r.rest = '\\' :: cs) :
    r.next = (.ok (some (tokenOf (Lexeme.escape cs) r.position)), r.advance (Lexeme.escape cs)) := by
  have hparen : r.rest.head? ≠ some '(' := by simp [hrest]
  rw [next_eq hreturned, hrest, Lexeme.first_backslash, used_of_head hparen]

/-- Between an open string and the hole in front of which it stands is an even number of backslashes. -/
theorem Astray.rest_eq (h : r.Astray) (hp : Hole.Proper e.text holes) (hbehind : r.Behind e holes w) :
    ∃ quote run more, r.rest = quote :: (run ++ '$' :: more) ∧ (quote = '\'' ∨ quote = '"') ∧
      (∀ c ∈ run, c = '\\') ∧ run.length % 2 = 0 ∧
      Lexeme.string r.holes false r.position quote (run ++ '$' :: more) = .error (.unclosed .unclosedString) ∧
      ∃ h ∈ holes, h.start = r.position + 1 + run.length := by
  obtain ⟨quote, hhead, hquote, hopen, g, hg, hstart⟩ := h
  obtain ⟨cs, hrest⟩ := List.head?_eq_some_iff.1 hhead
  rw [hrest, List.tail_cons] at hopen hstart
  rw [hbehind.holes_eq, hp.all_fit] at hg
  have hrun : ∀ c ∈ cs.takeWhile (· == '\\'), c = '\\' := fun c hc => by simpa using List.mem_takeWhile_imp hc
  have hcs : cs = cs.takeWhile (· == '\\') ++ cs.dropWhile (· == '\\') := List.takeWhile_append_dropWhile.symm
  generalize cs.takeWhile (· == '\\') = run at hstart hrun hcs
  generalize cs.dropWhile (· == '\\') = tail at hcs
  subst hcs
  have hquote' : quote ≠ '\\' ∧ quote.utf8Size = 1 := by rcases hquote with rfl | rfl <;> decide
  have htext : e.text = (w ++ [quote]) ++ run ++ tail := by rw [hbehind.text, hrest]; simp
  have hsize : Text.size (w ++ [quote] ++ run) = g.start := by
    rw [Text.size_append, Text.size_append, hbehind.position, Text.size_of_backslashes hrun, hstart]
    simp [hquote'.2]
  obtain ⟨⟨more, rfl⟩, heven⟩ := (hp.marked g hg).of_start htext hsize
  rw [backslashesAtEnd_append hrun (by simpa using hquote'.1)] at heven
  exact ⟨quote, run, '\x7b' :: more, hrest, hquote, hrun, heven, hopen, g, hg, hstart⟩

/-- At such a string the next token or the one behind it ends inside the hole. -/
theorem Astray.tears (h : r.Astray) (hp : Hole.Proper e.text holes) (hbehind : r.Behind e holes w)
    (hlenient : r.lenient = true) : ¬r.ReadsWhole holes ∨ ¬r.next.2.ReadsWhole holes := by
  obtain ⟨quote, run, more, hrest, hquote, hrun, heven, hopen, g, hg, hstart⟩ := h.rest_eq hp hbehind
  have horder := (hp.marked g hg).order
  have hone : quote.utf8Size = 1 := by rcases hquote with rfl | rfl <;> decide
  have hdollar : ('$' : Char).utf8Size = 1 := by decide
  have hbackslash : ('\\' : Char).utf8Size = 1 := by decide
  have hnext := next_open_string hbehind.returned hlenient hrest hquote hopen
  match run with
  | [] =>
    -- The token is the quote and the dollar sign.
    refine .inl fun hwhole => ?_
    have hends := (hwhole _ (r.advance ⟨.string, [quote, '$'], more⟩) hnext g hg).2
    have hend : (r.advance ⟨.string, [quote, '$'], more⟩).position = r.position + 2 := by simp [advance, hone, hdollar]
    rw [hend] at hends
    rw [List.length_nil] at hstart
    omega
  | [c] => simp at heven
  | c :: d :: run =>
    -- The token is the quote and a backslash; the other backslashes and the dollar sign are the next one.
    obtain rfl : c = '\\' := hrun c (by simp)
    obtain rfl : d = '\\' := hrun d (by simp)
    have hrun' : ∀ c ∈ run, c = '\\' := fun c hc => hrun c (by simp [hc])
    have heven' : run.length % 2 = 0 := by
      simp only [List.length_cons] at heven
      omega
    refine .inr fun hwhole => ?_
    rw [hnext] at hwhole
    have hnext' := next_backslash (r := r.advance ⟨.string, [quote, '\\'], '\\' :: (run ++ '$' :: more)⟩)
      hbehind.returned rfl
    rw [Lexeme.escape_dollar hrun' heven'] at hnext'
    have hends := (hwhole _ _ hnext' g hg).2
    have hend : ((r.advance ⟨.string, [quote, '\\'], '\\' :: (run ++ '$' :: more)⟩).advance
        ⟨.word, '\\' :: run ++ ['$'], more⟩).position = r.position + 2 + (1 + run.length + 1) := by
      simp [advance, hone, hdollar, hbackslash, Text.size_of_backslashes hrun']
      omega
    rw [hend] at hends
    simp only [List.length_cons] at hstart
    omega

/-! ## Runs -/

theorem next_of_lenient (h : r.lenient = true) (lenient : Bool) : r.next lenient = r.next := by
  unfold Reader.next
  simp only [h, Bool.true_or]

theorem after_option (n : Nat) (r : Reader) : (after n r).lenient = r.lenient :=
  after_keeps (P := fun r' => r'.lenient = r.lenient) (fun r' h => (r'.next_keeps false).2.2.trans h) n rfl

theorem Behind.after (h : r.Behind e holes w) (n : Nat) : ∃ w', (after n r).Behind e holes w' :=
  after_keeps (P := fun r => ∃ w', r.Behind e holes w') (fun _ ⟨_, h⟩ => ⟨_, h.next rfl⟩) n ⟨w, h⟩

theorem next_returned (hreturned : r.returned = []) (lenient : Bool) : (r.next lenient).2.returned = [] := by
  rw [next_eq hreturned]
  have hused := r.used_keeps.2.2.2.2.trans hreturned
  split
  · exact hreturned
  all_goals exact hused

/-- However a lenient reader is called and whatever is pushed back, it comes to the places to which plain calls
bring it. -/
theorem use_plain (hlenient : r.lenient = true) (cs : List Call) : ∃ n, (use cs r).2.plain = after n r.plain := by
  induction cs generalizing r with
  | nil => exact ⟨0, rfl⟩
  | cons call cs ih =>
    cases call with
    | back t => exact ih (r := r.back t) hlenient
    | next lenient =>
      cases hreturned : r.returned with
      | cons t ts =>
        rw [use, next_of_returned hreturned]
        exact ih (r := { r with returned := ts }) hlenient
      | nil =>
        obtain ⟨n, hn⟩ := ih (r := (r.next lenient).2) ((r.next_keeps lenient).2.2.trans hlenient)
        refine ⟨n + 1, ?_⟩
        rw [plain_of_returned (next_returned hreturned lenient)] at hn
        rw [plain_of_returned hreturned, use, hn, next_of_lenient hlenient]
        rfl

/-- In a lenient run, a token begins or ends inside a hole if and only if the run comes to an open string with nothing
but backslashes between its quote and a hole. Up to the first such string all holes are read whole; the tokens stand
one behind the other, and calls with push-back come to no other places. -/
theorem lenient_atomic_iff (hp : Hole.Proper e.text holes) :
    (∀ n t r', (after n (start e holes true)).next = (.ok (some t), r') →
      e.text.slice? (after n (start e holes true)).position r'.position = some t.text) ∧
    ((∀ n, (after n (start e holes true)).ReadsWhole holes) ↔ ∀ n, ¬(after n (start e holes true)).Astray) ∧
    (∀ n, (∀ k ≤ n, ¬(after k (start e holes true)).Astray) → (after n (start e holes true)).ReadsWhole holes) ∧
    ∀ cs, ∃ n, (use cs (start e holes true)).2.plain = after n (start e holes true) := by
  have hwhole : ∀ n, (∀ k ≤ n, ¬(after k (start e holes true)).Astray) →
      (after n (start e holes true)).ReadsWhole holes := fun n hnot =>
    ((Loose.start hp).after hp fun k hk => hnot k (Nat.le_of_lt hk)).readsWhole hp (hnot n (Nat.le_refl n))
  refine ⟨fun n t r' hnext => ?_, ⟨fun hall n hastray => ?_, fun hnever n => hwhole n fun k _ => hnever k⟩, hwhole,
    use_plain rfl⟩
  · obtain ⟨w, hbehind⟩ := (Behind.start e holes true).after n
    exact (hbehind.answers hnext fun h hh _ => (hp.marked h hh).onCharacters).2.1
  · obtain ⟨w, hbehind⟩ := (Behind.start e holes true).after n
    have htorn := hastray.tears hp hbehind ((after_option n _).trans rfl)
    rw [← after_succ] at htorn
    exact htorn.elim (· (hall n)) (· (hall (n + 1)))

/-- Behind the first quote stands a letter, and the hole behind it is read whole; behind the second one stands a hole,
which is torn. -/
theorem lenient_atomic_iff_quotes :
    ∃ r, start ⟨"'a$\x7bx\x7d\"$\x7by\x7d".toList, Position.front, none⟩ [⟨2, 5⟩, ⟨7, 10⟩] true = r ∧
      (∀ n ≤ 1, (after n r).ReadsWhole [⟨2, 5⟩, ⟨7, 10⟩]) ∧ ¬∀ n, (after n r).ReadsWhole [⟨2, 5⟩, ⟨7, 10⟩] := by
  have hp : Hole.Proper "'a$\x7bx\x7d\"$\x7by\x7d".toList [⟨2, 5⟩, ⟨7, 10⟩] := by decide +kernel
  obtain ⟨-, hiff, hwhole, -⟩ :=
    lenient_atomic_iff (e := ⟨"'a$\x7bx\x7d\"$\x7by\x7d".toList, Position.front, none⟩) hp
  refine ⟨_, rfl, fun n hn => hwhole n fun k hk => ?_, fun hall => hiff.1 hall 2 (by decide +kernel)⟩
  have hfront : ∀ k ≤ 1, ¬(after k (start ⟨"'a$\x7bx\x7d\"$\x7by\x7d".toList, Position.front, none⟩
      [⟨2, 5⟩, ⟨7, 10⟩] true)).Astray := by decide +kernel
  exact hfront k (Nat.le_trans hk hn)

/-- A quote in front of a hole: the token is the quote and the dollar sign. -/
theorem lenient_tears_hole : ¬∀ (e : Excerpt) (holes : List Hole), Hole.Proper e.text holes →
    ∀ n, (after n (start e holes true)).ReadsWhole holes := by
  intro h
  have htoken : (start ⟨"'$\x7bx\x7d".toList, Position.front, none⟩ [⟨1, 4⟩] true).next.1 =
      .ok (some ⟨.string, "'$".toList, some 0, some 1⟩) := by decide +kernel
  have hposition : (start ⟨"'$\x7bx\x7d".toList, Position.front, none⟩ [⟨1, 4⟩] true).next.2.position = 2 := by
    decide +kernel
  have hends := (h ⟨"'$\x7bx\x7d".toList, Position.front, none⟩ [⟨1, 4⟩] (by decide +kernel) 0 _ _
    (Prod.ext htoken rfl) ⟨1, 4⟩ List.mem_cons_self).2
  refine hends ⟨?_, ?_⟩
  · exact hposition ▸ (by decide : 1 < 2)
  · exact hposition ▸ (by decide : 2 ≤ 4)

end Reader
end TaggedStyles
