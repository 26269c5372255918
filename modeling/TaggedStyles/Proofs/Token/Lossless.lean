import TaggedStyles.Proofs.Token.Atoms

/-! Reading loses nothing. Wherever the holes are and however each call chooses between strict and lenient
reading, the tokens read so far are the text in front of the reader, and a call that fails moves nothing. -/
namespace TaggedStyles
set_option autoImplicit false

/-! ## Holes between characters -/

/-- The hole starts and ends between two characters of a text. -/
def Hole.OnCharacters (text : Text) (h : Hole) : Prop :=
  (text.splitAt? h.start).isSome = true ∧ (text.splitAt? (h.last + 1)).isSome = true

instance (text : Text) (h : Hole) : Decidable (h.OnCharacters text) :=
  inferInstanceAs (Decidable (_ ∧ _))

theorem Hole.Marked.onCharacters {text : Text} {h : Hole} (hm : h.Marked text) : h.OnCharacters text := by
  obtain ⟨a, b, hopening, ha, -⟩ := hm.opening
  obtain ⟨x, y, hclosing, hx⟩ := hm.closing
  have hbehind : text = (x ++ ['\x7d']) ++ y := by rw [hclosing]; simp
  have hlast : h.last + 1 = Text.size (x ++ ['\x7d']) := by
    rw [Text.size_append, hx]
    rfl
  refine ⟨?_, ?_⟩
  · rw [hopening, ← ha, Text.splitAt?_append]
    rfl
  · rw [hbehind, hlast, Text.splitAt?_append]
    rfl

theorem Text.isSome_splitAt?_rest {before cs : Text} {n : Nat} (h : (Text.splitAt? (before ++ cs) n).isSome = true)
    (hle : before.size ≤ n) : ∃ a b, cs = a ++ b ∧ before.size + a.size = n := by
  obtain ⟨⟨front, rest⟩, hcut⟩ := Option.isSome_iff_exists.1 h
  obtain ⟨hsplit, hsize⟩ := Text.splitAt?_eq_some.1 hcut
  obtain ⟨a, rfl, hcs⟩ := Text.exists_between hsplit (by omega)
  rw [Text.size_append] at hsize
  exact ⟨a, rest, hcs, hsize⟩

namespace Lexeme
variable {holes : List Hole} {lenient : Bool} {word cs : Text} {i n : Nat}

theorem unclosed_of_error {found : Option Lexeme} {l : Lexeme} {cause : Cause} {b : Blocked} (h : (match found with
    | some found => .ok found
    | none => if lenient then .ok l else .error (.unclosed cause)) = Except.error b) : b = .unclosed cause := by
  cases found with
  | some found => cases h
  | none =>
    cases lenient with
    | true => cases h
    | false => exact (Except.error.inj h).symm

theorem string_eq_error {quote : Char} {b : Blocked} (h : string holes lenient i quote cs = .error b) :
    b = .unclosed .unclosedString := by
  unfold string at h
  exact unclosed_of_error h

theorem comment_eq_error {b : Blocked} (h : comment holes lenient i cs = .error b) :
    b = .unclosed .unclosedComment := by
  unfold comment at h
  exact unclosed_of_error h

theorem address_eq_error {b : Blocked} (h : address holes lenient i cs = .error b) :
    b = .unclosed .unclosedBracket := by
  unfold address at h
  exact unclosed_of_error h

theorem string_ne_split {quote : Char} : string holes lenient i quote cs ≠ .error (.split n) := by
  intro h
  cases string_eq_error h

theorem comment_ne_split : comment holes lenient i cs ≠ .error (.split n) := by
  intro h
  cases comment_eq_error h

theorem address_ne_split : address holes lenient i cs ≠ .error (.split n) := by
  intro h
  cases address_eq_error h

theorem of_map_some_eq_error {x : Except Blocked Lexeme} {b : Blocked} (h : some <$> x = .error b) :
    x = .error b := by
  cases x with
  | error b' => exact congrArg Except.error (Except.error.inj h)
  | ok l => cases h

/-- What blocks a reader is a mark that is not there, or a word. -/
theorem first_eq_error {b : Blocked} (h : first holes lenient word i cs = .error b) :
    b ∈ [.unclosed .unclosedString, .unclosed .unclosedComment, .unclosed .unclosedBracket] ∨
      ∃ c more, cs = c :: more ∧ Lexeme.word holes i c more = .error b := by
  cases cs with
  | nil => cases h
  | cons c cs =>
    simp only [first] at h
    split at h
    · cases h
    · split at h
      iterate 7 cases h
      · split at h
        · rw [address_eq_error (of_map_some_eq_error h)]
          exact .inl (by simp)
        · cases h
      iterate 2
        rw [string_eq_error (of_map_some_eq_error h)]
        exact .inl (by simp)
      · cases h
      · cases h
      · split at h
        · rw [comment_eq_error (of_map_some_eq_error h)]
          exact .inl (by simp)
        · exact .inr ⟨_, _, rfl, of_map_some_eq_error h⟩

theorem word_of_first_split (h : first holes lenient word i cs = .error (.split n)) :
    ∃ c more, cs = c :: more ∧ Lexeme.word holes i c more = .error (.split n) :=
  (first_eq_error h).resolve_left (by simp)

theorem word_ne_split {text before : Text} {c : Char} (htext : text = before ++ c :: cs)
    (hon : ∀ h ∈ holes, h.start ≤ h.last ∧ h.OnCharacters text) :
    Lexeme.word holes before.size c cs ≠ .error (.split n) := by
  unfold Lexeme.word
  split
  · rename_i last hlast
    obtain ⟨h, hh, hstart, rfl⟩ := Hole.lastAt?_eq_some hlast
    obtain ⟨horder, -, hend⟩ := hon h hh
    rw [htext] at hend
    obtain ⟨a, b, hab, hsize⟩ := Text.isSome_splitAt?_rest hend (by omega)
    have hmax : max (h.last + 1 - before.size) c.utf8Size = a.size := by
      cases a with
      | nil =>
        rw [Text.size_nil] at hsize
        omega
      | cons d a =>
        obtain ⟨rfl, -⟩ := List.cons.inj hab
        rw [Text.size_cons] at hsize ⊢
        omega
    rw [hmax, hab, Text.splitAt?_append]
    simp
  · simp

end Lexeme

/-! ## Calls -/

namespace Reader

/-- What some calls give, each strict or lenient as it says, and the reader behind them. -/
def calls : List Bool → Reader → List (Except Fault (Option Token)) × Reader
  | [], r => ([], r)
  | lenient :: modes, r => ((r.next lenient).1 :: (calls modes (r.next lenient).2).1, (calls modes (r.next lenient).2).2)

/-- The tokens among the answers to some calls. -/
def tokensIn (xs : List (Except Fault (Option Token))) : List Token := xs.filterMap fun x => x.toOption.join

theorem tokensIn_cons (x : Except Fault (Option Token)) (xs : List (Except Fault (Option Token))) :
    tokensIn (x :: xs) = tokensIn [x] ++ tokensIn xs := List.filterMap_append (l := [x])

/-- A reader without push-back behind some text. -/
structure Behind (e : Excerpt) (holes : List Hole) (written : Text) (r : Reader) : Prop where
  holes_eq : r.holes = holes.filter (Hole.fits e.text.size)
  returned : r.returned = []
  text : e.text = written ++ r.rest
  position : written.size = r.position

/-- What a reader may answer: a token that stands right behind it, the end of the text, or an error that moves
nothing. -/
def Answers (e : Excerpt) (r : Reader) : Except Fault (Option Token) → Reader → Prop
  | .ok (some t), r' => t.text ≠ [] ∧ e.text.slice? r.position r'.position = some t.text ∧
      (∀ i ∈ t.start, i = r.position) ∧ ∀ i ∈ t.last, ∃ init c, t.text = init ++ [c] ∧ i = r.position + Text.size init
  | .ok none, r' => r.position = e.text.size ∧ r' = r
  | .error fault, r' => r'.position = r.position ∧ ∃ error, fault = .style error

variable {e : Excerpt} {holes : List Hole} {lenient : Bool} {modes : List Bool} {w : Text} {r r' : Reader}
  {x : Except Fault (Option Token)} {xs : List (Except Fault (Option Token))}

theorem tokenOf_last {l : Lexeme} {i j : Nat} (h : j ∈ (tokenOf l i).last) : j = i + Text.size l.text.dropLast := by
  unfold tokenOf at h
  split at h
  case h_1 => cases h
  case h_7 => cases h
  all_goals exact (Option.some.inj h).symm

theorem Behind.start (e : Excerpt) (holes : List Hole) (lenient : Bool) :
    (start e holes lenient).Behind e holes [] := ⟨rfl, rfl, rfl, rfl⟩

theorem Behind.next (h : r.Behind e holes w) (hnext : r.next lenient = (x, r')) :
    r'.Behind e holes (w ++ Token.joined (tokensIn [x])) := by
  obtain ⟨hholes, hreturned, htext, hposition⟩ := h
  by_cases hx : ∃ t, x = .ok (some t)
  · obtain ⟨t, rfl⟩ := hx
    obtain ⟨l, hreads, rfl, hrest, hposition', hholes', -, hreturned'⟩ := next_token hreturned hnext
    have hjoined : Token.joined (tokensIn [.ok (some (tokenOf l r.position))]) = l.text := by
      simp [tokensIn, Except.toOption, Token.joined, tokenOf_text]
    rw [hjoined]
    refine ⟨hholes'.trans hholes, hreturned', ?_, ?_⟩
    · rw [hrest, List.append_assoc, hreads.append, htext]
    · rw [hposition', Text.size_append, hposition]
  · obtain ⟨hrest, hposition', hholes', -, hreturned'⟩ := next_stays hreturned hnext fun t ht => hx ⟨t, ht⟩
    have hnone : tokensIn [x] = [] := by
      cases x with
      | error fault => rfl
      | ok o =>
        cases o with
        | none => rfl
        | some t => exact absurd ⟨t, rfl⟩ hx
    rw [hnone, Token.joined_nil, List.append_nil]
    exact ⟨hholes'.trans hholes, hreturned', by rw [hrest, htext], hposition.trans hposition'.symm⟩

theorem Behind.calls (h : r.Behind e holes w) (modes : List Bool) :
    (calls modes r).2.Behind e holes (w ++ Token.joined (tokensIn (calls modes r).1)) := by
  induction modes generalizing r w with
  | nil => rwa [Reader.calls, show tokensIn [] = [] from rfl, Token.joined_nil, List.append_nil]
  | cons lenient modes ih =>
    rcases hstep : r.next lenient with ⟨x, r'⟩
    have hmore := ih (h.next hstep)
    simp only [Reader.calls, hstep]
    rwa [List.append_assoc, ← Token.joined_append, ← tokensIn_cons] at hmore

theorem Behind.slice (h : r.Behind e holes w) : e.text.slice? 0 r.position = some w := by
  rw [Text.slice?_eq_some]
  exact ⟨[], r.rest, h.text, rfl, by rw [Nat.zero_add, h.position]⟩

theorem next_nothing (hreturned : r.returned = []) (hnext : r.next lenient = (.ok none, r')) : r' = r := by
  unfold Reader.next at hnext
  rw [hreturned] at hnext
  simp only at hnext
  split at hnext
  · exact (Prod.mk.inj hnext).2.symm
  all_goals cases (Prod.mk.inj hnext).1

theorem next_fault {fault : Fault} (h : r.Behind e holes w) (hnext : r.next lenient = (.error fault, r'))
    (hon : ∀ h ∈ holes, h.fits e.text.size = true → h.OnCharacters e.text) : ∃ error, fault = .style error := by
  obtain ⟨hholes, hreturned, htext, hposition⟩ := h
  unfold Reader.next at hnext
  rw [hreturned] at hnext
  simp only at hnext
  split at hnext
  · cases (Prod.mk.inj hnext).1
  · cases (Prod.mk.inj hnext).1
  · exact ⟨_, (Except.error.inj (Prod.mk.inj hnext).1).symm⟩
  · rename_i offset hsplit
    obtain ⟨c, more, hrest, hword⟩ := Lexeme.word_of_first_split hsplit
    rw [← hposition] at hword
    refine absurd hword (Lexeme.word_ne_split (hrest ▸ htext) fun h hh => ?_)
    rw [hholes, List.mem_filter] at hh
    obtain ⟨hmem, hfits⟩ := hh
    have horder := hfits
    rw [Hole.fits, Bool.and_eq_true, decide_eq_true_eq] at horder
    exact ⟨horder.1, hon h hmem hfits⟩

theorem Behind.answers_of_uncut (h : r.Behind e holes w) (hnext : r.next lenient = (x, r'))
    (huncut : ∀ n, x ≠ .error (.splitCharacter n)) : r.Answers e x r' := by
  match x with
  | .ok (some t) =>
    obtain ⟨l, hreads, rfl, -, hposition, -, -, -⟩ := next_token h.returned hnext
    refine ⟨?_, ?_, fun i hi => ?_, fun i hi => ?_⟩
    · rw [tokenOf_text]
      exact hreads.text_ne_nil
    · rw [Text.slice?_eq_some, tokenOf_text]
      exact ⟨w, l.rest, by rw [List.append_assoc, hreads.append, h.text], h.position, hposition.symm⟩
    · rw [tokenOf_start] at hi
      split at hi
      · cases hi
      · exact (Option.some.inj hi).symm
    · rw [tokenOf_text]
      exact ⟨l.text.dropLast, _, (List.dropLast_concat_getLast hreads.text_ne_nil).symm, tokenOf_last hi⟩
  | .ok none =>
    have hrest := next_none h.returned hnext
    have htext := congrArg Text.size h.text
    rw [hrest, List.append_nil] at htext
    exact ⟨by rw [htext, h.position], next_nothing h.returned hnext⟩
  | .error (.style error) =>
    obtain ⟨-, hposition, -, -, -⟩ := next_stays h.returned hnext fun t ht => by cases ht
    exact ⟨hposition, error, rfl⟩
  | .error (.splitCharacter n) => exact absurd rfl (huncut n)

theorem Behind.answers (h : r.Behind e holes w) (hnext : r.next lenient = (x, r'))
    (hon : ∀ h ∈ holes, h.fits e.text.size = true → h.OnCharacters e.text) : r.Answers e x r' := by
  refine h.answers_of_uncut hnext fun n hn => ?_
  subst hn
  obtain ⟨error, herror⟩ := next_fault h hnext hon
  cases herror

/-- Calls that all succeed come to the end, because each token takes a character at least. -/
theorem Behind.calls_end (h : r.Behind e holes w) (hok : ∀ x ∈ (Reader.calls modes r).1, x.isOk = true)
    (hlen : r.rest.length < modes.length) :
    .ok none ∈ (Reader.calls modes r).1 ∧ (Reader.calls modes r).2.rest = [] := by
  induction modes generalizing r w with
  | nil => exact absurd hlen (Nat.not_lt_zero _)
  | cons lenient modes ih =>
    rcases hnext : r.next lenient with ⟨x, r₁⟩
    simp only [Reader.calls, hnext] at hok ⊢
    match x with
    | .ok none =>
      -- Behind the end nothing is left for the other calls.
      have hnothing := next_none h.returned hnext
      have hmore := (h.next hnext).calls modes
      have hsame := congrArg List.length (hmore.text.symm.trans h.text)
      rw [hnothing] at hsame
      simp only [List.length_append, List.length_nil] at hsame
      exact ⟨List.mem_cons_self, List.length_eq_zero_iff.1 (by omega)⟩
    | .error fault => exact absurd (hok _ List.mem_cons_self) (by simp [Except.isOk, Except.toBool])
    | .ok (some t) =>
      obtain ⟨l, hreads, -, hrest, -, -, -, -⟩ := next_token h.returned hnext
      have hpos := List.length_pos_iff.2 hreads.text_ne_nil
      have hsplit := congrArg List.length hreads.append
      rw [List.length_append, ← hrest] at hsplit
      rw [List.length_cons] at hlen
      obtain ⟨hend, hnothing⟩ := ih (h.next hnext) (fun x hx => hok x (List.mem_cons_of_mem _ hx)) (by omega)
      exact ⟨List.mem_cons_of_mem _ hend, hnothing⟩

/-- After any calls without push-back the tokens read so far are the text in front of the reader. The next call
answers as said: a token that is not empty and stands right there, the end, or an error that moves nothing. Calls
that all succeed read the whole text if there are more of them than characters. -/
theorem calls_lossless (hon : ∀ h ∈ holes, h.fits e.text.size = true → h.OnCharacters e.text)
    (hcalls : calls modes (start e holes lenient) = (xs, r)) :
    e.text.slice? 0 r.position = some (Token.joined (tokensIn xs)) ∧
    (∀ mode, r.Answers e (r.next mode).1 (r.next mode).2) ∧
    ((∀ x ∈ xs, x.isOk = true) → e.text.length < modes.length →
      .ok none ∈ xs ∧ Token.joined (tokensIn xs) = e.text) := by
  obtain ⟨rfl, rfl⟩ := Prod.mk.inj hcalls
  have hstart := Behind.start e holes lenient
  have hbehind := hstart.calls modes
  rw [List.nil_append] at hbehind
  refine ⟨hbehind.slice, fun mode => hbehind.answers rfl hon, fun hok hlen => ?_⟩
  obtain ⟨hend, hrest⟩ := hstart.calls_end hok hlen
  refine ⟨hend, ?_⟩
  rw [hbehind.text, hrest, List.append_nil]

/-- A string that is not closed fails when read strictly, and is its quote and one character when read leniently
from the same place. The holes are in no order; one is repeated, one reaches over another, one is out of range. -/
theorem calls_lossless_lenient :
    ∃ xs r, calls [false, false, true, false, true]
        (start ⟨"a $\x7bb\x7d'é(".toList, Position.front, none⟩ [⟨4, 5⟩, ⟨40, 50⟩, ⟨2, 5⟩, ⟨2, 5⟩]) = (xs, r) ∧
      (tokensIn xs).map (·.text) = ["a".toList, " ".toList, "$\x7bb\x7d".toList, "'é".toList] ∧
      Text.slice? "a $\x7bb\x7d'é(".toList 0 r.position = some "a $\x7bb\x7d'é".toList := by
  obtain ⟨xs, r, hcalls⟩ : ∃ xs r, calls [false, false, true, false, true]
      (start ⟨"a $\x7bb\x7d'é(".toList, Position.front, none⟩ [⟨4, 5⟩, ⟨40, 50⟩, ⟨2, 5⟩, ⟨2, 5⟩]) = (xs, r) :=
    ⟨_, _, rfl⟩
  have htexts : (tokensIn (calls [false, false, true, false, true]
      (start ⟨"a $\x7bb\x7d'é(".toList, Position.front, none⟩ [⟨4, 5⟩, ⟨40, 50⟩, ⟨2, 5⟩, ⟨2, 5⟩])).1).map (·.text) =
      ["a".toList, " ".toList, "$\x7bb\x7d".toList, "'é".toList] := by decide +kernel
  rw [hcalls] at htexts
  refine ⟨xs, r, hcalls, htexts, (calls_lossless (by decide +kernel) hcalls).1.trans ?_⟩
  rw [Token.joined, List.flatMap_def, htexts]
  rfl

end Reader
end TaggedStyles
