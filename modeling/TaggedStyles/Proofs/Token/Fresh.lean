import TaggedStyles.Proofs.Text.Place
import TaggedStyles.Proofs.Token.Boundary

/-! Reading on and reading afresh. A reader that has come to some place and a new reader of the text from there on
find the same tokens, moved by the offset of that place, as long as no opening bracket finds a word `url` that was
read before that place. -/
namespace TaggedStyles
set_option autoImplicit false

/-! ## Moved holes -/

/-- The holes from byte `p` on, with their offsets counted from there. -/
def Hole.moved (p : Nat) (holes : List Hole) : List Hole :=
  (holes.filter fun h => p ≤ h.start && p ≤ h.last).map fun h => ⟨h.start - p, h.last - p⟩

/-- At the same places, counted from `p` by the second list, the holes of both end at the same places. -/
def Hole.Moved (p : Nat) (holes holes' : List Hole) : Prop :=
  ∀ i, lastAt? holes (p + i) = (lastAt? holes' i).map (p + ·)

namespace Hole
variable {p size : Nat} {holes : List Hole}

theorem mem_moved_fits {g : Hole} : g ∈ (moved p holes).filter (fits size) ↔
    (⟨p + g.start, p + g.last⟩ : Hole) ∈ holes.filter (fits (p + size)) := by
  simp only [moved, List.mem_filter, List.mem_map, fits, Bool.and_eq_true, decide_eq_true_eq]
  constructor
  · rintro ⟨⟨h, ⟨hh, hstart, hlast⟩, rfl⟩, horder, hsize⟩
    simp only at horder hsize ⊢
    rw [Nat.add_sub_cancel' hstart, Nat.add_sub_cancel' hlast]
    exact ⟨hh, by omega, by omega⟩
  · rintro ⟨hh, horder, hsize⟩
    refine ⟨⟨_, ⟨hh, by simp only; omega, by simp only; omega⟩, ?_⟩, by omega, by omega⟩
    simp only [Nat.add_sub_cancel_left]

theorem moved_fits : Moved p (holes.filter (fits (p + size))) ((moved p holes).filter (fits size)) := by
  intro i
  -- A hole from `p` on is the one of the second list, moved.
  have hback : ∀ h ∈ holes.filter (fits (p + size)), p ≤ h.start →
      (⟨h.start - p, h.last - p⟩ : Hole) ∈ (moved p holes).filter (fits size) := by
    intro h hh hstart
    have hfits := (List.mem_filter.1 hh).2
    simp only [fits, Bool.and_eq_true, decide_eq_true_eq] at hfits
    rw [mem_moved_fits]
    simp only [Nat.add_sub_cancel' hstart, Nat.add_sub_cancel' (hstart.trans hfits.1)]
    exact hh
  refine Option.ext fun last => ?_
  simp only [Option.map_eq_some_iff, lastAt?_eq_some_iff]
  constructor
  · rintro ⟨h, ⟨hh, hleast⟩, hstart, rfl⟩
    have hfits := (List.mem_filter.1 hh).2
    simp only [fits, Bool.and_eq_true, decide_eq_true_eq] at hfits
    refine ⟨h.last - p, ⟨_, ⟨hback h hh (by omega), fun g hg hsame => ?_⟩, by simp only; omega, rfl⟩, by omega⟩
    have hshort := hleast _ (mem_moved_fits.1 hg) (by simp only at hsame ⊢; omega)
    simp only at hshort ⊢
    omega
  · rintro ⟨_, ⟨h, ⟨hh, hleast⟩, rfl, rfl⟩, rfl⟩
    refine ⟨_, ⟨mem_moved_fits.1 hh, fun g hg hsame => ?_⟩, rfl, rfl⟩
    simp only at hsame ⊢
    have hfits := (List.mem_filter.1 hg).2
    simp only [fits, Bool.and_eq_true, decide_eq_true_eq] at hfits
    have hshort := hleast _ (hback g hg (by omega)) (by simp only; omega)
    simp only at hshort
    omega

end Hole

section
variable {p n i skip : Nat} {holes holes' : List Hole} {stop : Bool → Text → Bool} {odd lenient : Bool} {cs word : Text}
  {c : Char}

theorem passHoles_moved (hm : Hole.Moved p holes holes') :
    passHoles holes n (p + i) skip - p = passHoles holes' n i (skip - p) := by
  induction n generalizing i skip with
  | zero => rfl
  | succ n ih =>
    rw [passHoles, passHoles, Nat.add_assoc, ih, hm i]
    congr 1
    by_cases hlt : i < skip - p
    · rw [if_pos hlt, if_pos (by omega)]
    · rw [if_neg hlt, if_neg (by omega)]
      cases Hole.lastAt? holes' i with
      | none => rfl
      | some last =>
        simp only [Option.map_some, Option.getD_some]
        omega

theorem scan_moved (hm : Hole.Moved p holes holes') :
    scan holes stop (p + i) skip odd cs = scan holes' stop i (skip - p) odd cs := by
  induction cs generalizing i skip odd with
  | nil => rfl
  | cons c cs ih =>
    have hskip : passHoles holes c.utf8Size (p + i) skip - p = passHoles holes' c.utf8Size i (skip - p) :=
      passHoles_moved hm
    have hhere : decide (passHoles holes c.utf8Size (p + i) skip ≤ p + i) =
        decide (passHoles holes' c.utf8Size i (skip - p) ≤ i) := by
      rw [decide_eq_decide, ← hskip]
      omega
    rw [scan, scan, hhere, Nat.add_assoc, ih, hskip]

namespace Lexeme

theorem upTo_moved (hm : Hole.Moved p holes holes') {kind : Token.Kind} {opening : Text} :
    upTo kind holes stop opening (p + i) cs = upTo kind holes' stop opening i cs := by
  rw [upTo, upTo, scan_moved hm, Nat.zero_sub]

theorem through?_moved (hm : Hole.Moved p holes holes') {kind : Token.Kind} {opening : Text} :
    through? kind holes stop n opening (p + i) cs = through? kind holes' stop n opening i cs := by
  rw [through?, through?, scan_moved hm, Nat.zero_sub]

theorem string_moved (hm : Hole.Moved p holes holes') :
    string holes lenient (p + i) c cs = string holes' lenient i c cs := by
  rw [string, string, Nat.add_assoc, through?_moved hm]

theorem comment_moved (hm : Hole.Moved p holes holes') :
    comment holes lenient (p + i) cs = comment holes' lenient i cs := by
  rw [comment, comment, Nat.add_assoc, through?_moved hm]

theorem address_moved (hm : Hole.Moved p holes holes') :
    address holes lenient (p + i) cs = address holes' lenient i cs := by
  rw [address, address, Nat.add_assoc, through?_moved hm]

theorem isBroken_moved (hm : Hole.Moved p holes holes') {before : Option Char} :
    isBroken holes before (p + i) skip cs = isBroken holes' before i (skip - p) cs := by
  induction cs generalizing before i skip with
  | nil => rfl
  | cons c cs ih =>
    rw [isBroken, isBroken, Nat.add_assoc, hm i]
    by_cases hlt : i < skip - p
    · rw [if_pos hlt, if_pos (by omega), ih]
    · rw [if_neg hlt, if_neg (by omega)]
      cases Hole.lastAt? holes' i with
      | none => simp only [Option.map_none, ih]
      | some last =>
        have hlast : p + last + 1 - p = last + 1 := by omega
        simp only [Option.map_some, ih, hlast]

theorem group_moved (hm : Hole.Moved p holes holes') : group holes (p + i) cs = group holes' i cs := by
  rw [group, group, Nat.add_assoc, through?_moved hm]
  simp only [isBroken_moved hm, Nat.zero_sub]

end Lexeme

/-- The same failure, with the offset of a split character counted from `p` bytes earlier. -/
def Blocked.moved (p : Nat) : Blocked → Blocked
  | .unclosed cause => .unclosed cause
  | .split n => .split (p + n)

namespace Lexeme

theorem word_moved (hm : Hole.Moved p holes holes') :
    Lexeme.word holes (p + i) c cs = (Lexeme.word holes' i c cs).mapError (Blocked.moved p) := by
  rw [Lexeme.word, Lexeme.word, hm i]
  cases Hole.lastAt? holes' i with
  | none =>
    have hskip : passHoles holes (c.utf8Size - 1) (p + (i + 1)) 0 - p =
        passHoles holes' (c.utf8Size - 1) (i + 1) (0 - p) := passHoles_moved hm
    rw [Nat.zero_sub] at hskip
    simp only [Option.map_none, Nat.add_assoc, scan_moved hm, hskip]
    rfl
  | some last =>
    have hsize : p + last + 1 - (p + i) = last + 1 - i := by omega
    simp only [Option.map_some, hsize]
    split <;> rfl

private theorem map_some_moved {x : Except Blocked Lexeme} (h : ∀ k, x ≠ .error (.split k)) :
    some <$> x = (some <$> x).mapError (Blocked.moved p) := by
  match x with
  | .ok l => rfl
  | .error (.unclosed cause) => rfl
  | .error (.split k) => exact absurd rfl (h k)

theorem first_moved (hm : Hole.Moved p holes holes') :
    first holes lenient word (p + i) cs = (first holes' lenient word i cs).mapError (Blocked.moved p) := by
  cases cs with
  | nil => rfl
  | cons c cs =>
    simp only [first]
    split
    · rfl
    · split
      iterate 7 rfl
      · split
        · rw [address_moved hm]
          exact map_some_moved fun _ => address_ne_split
        · rw [group_moved hm]
          rfl
      iterate 2
        rw [string_moved hm]
        exact map_some_moved fun _ => string_ne_split
      · rw [Nat.add_assoc, upTo_moved hm]
        rfl
      · rfl
      · split
        · rw [comment_moved hm]
          exact map_some_moved fun _ => comment_ne_split
        · rw [word_moved hm]
          cases Lexeme.word holes' i _ _ <;> rfl

/-- Two lexemes at the front of one text are the same if their texts and kinds are. -/
theorem eq_of_append {l l' : Lexeme} (hkind : l.kind = l'.kind) (htext : l.text = l'.text)
    (happend : l.text ++ l.rest = l'.text ++ l'.rest) : l = l' := by
  obtain ⟨kind, text, rest⟩ := l
  obtain ⟨kind', text', rest'⟩ := l'
  simp only at hkind htext happend
  subst hkind htext
  rw [List.append_cancel_left happend]

/-- The word before matters at an opening bracket only, and there only if the address is not the group it would be. -/
theorem first_congr_word {word' : Text} (h : ∀ more, cs = '(' :: more →
    opensAddress word more = opensAddress word' more ∨ address holes lenient i more = .ok (group holes i more)) :
    first holes lenient word i cs = first holes lenient word' i cs := by
  cases cs with
  | nil => rfl
  | cons c cs =>
    by_cases hc : c = '('
    · subst hc
      rw [first_paren, first_paren]
      rcases h cs rfl with hsame | hgroup
      · rw [hsame]
      · rw [hgroup]
        split <;> split <;> rfl
    · simp only [first]
      split
      · rfl
      · split
        iterate 7 rfl
        · exact absurd rfl hc
        all_goals rfl

end Lexeme
end

/-! ## Words that are left -/

namespace Token

/-- The same token, with its offsets counted from `p` bytes earlier. -/
def moved (p : Nat) (t : Token) : Token := { t with start := t.start.map (p + ·), last := t.last.map (p + ·) }

/-- The words left behind a token, latest first: an opening bracket uses up the last one. -/
def leaves (words : List Text) (t : Token) : List Text :=
  let words := if t.text.head? = some '(' then words.tail else words
  if t.kind = .word then t.text :: words else words

/-- The words left behind some tokens. -/
def unused (words : List Text) (ts : List Token) : List Text := ts.foldl leaves words

theorem leaves_moved (p : Nat) (words : List Text) (t : Token) : leaves words (t.moved p) = leaves words t := rfl

theorem leaves_append (words old : List Text) (t : Token) :
    ∃ older, leaves (words ++ old) t = leaves words t ++ older ∧ older <:+ old := by
  unfold leaves
  split
  · cases words with
    | nil =>
      refine ⟨old.tail, ?_, List.tail_suffix old⟩
      split <;> rfl
    | cons w words =>
      refine ⟨old, ?_, List.suffix_refl old⟩
      split <;> rfl
  · refine ⟨old, ?_, List.suffix_refl old⟩
    split <;> rfl

theorem unused_append (words old : List Text) (ts : List Token) :
    ∃ older, unused (words ++ old) ts = unused words ts ++ older ∧ older <:+ old := by
  induction ts generalizing words old with
  | nil => exact ⟨old, rfl, List.suffix_refl old⟩
  | cons t ts ih =>
    obtain ⟨older, hstep, hsuffix⟩ := leaves_append words old t
    obtain ⟨oldest, hrun, hsuffix'⟩ := ih (leaves words t) older
    refine ⟨oldest, ?_, hsuffix'.trans hsuffix⟩
    simp only [unused, List.foldl_cons] at hrun ⊢
    rw [hstep, hrun]

end Token

/-- The same fault, with the offset of a split character counted from `p` bytes earlier. -/
def Fault.moved (p : Nat) : Fault → Fault
  | .style error => .style error
  | .splitCharacter n => .splitCharacter (p + n)

/-! ## Two readers -/

namespace Reader
variable {e : Excerpt} {holes : List Hole} {p : Nat} {r r' f : Reader} {us : List Token} {t : Token} {w : Text} {m : Nat}

theorem tokenOf_moved (l : Lexeme) (i : Nat) : tokenOf l (p + i) = (tokenOf l i).moved p := by
  unfold tokenOf
  split <;> simp [Token.moved, Token.space, Token.ranged, Nat.add_assoc]

theorem next_words (hr : r.returned = []) (h : r.next = (.ok (some t), r')) :
    r'.words = t.leaves r.words := by
  unfold next at h
  rw [hr] at h
  simp only at h
  split at h
  · simp at h
  · rename_i l hl
    obtain ⟨ht, rfl⟩ := Prod.mk.inj h
    obtain rfl := Option.some.inj (Except.ok.inj ht)
    have hreads := Lexeme.reads_of_first hl
    have hhead : l.text.head? = r.rest.head? := by
      obtain ⟨c, more, hmore⟩ := List.exists_cons_of_ne_nil hreads.text_ne_nil
      rw [← hreads.append, hmore]
      rfl
    rw [Token.leaves, tokenOf_text, tokenOf_kind, hhead]
    split <;> rfl
  · simp at h
  · simp at h

theorem take_reaches (h : r.Behind e holes w) (hstrict : r.lenient = false) (htake : take m r = (us, none, r')) :
    r'.Behind e holes (w ++ Token.joined us) ∧ r'.lenient = false ∧ r'.excerpt = r.excerpt ∧
      r'.words = Token.unused r.words us := by
  induction m generalizing r w us with
  | zero =>
    obtain ⟨rfl, -, rfl⟩ := htake
    exact ⟨by simpa using h, hstrict, rfl, rfl⟩
  | succ m ih =>
    rw [take] at htake
    split at htake
    · rename_i t r₁ hnext
      obtain ⟨-, -, -, -, -, -, hstrict', -⟩ := next_some h.returned hnext
      have hwords := next_words h.returned hnext
      have hexcerpt := (r.next_keeps false).1
      rw [hnext] at hexcerpt
      have hbehind := h.next hnext
      rcases hmore : take m r₁ with ⟨vs, fault, last⟩
      rw [hmore] at htake
      obtain ⟨rfl, rfl, rfl⟩ := htake
      obtain ⟨hreached, hlast, hexcerpt', hunused⟩ := ih hbehind (hstrict'.trans hstrict) hmore
      refine ⟨?_, hlast, hexcerpt'.trans hexcerpt, ?_⟩
      · rw [Token.joined_cons, ← List.append_assoc]
        simpa [tokensIn, Except.toOption, Token.joined] using hreached
      · rw [hunused, hwords]
        rfl
    · rename_i r₁ hnext
      obtain ⟨rfl, -, rfl⟩ := htake
      obtain rfl := next_nothing h.returned hnext
      exact ⟨by simpa using h, hstrict, rfl, rfl⟩
    · cases htake

theorem next_strict (hr : r.returned = []) (hstrict : r.lenient = false) :
    r.next = match Lexeme.first r.holes false (r.words.headD []) r.position r.rest with
      | .ok none => (.ok none, r)
      | .ok (some l) => (.ok (some (tokenOf l r.position)), r.used.advance l)
      | .error (.unclosed cause) => (.error (.style (r.excerpt.error cause r.position)), r.used)
      | .error (.split offset) => (.error (.splitCharacter offset), r.used) := by
  rw [next_eq hr, hstrict]
  rfl

/-- A new reader of what a reader has left, with the holes from there on. -/
def afresh (e : Excerpt) (holes : List Hole) (r : Reader) : Reader :=
  start ⟨r.rest, e.position r.position, e.file⟩ (Hole.moved r.position holes)

/-- `f` stands `p` bytes further in an excerpt than it knows, where `r` stands; what else `r` knows is words that
were read earlier. -/
structure Resumes (e : Excerpt) (p : Nat) (r f : Reader) : Prop where
  holes : Hole.Moved p r.holes f.holes
  strict : r.lenient = false ∧ f.lenient = false
  returned : r.returned = [] ∧ f.returned = []
  rest : r.rest = f.rest
  position : r.position = p + f.position
  words : ∃ old, r.words = f.words ++ old
  excerpt : ∃ w x, e.text = w ++ (x ++ f.rest) ∧ w.size = p ∧ x.size = f.position ∧ r.excerpt = e ∧
    f.excerpt = ⟨x ++ f.rest, e.position p, e.file⟩

/-- Before the reader stands an opening bracket that opens an address behind `words`, but not behind the reader's own
words, and the address is not the group that the reader finds. -/
def Misreads (words : List Text) (f : Reader) : Prop :=
  ∃ cs, f.rest = '(' :: cs ∧ Lexeme.opensAddress (words.headD []) cs = true ∧
    Lexeme.opensAddress (f.words.headD []) cs = false ∧
    Lexeme.address f.holes false f.position cs ≠ .ok (Lexeme.group f.holes f.position cs)

/-- What one reading gives is what the other gives, moved by `p` bytes. -/
def SameMoved (p : Nat) (x y : List Token × Option Fault × Reader) : Prop :=
  x.1 = y.1.map (Token.moved p) ∧ x.2.1 = y.2.1.map (Fault.moved p)

theorem Resumes.afresh (h : r.Behind e holes w) (hstrict : r.lenient = false) (hexcerpt : r.excerpt = e) :
    Resumes e r.position r (afresh e holes r) := by
  obtain ⟨hholes, hreturned, htext, hposition⟩ := h
  refine ⟨?_, ⟨hstrict, rfl⟩, ⟨hreturned, rfl⟩, rfl, rfl, ⟨r.words, rfl⟩, w, [], htext, hposition, rfl, hexcerpt, rfl⟩
  have hsize : e.text.size = r.position + Text.size r.rest := by rw [htext, Text.size_append, hposition]
  rw [hholes, hsize]
  exact Hole.moved_fits

theorem Resumes.error (h : Resumes e p r f) (cause : Cause) :
    r.excerpt.error cause r.position = f.excerpt.error cause f.position := by
  obtain ⟨w, x, htext, hw, hx, hexcerpt, hfresh⟩ := h.excerpt
  have hplace := Excerpt.position_rest htext
  rw [Excerpt.error, Excerpt.error, hexcerpt, hfresh, h.position, ← hw, ← hx, ← hplace]

theorem Resumes.finds (h : Resumes e p r f) (hmis : ¬Misreads r.words f) :
    Lexeme.first r.holes false (r.words.headD []) r.position r.rest =
      (Lexeme.first f.holes false (f.words.headD []) f.position f.rest).mapError (Blocked.moved p) := by
  rw [h.position, h.rest, Lexeme.first_moved h.holes]
  congr 1
  refine Lexeme.first_congr_word fun cs hcs => ?_
  obtain ⟨old, hold⟩ := h.words
  by_cases hsame : Lexeme.opensAddress (r.words.headD []) cs = Lexeme.opensAddress (f.words.headD []) cs
  · exact .inl hsame
  · -- A word of its own would be the last word of both.
    have hnil : f.words = [] := by
      cases hf : f.words with
      | nil => rfl
      | cons word words =>
        rw [hold, hf] at hsame
        exact absurd rfl hsame
    have hown : Lexeme.opensAddress (f.words.headD []) cs = false := by
      rw [hnil]
      rfl
    rw [hown, Bool.not_eq_false] at hsame
    exact .inr (Classical.not_not.1 fun hne => hmis ⟨cs, hcs, hsame, hown, hne⟩)

theorem Resumes.next (h : Resumes e p r f) (hmis : ¬Misreads r.words f) :
    (∃ t r' f', f.next = (.ok (some t), f') ∧ r.next = (.ok (some (t.moved p)), r') ∧ Resumes e p r' f' ∧
      r'.words = t.leaves r.words) ∨
    (f.next = (.ok none, f) ∧ r.next = (.ok none, r)) ∨
    ∃ fault r' f', f.next = (.error fault, f') ∧ r.next = (.error (fault.moved p), r') := by
  have hfirst := h.finds hmis
  have hr := next_strict h.returned.1 h.strict.1
  have hf := next_strict h.returned.2 h.strict.2
  rw [hfirst] at hr
  match hfound : Lexeme.first f.holes false (f.words.headD []) f.position f.rest with
  | .ok none =>
    rw [hfound] at hr hf
    exact .inr (.inl ⟨hf, hr⟩)
  | .error (.unclosed cause) =>
    rw [hfound] at hr hf
    simp only [Except.mapError, Blocked.moved, h.error] at hr
    exact .inr (.inr ⟨_, _, _, hf, hr⟩)
  | .error (.split n) =>
    rw [hfound] at hr hf
    exact .inr (.inr ⟨_, _, _, hf, hr⟩)
  | .ok (some l) =>
    rw [hfound] at hr hf
    simp only [Except.mapError, h.position, tokenOf_moved] at hr
    have hwordsr := (next_words h.returned.1 hr).trans (Token.leaves_moved _ _ _)
    refine .inl ⟨_, _, _, hf, hr, ?_, hwordsr⟩
    obtain ⟨hexcerptr, hholesr, hlenientr, hpositionr, hreturnedr⟩ := r.used_keeps
    obtain ⟨hexcerptf, hholesf, hlenientf, hpositionf, hreturnedf⟩ := f.used_keeps
    have hwordsf := next_words h.returned.2 hf
    obtain ⟨w, x, htext, hw, hx, hexcerpt, hfresh⟩ := h.excerpt
    have happend := (Lexeme.reads_of_first hfound).append
    refine ⟨?_, ⟨?_, ?_⟩, ⟨?_, ?_⟩, rfl, ?_, ?_, w, x ++ l.text, ?_, hw, ?_, ?_, ?_⟩
    · exact hholesr.symm ▸ hholesf.symm ▸ h.holes
    · exact hlenientr.trans h.strict.1
    · exact hlenientf.trans h.strict.2
    · exact hreturnedr.trans h.returned.1
    · exact hreturnedf.trans h.returned.2
    · simp only [advance, hpositionr, hpositionf, h.position, Nat.add_assoc]
    · obtain ⟨old, hold⟩ := h.words
      obtain ⟨older, holder, -⟩ := Token.leaves_append f.words old (tokenOf l f.position)
      exact ⟨older, by rw [hwordsr, hwordsf, hold, holder]⟩
    · rw [htext, ← happend]
      simp only [advance, List.append_assoc]
    · simp only [advance, Text.size_append, hx, hpositionf]
    · exact hexcerptr.trans hexcerpt
    · refine hexcerptf.trans (hfresh.trans ?_)
      rw [← happend]
      simp only [advance, List.append_assoc]

theorem Resumes.misreads (h : Resumes e p r f) (hmis : Misreads r.words f) :
    ∃ t f', f.next = (.ok (some t), f') ∧ ∀ r', r.next ≠ (.ok (some (t.moved p)), r') := by
  obtain ⟨cs, hrest, hr, hf, hne⟩ := hmis
  have hgroup : Lexeme.first f.holes false (f.words.headD []) f.position f.rest =
      .ok (some (Lexeme.group f.holes f.position cs)) := by
    rw [hrest, Lexeme.first_paren, hf]
    rfl
  have hnextf := next_strict h.returned.2 h.strict.2
  rw [hgroup] at hnextf
  refine ⟨_, _, hnextf, fun r' hnextr => ?_⟩
  have haddress : Lexeme.first r.holes false (r.words.headD []) r.position r.rest =
      some <$> Lexeme.address f.holes false f.position cs := by
    rw [h.rest, hrest, h.position, Lexeme.first_paren, hr, if_pos rfl, Lexeme.address_moved h.holes]
  rw [next_strict h.returned.1 h.strict.1, haddress] at hnextr
  match hfound : Lexeme.address f.holes false f.position cs with
  | .error (.unclosed cause) =>
    rw [hfound] at hnextr
    cases hnextr
  | .error (.split n) => exact Lexeme.address_ne_split hfound
  | .ok l =>
    rw [hfound] at hnextr hne
    obtain ⟨ht, -⟩ := Prod.mk.inj hnextr
    have htoken := Option.some.inj (Except.ok.inj ht)
    rw [h.position, tokenOf_moved] at htoken
    have hkind := congrArg Token.kind htoken
    have htext := congrArg Token.text htoken
    simp only [Token.moved, tokenOf_kind, tokenOf_text] at hkind htext
    have hl := (Lexeme.Reads.address hfound).append
    have hg := (Lexeme.reads_of_first hgroup).append
    rw [hrest] at hg
    exact hne (congrArg Except.ok (Lexeme.eq_of_append hkind htext (hl.trans hg.symm)))

/-- What holds at every place that a reader comes to holds where it is and at every place behind its next token. -/
theorem forall_take_succ {f f' : Reader} {t : Token} {P : List Token → Reader → Prop}
    (hf : f.next = (.ok (some t), f')) (n : Nat) :
    (∀ k < n + 1, ∀ vs g, take k f = (vs, none, g) → P vs g) ↔
      P [] f ∧ ∀ k < n, ∀ vs g, take k f' = (vs, none, g) → P (t :: vs) g := by
  constructor
  · intro hall
    refine ⟨hall 0 (Nat.succ_pos n) [] f rfl, fun k hk vs g htake => hall (k + 1) (by omega) (t :: vs) g ?_⟩
    rw [take, hf]
    simp only [htake]
  · rintro ⟨hhere, hbehind⟩ k hk vs g htake
    cases k with
    | zero =>
      obtain ⟨rfl, -, rfl⟩ := htake
      exact hhere
    | succ k =>
      rcases hrun : take k f' with ⟨ws, fault, last⟩
      rw [take, hf] at htake
      simp only [hrun] at htake
      obtain ⟨rfl, rfl, rfl⟩ := htake
      exact hbehind k (by omega) _ _ hrun

theorem forall_take_of_stop {f f' : Reader} {P : List Token → Reader → Prop}
    (hstop : f.next = (.ok none, f) ∨ ∃ fault, f.next = (.error fault, f')) (hhere : P [] f) (k : Nat) :
    ∀ vs g, take k f = (vs, none, g) → P vs g := by
  intro vs g htake
  cases k with
  | zero =>
    obtain ⟨rfl, -, rfl⟩ := htake
    exact hhere
  | succ k =>
    rw [take] at htake
    rcases hstop with hf | ⟨fault, hf⟩
    · rw [hf] at htake
      obtain ⟨rfl, -, rfl⟩ := htake
      exact hhere
    · rw [hf] at htake
      cases htake

/-- The first tokens that both readers take are the same, moved, exactly as long as none of the brackets that the
new reader comes to is read otherwise behind the words of the other. -/
theorem Resumes.take_iff (h : Resumes e p r f) (n : Nat) :
    SameMoved p (take n r) (take n f) ↔
      ∀ k < n, ∀ vs g, take k f = (vs, none, g) → ¬Misreads (Token.unused r.words vs) g := by
  induction n generalizing r f with
  | zero => exact ⟨fun _ k hk => absurd hk (Nat.not_lt_zero k), fun _ => ⟨rfl, rfl⟩⟩
  | succ n ih =>
    by_cases hmis : Misreads r.words f
    · obtain ⟨t, f', hf, hr⟩ := h.misreads hmis
      refine iff_of_false (fun hsame => ?_) fun hall => hall 0 (Nat.succ_pos n) [] f rfl hmis
      obtain ⟨htokens, -⟩ := hsame
      rw [take, take, hf] at htokens
      simp only [List.map_cons] at htokens
      split at htokens
      · rename_i t' r' hnext
        obtain ⟨rfl, -⟩ := List.cons.inj htokens
        exact hr r' hnext
      · cases htokens
      · cases htokens
    · have hstay : ∀ f', (f.next = (.ok none, f) ∨ ∃ fault, f.next = (.error fault, f')) → ∀ k vs g,
          take k f = (vs, none, g) → ¬Misreads (Token.unused r.words vs) g :=
        fun f' hstop => forall_take_of_stop hstop hmis
      rcases h.next hmis with ⟨t, r', f', hf, hr, hmore, hwords⟩ | ⟨hf, hr⟩ | ⟨fault, r', f', hf, hr⟩
      · have hstep : SameMoved p (take (n + 1) r) (take (n + 1) f) ↔ SameMoved p (take n r') (take n f') := by
          rw [take, take, hf, hr]
          simp only [SameMoved, List.map_cons, List.cons.injEq, true_and]
        rw [hstep, ih hmore, hwords, forall_take_succ hf]
        exact (and_iff_right hmis).symm
      · refine iff_of_true ?_ fun k _ => hstay f (.inl hf) k
        rw [take, take, hf, hr]
        exact ⟨rfl, rfl⟩
      · refine iff_of_true ?_ fun k _ => hstay f' (.inr ⟨fault, hf⟩) k
        rw [take, take, hf, hr]
        exact ⟨rfl, rfl⟩

theorem Resumes.not_misreads (h : Resumes e p r f) (hurl : "url".toList ∉ r.words) {vs : List Token} {g : Reader}
    (hown : g.words = Token.unused f.words vs) : ¬Misreads (Token.unused r.words vs) g := by
  rintro ⟨cs, -, hopens, hclosed, -⟩
  obtain ⟨old, hold⟩ := h.words
  obtain ⟨older, holder, hsuffix⟩ := Token.unused_append f.words old vs
  rw [hold, holder, ← hown] at hopens
  cases hwords : g.words with
  | cons word words =>
    rw [hwords] at hopens hclosed
    exact absurd (hopens.symm.trans hclosed) (by decide)
  | nil =>
    rw [hwords, List.nil_append, Lexeme.opensAddress, Bool.and_eq_true, beq_iff_eq] at hopens
    have hmem : "url".toList ∈ older := by
      cases older with
      | nil => exact absurd hopens.1 (by decide)
      | cons word words => exact hopens.1 ▸ List.mem_cons_self
    rw [hold] at hurl
    exact hurl (List.mem_append_right _ (hsuffix.subset hmem))

/-- After any tokens that were read strictly without a fault, the next `n` tokens and the fault that ends them, if any,
are those of a new reader of the rest, with the holes and all offsets moved, exactly if none of the opening brackets
that the new reader comes to is misread: behind the words that the earlier tokens left it opens an
address, behind those that the new reader left it does not, and the address is not the group that the new reader finds.
They are if the earlier tokens left no word `url`. -/
theorem take_afresh (hread : take m (start e holes) = (us, none, r)) (n : Nat) :
    (SameMoved r.position (take n r) (take n (afresh e holes r)) ↔
      ∀ k < n, ∀ vs g, take k (afresh e holes r) = (vs, none, g) → ¬Misreads (Token.unused [] (us ++ vs)) g) ∧
    ("url".toList ∉ Token.unused [] us → SameMoved r.position (take n r) (take n (afresh e holes r))) := by
  obtain ⟨hbehind, hstrict, hexcerpt, hwords⟩ := take_reaches (Behind.start e holes false) rfl hread
  have hresumes := Resumes.afresh hbehind hstrict hexcerpt
  have hunused : ∀ vs, Token.unused [] (us ++ vs) = Token.unused r.words vs := fun vs => by
    rw [hwords, Token.unused, List.foldl_append]
    rfl
  refine ⟨?_, fun hurl => ?_⟩
  · simp only [hunused]
    exact hresumes.take_iff n
  · refine (hresumes.take_iff n).2 fun k _ vs g htake => hresumes.not_misreads (hwords ▸ hurl) ?_
    obtain ⟨-, -, -, hown⟩ := take_reaches (Behind.start _ _ false) rfl htake
    exact hown

/-- A word `url` that a bracket has used up is no older word; the bracket behind `b` is read alike. -/
theorem take_afresh_used :
    ∃ us r, take 2 (start ⟨"url(a)b (\n".toList, Position.front, none⟩ [⟨6, 6⟩]) = (us, none, r) ∧
      SameMoved r.position (take 9 r) (take 9 (afresh ⟨"url(a)b (\n".toList, Position.front, none⟩ [⟨6, 6⟩] r)) := by
  have hfault : (take 2 (start ⟨"url(a)b (\n".toList, Position.front, none⟩ [⟨6, 6⟩])).2.1 = none := by decide +kernel
  have hread : take 2 (start ⟨"url(a)b (\n".toList, Position.front, none⟩ [⟨6, 6⟩]) =
      (_, none, _) := Prod.ext rfl (Prod.ext hfault rfl)
  exact ⟨_, _, hread, (take_afresh hread 9).2 (by decide +kernel)⟩

/-- A space between the word and the bracket does not keep the bracket from opening an address. -/
theorem drain_afresh_stale : ¬∀ (e : Excerpt) (holes : List Hole) (m : Nat) (us : List Token) (r : Reader),
    take m (start e holes) = (us, none, r) →
      (∀ t ∈ us.getLast?, ¬(t.kind = .word ∧ t.text = "url".toList)) →
        (drain r).2.1.isSome = (drain (afresh e holes r)).2.1.isSome := by
  intro h
  have hfault : (take 2 (start ⟨"url (".toList, Position.front, none⟩ [])).2.1 = none := by decide +kernel
  have hread : take 2 (start ⟨"url (".toList, Position.front, none⟩ []) = (_, none, _) :=
    Prod.ext rfl (Prod.ext hfault rfl)
  exact absurd (h _ _ _ _ _ hread (by decide +kernel)) (by decide +kernel)

end Reader
end TaggedStyles
