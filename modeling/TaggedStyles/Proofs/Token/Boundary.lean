import TaggedStyles.Proofs.Token.Lossless

/-! Where tokens are cut when nothing is known of the holes. A scan stops between two characters whatever it
jumps over; only a word that is a hole can end inside a character, namely where the hole ends. -/
namespace TaggedStyles
set_option autoImplicit false

/-! ## The hole that counts -/

namespace Hole

/-- Of the holes that start where this one starts, none is shorter. -/
def Shortest (holes : List Hole) (h : Hole) : Prop :=
  h ∈ holes ∧ ∀ g ∈ holes, g.start = h.start → h.last ≤ g.last

theorem lastAt?_eq_some_iff {holes : List Hole} {i last : Nat} :
    lastAt? holes i = some last ↔ ∃ h : Hole, h.Shortest holes ∧ h.start = i ∧ h.last = last := by
  have hmem : ∀ n, n ∈ holes.filterMap (fun h => if h.start = i then some h.last else none) ↔
      ∃ h ∈ holes, h.start = i ∧ h.last = n := by
    intro n
    simp only [List.mem_filterMap]
    constructor
    · rintro ⟨h, hh, hlast⟩
      split at hlast
      · exact ⟨h, hh, ‹_›, Option.some.inj hlast⟩
      · cases hlast
    · rintro ⟨h, hh, hstart, hlast⟩
      exact ⟨h, hh, by rw [if_pos hstart, hlast]⟩
  rw [lastAt?, List.min?_eq_some_iff, hmem]
  constructor
  · rintro ⟨⟨h, hh, hstart, hlast⟩, hleast⟩
    refine ⟨h, ⟨hh, fun g hg hsame => ?_⟩, hstart, hlast⟩
    rw [hlast]
    exact hleast _ ((hmem _).2 ⟨g, hg, hsame.trans hstart, rfl⟩)
  · rintro ⟨h, ⟨hh, hleast⟩, hstart, rfl⟩
    refine ⟨⟨h, hh, hstart, rfl⟩, fun n hn => ?_⟩
    obtain ⟨g, hg, hsame, rfl⟩ := (hmem n).1 hn
    exact hleast g hg (hsame.trans hstart.symm)

end Hole

/-! ## Cuts behind a part -/

theorem Text.isSome_splitAt?_append (a b : Text) (n : Nat) :
    (Text.splitAt? (a ++ b) (a.size + n)).isSome = (Text.splitAt? b n).isSome := by
  rw [Bool.eq_iff_iff]
  constructor
  · intro h
    obtain ⟨x, y, rfl, hsize⟩ := Text.isSome_splitAt?_rest h (Nat.le_add_right _ _)
    rw [← show x.size = n by omega, Text.splitAt?_append]
    rfl
  · intro h
    obtain ⟨⟨x, y⟩, hcut⟩ := Option.isSome_iff_exists.1 h
    obtain ⟨rfl, rfl⟩ := Text.splitAt?_eq_some.1 hcut
    rw [← Text.size_append, ← List.append_assoc, Text.splitAt?_append]
    rfl

/-! ## Words -/

/-- Whether a text starts with a word that no backslash opens. -/
def opensWord : Text → Bool
  | [] => false
  | c :: cs => !(isSpace c || "[]\x7b\x7d:;()'\"@\\".toList.contains c || ['/', '*'].isPrefixOf (c :: cs))

namespace Lexeme
variable {holes : List Hole} {lenient : Bool} {word cs : Text} {c : Char} {i n : Nat}

theorem first_of_opensWord (h : opensWord (c :: cs) = true) :
    first holes lenient word i (c :: cs) = some <$> Lexeme.word holes i c cs := by
  simp only [opensWord, Bool.not_eq_true', Bool.or_eq_false_iff] at h
  obtain ⟨⟨hspace, hmark⟩, hcomment⟩ := h
  simp only [first, hspace, Bool.false_eq_true, if_false]
  split
  iterate 12 cases hmark
  split
  · cases hcomment
  · rfl

private theorem map_some_ne_split {x : Except Blocked Lexeme} (h : x ≠ .error (.split n)) :
    some <$> x ≠ .error (.split n) := fun he => h (of_map_some_eq_error he)

theorem first_ne_split (h : opensWord cs = false) : first holes lenient word i cs ≠ .error (.split n) := by
  cases cs with
  | nil => simp [first]
  | cons c cs =>
    simp only [opensWord, Bool.not_eq_false', Bool.or_eq_true] at h
    simp only [first]
    split
    · simp
    · rename_i hspace
      split
      iterate 7 simp
      · split
        · exact map_some_ne_split address_ne_split
        · simp
      iterate 2 exact map_some_ne_split string_ne_split
      iterate 2 simp
      · split
        · exact map_some_ne_split comment_ne_split
        · rename_i hcomment
          rcases h with (h | h) | h
          · exact absurd h hspace
          · simp only [String.reduceToList, List.contains_eq_mem, List.mem_cons, List.not_mem_nil, or_false,
              decide_eq_true_eq] at h
            grind
          · obtain ⟨more, hmore⟩ := List.isPrefixOf_iff_prefix.1 h
            obtain ⟨rfl, rfl⟩ := List.cons.inj hmore
            exact absurd rfl (hcomment more rfl)

private theorem cut_behind_first {before : Text} {stop : Nat} :
    Text.splitAt? (c :: cs) (max (stop - before.size) c.utf8Size) = none ↔
      before.size + c.utf8Size < stop ∧ Text.splitAt? (before ++ c :: cs) stop = none := by
  by_cases hlt : before.size + c.utf8Size < stop
  · have hsame := Text.isSome_splitAt?_append before (c :: cs) (stop - before.size)
    rw [Nat.add_sub_cancel' (by omega)] at hsame
    rw [max_eq_left (by omega), ← Option.not_isSome_iff_eq_none, ← Option.not_isSome_iff_eq_none, hsame]
    simp only [hlt, true_and]
  · have hfirst := Text.splitAt?_append [c] cs
    rw [List.singleton_append, Text.size_cons, Text.size_nil, Nat.add_zero] at hfirst
    rw [max_eq_right (by omega), hfirst]
    simp only [reduceCtorEq, hlt, false_and]

/-- A word is split where the hole that starts with it ends inside a later character. -/
theorem word_split_iff {before : Text} :
    Lexeme.word holes before.size c cs = .error (.split n) ↔
      ∃ h : Hole, h.Shortest holes ∧ h.start = before.size ∧ h.last + 1 = n ∧ before.size + c.utf8Size < n ∧
        Text.splitAt? (before ++ c :: cs) n = none := by
  constructor
  · intro h
    unfold Lexeme.word at h
    split at h
    · rename_i last hlast
      split at h
      · cases h
      · rename_i hnone
        obtain ⟨g, hg, hstart, rfl⟩ := Hole.lastAt?_eq_some_iff.1 hlast
        obtain rfl := Blocked.split.inj (Except.error.inj h)
        exact ⟨g, hg, hstart, rfl, cut_behind_first.1 hnone⟩
    · cases h
  · rintro ⟨g, hg, hstart, rfl, hinside⟩
    have hlast := Hole.lastAt?_eq_some_iff.2 ⟨g, hg, hstart, rfl⟩
    have hnone := cut_behind_first.2 hinside
    simp only [Lexeme.word, hlast, hnone]

theorem first_split_iff {before : Text} :
    first holes lenient word before.size cs = .error (.split n) ↔
      opensWord cs = true ∧ ∃ h : Hole, h.Shortest holes ∧ h.start = before.size ∧ h.last + 1 = n ∧
        before.size + Text.size (cs.take 1) < n ∧ Text.splitAt? (before ++ cs) n = none := by
  cases hopens : opensWord cs with
  | false => simp [first_ne_split hopens]
  | true =>
    match cs with
    | [] => cases hopens
    | c :: cs =>
      have hmap : some <$> Lexeme.word holes before.size c cs = .error (.split n) ↔
          Lexeme.word holes before.size c cs = .error (.split n) := by
        cases Lexeme.word holes before.size c cs <;> simp [Functor.map, Except.map]
      rw [first_of_opensWord hopens, hmap, word_split_iff]
      simp

end Lexeme

/-! ## Calls -/

namespace Reader
variable {e : Excerpt} {holes : List Hole} {lenient : Bool} {modes : List Bool} {r r' : Reader} {w : Text}
  {xs : List (Except Fault (Option Token))}

/-- At a reader's place stands a word that is the shortest hole there, and the hole ends at byte `n` inside a
character that is not its first. -/
def SplitsAt (e : Excerpt) (holes : List Hole) (r : Reader) (n : Nat) : Prop :=
  opensWord r.rest = true ∧ ∃ h : Hole, h.Shortest (holes.filter (Hole.fits e.text.size)) ∧ h.start = r.position ∧
    h.last + 1 = n ∧ r.position + Text.size (r.rest.take 1) < n ∧ e.text.splitAt? n = none

theorem Behind.split_iff (h : r.Behind e holes w) {n : Nat} :
    (r.next lenient).1 = .error (.splitCharacter n) ↔ r.SplitsAt e holes n := by
  obtain ⟨hholes, hreturned, htext, hposition⟩ := h
  have hfirst : Lexeme.first r.holes (r.lenient || lenient) (r.words.headD []) w.size r.rest =
      .error (.split n) ↔ _ := Lexeme.first_split_iff
  rw [hposition, ← htext, hholes] at hfirst
  rw [SplitsAt, ← hfirst, Reader.next, hreturned, hholes]
  simp only
  split <;> simp_all

/-- Whatever the holes are and however each call chooses between strict and lenient reading, the tokens read so far
are the text in front of the reader, up to a place between two characters. The next call cuts inside a character
exactly where the shortest hole at that place reads as a word and ends inside a later character; otherwise it answers
a token that stands right there with the offsets of its first and last character, the end, or an error that moves
nothing. -/
theorem calls_cut (hcalls : calls modes (start e holes lenient) = (xs, r)) (mode : Bool) :
    e.text.splitAt? r.position = some (Token.joined (tokensIn xs), r.rest) ∧
    (∀ n, (r.next mode).1 = .error (.splitCharacter n) ↔ r.SplitsAt e holes n) ∧
    ((∀ n, ¬r.SplitsAt e holes n) → r.Answers e (r.next mode).1 (r.next mode).2) := by
  obtain ⟨rfl, rfl⟩ := Prod.mk.inj hcalls
  have hbehind := (Behind.start e holes lenient).calls modes
  rw [List.nil_append] at hbehind
  have hsplit : ∀ n, ((calls modes (start e holes lenient)).2.next mode).1 = .error (.splitCharacter n) ↔ _ :=
    fun n => hbehind.split_iff
  refine ⟨Text.splitAt?_eq_some.2 ⟨hbehind.text, hbehind.position⟩, hsplit, fun hnone => ?_⟩
  exact hbehind.answers_of_uncut rfl fun n hn => hnone n ((hsplit n).1 hn)

/-- Of two holes at one place the one that ends inside a character is the shorter. -/
theorem calls_cut_shortest :
    ∃ xs r, calls [false, true] (start ⟨"b aé".toList, Position.front, none⟩ [⟨2, 4⟩, ⟨2, 3⟩]) = (xs, r) ∧
      Text.splitAt? "b aé".toList r.position = some ("b ".toList, r.rest) ∧
      (r.next false).1 = .error (.splitCharacter 4) := by
  obtain ⟨xs, r, hcalls⟩ : ∃ xs r, calls [false, true]
      (start ⟨"b aé".toList, Position.front, none⟩ [⟨2, 4⟩, ⟨2, 3⟩]) = (xs, r) := ⟨_, _, rfl⟩
  have hreader : Token.joined (tokensIn (calls [false, true] (start ⟨"b aé".toList, Position.front, none⟩
      [⟨2, 4⟩, ⟨2, 3⟩])).1) = "b ".toList ∧ (calls [false, true] (start ⟨"b aé".toList, Position.front, none⟩
      [⟨2, 4⟩, ⟨2, 3⟩])).2.position = 2 ∧ (calls [false, true] (start ⟨"b aé".toList, Position.front, none⟩
      [⟨2, 4⟩, ⟨2, 3⟩])).2.rest = "aé".toList := by decide +kernel
  rw [hcalls] at hreader
  obtain ⟨hread, hposition, hrest⟩ := hreader
  obtain ⟨hfront, hsplit, -⟩ := calls_cut hcalls false
  refine ⟨xs, r, hcalls, hread ▸ hfront, (hsplit 4).2 ?_⟩
  rw [SplitsAt, hposition, hrest]
  exact ⟨by decide, ⟨2, 3⟩, ⟨by decide +kernel, by decide +kernel⟩, rfl, rfl, by decide, by decide +kernel⟩

/-- A hole whose last byte is the first of two splits the word that it is. -/
theorem calls_split_inside : ¬∀ (e : Excerpt) (holes : List Hole) (modes : List Bool) (n : Nat),
    .error (.splitCharacter n) ∉ (calls modes (start e holes)).1 := by
  intro h
  exact h ⟨"aé".toList, Position.front, none⟩ [⟨0, 1⟩] [false] 2 (by decide +kernel)

end Reader
end TaggedStyles
