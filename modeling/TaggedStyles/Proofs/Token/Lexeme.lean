import TaggedStyles.Token.Scan
import TaggedStyles.Proofs.Text.Slice

/-! What the first token of a text can be. `Lexeme.Reads` lists the cases once; from it follow that a
lexeme and its rest are the text it was found in, that it is not empty, and how each mark is spelled. -/
namespace TaggedStyles
set_option autoImplicit false

/-! ## Scans -/

theorem scan_stops {holes : List Hole} {stop : Bool → Text → Bool} {i skip : Nat} {odd : Bool} {cs : Text}
    (h : (scan holes stop i skip odd cs).2 ≠ []) :
    ∃ odd', stop odd' (scan holes stop i skip odd cs).2 = true := by
  induction cs generalizing i skip odd with
  | nil => simp [scan] at h
  | cons c cs ih =>
    simp only [scan] at h ⊢
    split at h
    · rename_i hstop
      rw [if_pos hstop]
      exact ⟨odd, (Bool.and_eq_true _ _ ▸ hstop).2⟩
    · rename_i hstop
      rw [if_neg hstop]
      exact ih h

namespace Lexeme
variable {holes : List Hole} {lenient : Bool} {word : Text} {i : Nat}

/-- What `through?` finds: the text in front of the place where the scan stops, and the mark there. -/
theorem through?_eq_some {kind : Token.Kind} {stop : Bool → Text → Bool} {n : Nat} {opening cs : Text}
    {l : Lexeme} (h : through? kind holes stop n opening i cs = some l) :
    (scan holes stop i 0 false cs).2 ≠ [] ∧
    l = ⟨kind, opening ++ (scan holes stop i 0 false cs).1 ++ (scan holes stop i 0 false cs).2.take n,
      (scan holes stop i 0 false cs).2.drop n⟩ := by
  unfold through? at h
  split at h
  rename_i taken rest hscan
  split at h
  · simp at h
  · rename_i hne
    rw [hscan]
    exact ⟨fun h0 => hne (by simpa using h0), (Option.some.inj h).symm⟩

theorem through?_spec {kind : Token.Kind} {stop : Bool → Text → Bool} {n : Nat} {opening cs : Text}
    {l : Lexeme} (h : through? kind holes stop n opening i cs = some l) :
    l.text ++ l.rest = opening ++ cs := by
  obtain ⟨-, rfl⟩ := through?_eq_some h
  simp only [List.append_assoc, List.take_append_drop, List.append_cancel_left_eq]
  exact scan_append holes stop i 0 false cs

/-! ## The cases of the first token -/

/-- The marks that are one character. -/
def IsMark (kind : Token.Kind) (c : Char) : Prop :=
  (kind, c) ∈ [(Token.Kind.openSquare, '['), (.closeSquare, ']'), (.openCurly, '\x7b'), (.closeCurly, '\x7d'),
    (.colon, ':'), (.semicolon, ';'), (.openParen, '('), (.closeParen, ')')]

theorem first_paren {cs : Text} : first holes lenient word i ('(' :: cs) =
    if opensAddress word cs then some <$> address holes lenient i cs else .ok (some (group holes i cs)) := rfl

theorem first_quote {quote : Char} {cs : Text} (h : quote = '\'' ∨ quote = '"') :
    first holes lenient word i (quote :: cs) = some <$> string holes lenient i quote cs := by
  rcases h with rfl | rfl <;> rfl

/-- Which lexeme stands at the front of a text that starts at offset `i`. -/
inductive Reads (holes : List Hole) (lenient : Bool) (i : Nat) : Text → Lexeme → Prop
  | spaces {c : Char} {cs : Text} : isSpace c = true → Reads holes lenient i (c :: cs) (spaces (c :: cs))
  | mark {kind : Token.Kind} {c : Char} {cs : Text} : IsMark kind c →
      Reads holes lenient i (c :: cs) ⟨kind, [c], cs⟩
  | address {cs : Text} {l : Lexeme} : address holes lenient i cs = .ok l → Reads holes lenient i ('(' :: cs) l
  | group {cs : Text} {l : Lexeme} : through? .brackets holes (atClass (· == ')')) 1 ['('] (i + 1) cs = some l →
      Reads holes lenient i ('(' :: cs) l
  | string {quote : Char} {cs : Text} {l : Lexeme} : quote = '\'' ∨ quote = '"' →
      string holes lenient i quote cs = .ok l → Reads holes lenient i (quote :: cs) l
  | atWord {cs : Text} :
      Reads holes lenient i ('@' :: cs) (upTo .atWord holes (atClass endsAtWord) ['@'] (i + 1) cs)
  | escape {cs : Text} : Reads holes lenient i ('\\' :: cs) (escape cs)
  | comment {cs : Text} {l : Lexeme} : comment holes lenient i cs = .ok l →
      Reads holes lenient i ('/' :: '*' :: cs) l
  | word {c : Char} {cs : Text} {l : Lexeme} : isSpace c = false → c ≠ '\\' →
      Lexeme.word holes i c cs = .ok l → Reads holes lenient i (c :: cs) l

private theorem map_some_eq_ok {x : Except Blocked Lexeme} {l : Lexeme}
    (h : some <$> x = .ok (some l)) : x = .ok l := by
  cases x with
  | error e => simp [Functor.map, Except.map] at h
  | ok a => simpa [Functor.map, Except.map] using h

theorem group_cases (holes : List Hole) (i : Nat) (cs : Text) :
    group holes i cs = ⟨.openParen, ['('], cs⟩ ∨
    ∃ l, through? .brackets holes (atClass (· == ')')) 1 ['('] (i + 1) cs = some l ∧ group holes i cs = l := by
  unfold group
  split
  · rename_i l hl
    split
    · exact .inl rfl
    · exact .inr ⟨l, hl, rfl⟩
  · exact .inl rfl

theorem reads_of_first {cs : Text} {l : Lexeme} (h : first holes lenient word i cs = .ok (some l)) :
    Reads holes lenient i cs l := by
  cases cs with
  | nil => simp [first] at h
  | cons c cs =>
    simp only [first] at h
    split at h
    · rename_i hc
      obtain rfl := Option.some.inj (Except.ok.inj h)
      exact .spaces hc
    · rename_i hc
      split at h
      -- The marks come first, then the openings that reach further.
      iterate 7
        obtain rfl := Option.some.inj (Except.ok.inj h)
        exact .mark (by simp [IsMark])
      · split at h
        · exact .address (map_some_eq_ok h)
        · obtain rfl := Option.some.inj (Except.ok.inj h)
          rcases group_cases holes i cs with hg | ⟨l, hl, hg⟩
          · rw [hg]
            exact .mark (by simp [IsMark])
          · rw [hg]
            exact .group hl
      · exact .string (.inl rfl) (map_some_eq_ok h)
      · exact .string (.inr rfl) (map_some_eq_ok h)
      · obtain rfl := Option.some.inj (Except.ok.inj h)
        exact .atWord
      · obtain rfl := Option.some.inj (Except.ok.inj h)
        exact .escape
      · split at h
        · exact .comment (map_some_eq_ok h)
        · exact .word (by simpa using hc) (by assumption) (map_some_eq_ok h)

/-! ## Nothing is lost -/

theorem escape_append (cs : Text) : (escape cs).text ++ (escape cs).rest = '\\' :: cs := by
  have hrun : cs.takeWhile (· == '\\') ++ cs.dropWhile (· == '\\') = cs := List.takeWhile_append_dropWhile
  unfold escape
  simp only
  split
  · rename_i htail
    rw [htail] at hrun
    simpa using hrun
  · rename_i c more htail
    rw [htail] at hrun
    split
    · simpa using hrun
    · split
      · have hdigits : more.takeWhile isHexDigit ++ more.dropWhile isHexDigit = more :=
          List.takeWhile_append_dropWhile
        split
        · rename_i rest hrest
          rw [hrest] at hdigits
          simp [hdigits, hrun]
        · simp [hdigits, hrun]
      · simpa using hrun

theorem escape_text (cs : Text) : ∃ more, (escape cs).kind = .word ∧ (escape cs).text = '\\' :: more := by
  unfold escape
  simp only
  split
  · exact ⟨_, rfl, rfl⟩
  · split
    · exact ⟨_, rfl, rfl⟩
    · split
      · split <;> exact ⟨_, rfl, rfl⟩
      · exact ⟨_, rfl, rfl⟩

/-- A word is the hole that starts with it, or else a scan behind its first character. -/
theorem word_cases {c : Char} {cs : Text} {l : Lexeme} (h : Lexeme.word holes i c cs = .ok l) :
    (∃ last text rest, Hole.lastAt? holes i = some last ∧ l = ⟨.word, text, rest⟩ ∧
      Text.splitAt? (c :: cs) (max (last + 1 - i) c.utf8Size) = some (text, rest)) ∨
    (Hole.lastAt? holes i = none ∧ ∃ skip, skip = passHoles holes (c.utf8Size - 1) (i + 1) 0 ∧
      l = ⟨.word, c :: (scan holes atWordEnd (i + c.utf8Size) skip false cs).1,
        (scan holes atWordEnd (i + c.utf8Size) skip false cs).2⟩) := by
  unfold Lexeme.word at h
  split at h
  · rename_i last hlast
    split at h
    · rename_i text rest hcut
      exact .inl ⟨last, text, rest, hlast, (Except.ok.inj h).symm, hcut⟩
    · simp at h
  · rename_i hnone
    exact .inr ⟨hnone, _, rfl, (Except.ok.inj h).symm⟩

theorem string_cases {quote : Char} {cs : Text} {l : Lexeme} (h : string holes lenient i quote cs = .ok l) :
    through? .string holes (atUnescaped quote) 1 [quote] (i + 1) cs = some l ∨
    (lenient = true ∧ l = ⟨.string, quote :: cs.take 1, cs.drop 1⟩) := by
  unfold string at h
  split at h
  · rename_i l' hl
    exact .inl (Except.ok.inj h ▸ hl)
  · split at h
    · exact .inr ⟨by assumption, (Except.ok.inj h).symm⟩
    · simp at h

theorem comment_cases {cs : Text} {l : Lexeme} (h : comment holes lenient i cs = .ok l) :
    through? .comment holes (atText ['*', '/']) 2 ['/', '*'] (i + 2) cs = some l ∨
    (lenient = true ∧ l = ⟨.comment, '/' :: '*' :: cs, []⟩) := by
  unfold comment at h
  split at h
  · rename_i l' hl
    exact .inl (Except.ok.inj h ▸ hl)
  · split at h
    · exact .inr ⟨by assumption, (Except.ok.inj h).symm⟩
    · simp at h

theorem address_cases {cs : Text} {l : Lexeme} (h : address holes lenient i cs = .ok l) :
    through? .brackets holes (atUnescaped ')') 1 ['('] (i + 1) cs = some l ∨
    (lenient = true ∧ l = ⟨.brackets, ['('], cs⟩) := by
  unfold address at h
  split at h
  · rename_i l' hl
    exact .inl (Except.ok.inj h ▸ hl)
  · split at h
    · exact .inr ⟨by assumption, (Except.ok.inj h).symm⟩
    · simp at h

theorem Reads.append {cs : Text} {l : Lexeme} (h : Reads holes lenient i cs l) : l.text ++ l.rest = cs := by
  cases h with
  | spaces => exact List.takeWhile_append_dropWhile
  | mark => rfl
  | address h =>
    rcases address_cases h with h | ⟨-, rfl⟩
    · exact through?_spec h
    · rfl
  | group h => exact through?_spec h
  | @string quote cs l _ h =>
    rcases string_cases h with h | ⟨-, rfl⟩
    · exact through?_spec h
    · exact congrArg (quote :: ·) (List.take_append_drop 1 cs)
  | atWord => simpa [upTo] using scan_append holes (atClass endsAtWord) (i + 1) 0 false _
  | escape => exact escape_append _
  | comment h =>
    rcases comment_cases h with h | ⟨-, rfl⟩
    · exact through?_spec h
    · simp
  | word _ _ h =>
    rcases word_cases h with ⟨last, text, rest, -, rfl, hcut⟩ | ⟨-, skip, -, rfl⟩
    · exact (Text.splitAt?_eq_some.1 hcut).1.symm
    · simpa using scan_append holes atWordEnd _ skip false _

private theorem through?_ne_nil {kind : Token.Kind} {stop : Bool → Text → Bool} {n : Nat} {c : Char}
    {opening cs : Text} {l : Lexeme} (h : through? kind holes stop n (c :: opening) i cs = some l) :
    l.kind = kind ∧ l.text ≠ [] := by
  obtain ⟨-, rfl⟩ := through?_eq_some h
  exact ⟨rfl, by simp⟩

theorem Reads.text_ne_nil {cs : Text} {l : Lexeme} (h : Reads holes lenient i cs l) : l.text ≠ [] := by
  cases h with
  | spaces hc => simp [Lexeme.spaces, List.takeWhile, hc]
  | mark => simp
  | address h =>
    rcases address_cases h with h | ⟨-, rfl⟩
    · exact (through?_ne_nil h).2
    · simp
  | group h => exact (through?_ne_nil h).2
  | string _ h =>
    rcases string_cases h with h | ⟨-, rfl⟩
    · exact (through?_ne_nil h).2
    · simp
  | atWord => simp [upTo]
  | @escape cs =>
    obtain ⟨more, -, htext⟩ := escape_text cs
    simp [htext]
  | comment h =>
    rcases comment_cases h with h | ⟨-, rfl⟩
    · exact (through?_ne_nil h).2
    · simp
  | @word c cs l _ _ h =>
    rcases word_cases h with ⟨last, text, rest, -, rfl, hcut⟩ | ⟨-, skip, -, rfl⟩
    · have hsize := (Text.splitAt?_eq_some.1 hcut).2
      have hc := c.utf8Size_pos
      intro h0
      simp only at h0
      subst h0
      simp only [Text.size_nil] at hsize
      omega
    · simp

/-! ## Kinds -/

/-- How the marks, the names of at-rules and the comments are spelled. -/
def Spells : Token.Kind → Text → Prop
  | .word, _ | .space, _ | .string, _ | .brackets, _ => True
  | .atWord, t => ∃ name, t = '@' :: name
  | .comment, t => ∃ inner, t = '/' :: '*' :: (inner ++ ['*', '/'])
  | kind, t => ∃ c, IsMark kind c ∧ t = [c]

theorem Spells.text_of_mark {kind : Token.Kind} {text : Text} {c : Char} (h : Spells kind text)
    (hc : IsMark kind c) : text = [c] := by
  simp only [IsMark, List.mem_cons, Prod.mk.injEq, List.not_mem_nil, or_false] at hc
  rcases hc with ⟨rfl, rfl⟩ | ⟨rfl, rfl⟩ | ⟨rfl, rfl⟩ | ⟨rfl, rfl⟩ | ⟨rfl, rfl⟩ | ⟨rfl, rfl⟩ | ⟨rfl, rfl⟩ | ⟨rfl, rfl⟩ <;>
  · obtain ⟨d, hd, htext⟩ := h
    rw [htext]
    simpa [IsMark] using hd

theorem Reads.spells {cs : Text} {l : Lexeme} (h : Reads holes false i cs l) : Spells l.kind l.text := by
  cases h with
  | spaces => trivial
  | @mark kind c cs h =>
    simp only [IsMark, List.mem_cons, Prod.mk.injEq, List.not_mem_nil, or_false] at h
    rcases h with ⟨rfl, rfl⟩ | ⟨rfl, rfl⟩ | ⟨rfl, rfl⟩ | ⟨rfl, rfl⟩ | ⟨rfl, rfl⟩ | ⟨rfl, rfl⟩ | ⟨rfl, rfl⟩ | ⟨rfl, rfl⟩ <;>
      exact ⟨_, by simp [IsMark], rfl⟩
  | address h =>
    rcases address_cases h with h | ⟨h, -⟩
    · rw [(through?_ne_nil h).1]
      trivial
    · simp at h
  | group h =>
    rw [(through?_ne_nil h).1]
    trivial
  | string _ h =>
    rcases string_cases h with h | ⟨h, -⟩
    · rw [(through?_ne_nil h).1]
      trivial
    · simp at h
  | atWord => exact ⟨_, rfl⟩
  | @escape cs =>
    obtain ⟨more, hkind, -⟩ := escape_text cs
    rw [hkind]
    trivial
  | @comment cs l h =>
    rcases comment_cases h with h | ⟨h, -⟩
    · obtain ⟨hne, rfl⟩ := through?_eq_some h
      obtain ⟨odd, hstop⟩ := scan_stops hne
      obtain ⟨rest, hrest⟩ := List.isPrefixOf_iff_prefix.1 hstop
      refine ⟨(scan holes (atText ['*', '/']) (i + 2) 0 false cs).1, ?_⟩
      rw [← hrest]
      simp
    · simp at h
  | word _ _ h =>
    rcases word_cases h with ⟨last, text, rest, -, rfl, hcut⟩ | ⟨-, skip, -, rfl⟩ <;> trivial

theorem Reads.kind_eq_space {c : Char} {cs : Text} {l : Lexeme} (h : Reads holes lenient i (c :: cs) l) :
    l.kind = .space ↔ isSpace c = true := by
  cases h with
  | spaces hc => simp [Lexeme.spaces, hc]
  | mark h =>
    simp only [IsMark, List.mem_cons, Prod.mk.injEq, List.not_mem_nil, or_false] at h
    rcases h with ⟨rfl, rfl⟩ | ⟨rfl, rfl⟩ | ⟨rfl, rfl⟩ | ⟨rfl, rfl⟩ | ⟨rfl, rfl⟩ | ⟨rfl, rfl⟩ | ⟨rfl, rfl⟩ | ⟨rfl, rfl⟩ <;>
      simp [isSpace]
  | address h =>
    rcases address_cases h with h | ⟨-, rfl⟩
    · rw [(through?_ne_nil h).1]
      decide
    · simp [isSpace]
  | group h =>
    rw [(through?_ne_nil h).1]
    decide
  | string hq h =>
    have hkind : l.kind = .string := by
      rcases string_cases h with h | ⟨-, rfl⟩
      · exact (through?_ne_nil h).1
      · rfl
    rw [hkind]
    rcases hq with rfl | rfl <;> decide
  | atWord =>
    simp only [upTo, reduceCtorEq, false_iff]
    decide
  | @escape cs =>
    obtain ⟨more, hkind, -⟩ := escape_text cs
    rw [hkind]
    decide
  | comment h =>
    rcases comment_cases h with h | ⟨-, rfl⟩
    · rw [(through?_ne_nil h).1]
      decide
    · simp only [reduceCtorEq, false_iff]
      decide
  | word hc _ h =>
    rcases word_cases h with ⟨last, text, rest, -, rfl, hcut⟩ | ⟨-, skip, -, rfl⟩ <;> simp [hc]

theorem Reads.eq_spaces {cs : Text} {l : Lexeme} (h : Reads holes lenient i cs l) (hk : l.kind = .space) :
    l = Lexeme.spaces cs := by
  have hcs : ∃ c more, cs = c :: more := by cases h <;> exact ⟨_, _, rfl⟩
  obtain ⟨c, more, rfl⟩ := hcs
  have hc := h.kind_eq_space.1 hk
  cases h with
  | spaces => rfl
  | word hc' => simp [hc] at hc'
  | mark h =>
    simp only at hk
    subst hk
    simp [IsMark] at h
  | string hq => rcases hq with rfl | rfl <;> exact absurd hc (by decide)
  | _ => exact absurd hc (by decide)

theorem Reads.rest_of_space {cs : Text} {l : Lexeme} (h : Reads holes lenient i cs l) (hk : l.kind = .space) :
    ∀ c ∈ l.rest.head?, isSpace c = false := by
  obtain rfl := h.eq_spaces hk
  intro d hd
  have h := List.head?_dropWhile_not isSpace cs
  simp only [Lexeme.spaces] at hd
  rw [Option.mem_def.1 hd] at h
  simpa using h

theorem Reads.text_of_space {cs : Text} {l : Lexeme} (h : Reads holes lenient i cs l) (hk : l.kind = .space) :
    ∀ c ∈ l.text, isSpace c = true := by
  obtain rfl := h.eq_spaces hk
  exact List.all_eq_true.1 List.all_takeWhile

end Lexeme
end TaggedStyles
