import TaggedStyles.Proofs.Text.Place
import TaggedStyles.Proofs.Tree.Spans

/-! Places that tokens and faults tell. Every token of a strict reading stands in the text where it says that it starts,
and its last character where it says that it ends (`Token.Placed`). `Ensures` is what is proved of the functions that
take tokens: a result has a property, or a fault tells an exact place (`Fault.Placed`). -/
namespace TaggedStyles
set_option autoImplicit false

/-! ## Places between characters -/

namespace Excerpt
variable {e : Excerpt} {x y : Text} {p : Position}

/-- An offset in the source of a place between two characters of the excerpt. -/
def HasCut (e : Excerpt) (n : Nat) : Prop := ∃ x y, e.text = x ++ y ∧ n = e.origin.offset + x.size

/-- The position of such a place. -/
def HasPlace (e : Excerpt) (p : Position) : Prop := ∃ x y, e.text = x ++ y ∧ p = e.origin.behind x

theorem HasPlace.cut (h : e.HasPlace p) : e.HasCut p.offset := by
  obtain ⟨x, y, htext, rfl⟩ := h
  exact ⟨x, y, htext, rfl⟩

theorem hasCut_of_size {n : Nat} (h : ∃ x y, e.text = x ++ y ∧ Text.size x = n) :
    e.HasCut (e.origin.offset + n) := by
  obtain ⟨x, y, htext, rfl⟩ := h
  exact ⟨x, y, htext, rfl⟩

theorem hasPlace_position (h : e.text = x ++ y) : e.HasPlace (e.position x.size) :=
  ⟨x, y, h, position_behind h⟩

end Excerpt

/-! ## Tokens -/

/-- A token stands where its offsets say, and only spaces have none. -/
structure Token.Placed (e : Excerpt) (t : Token) : Prop where
  start : ∀ i ∈ t.start, ∃ x y, e.text = x ++ (t.text ++ y) ∧ Text.size x = i
  last : ∀ i ∈ t.last, ∃ j ∈ t.start, ∃ init c, t.text = init ++ [c] ∧ i = j + Text.size init
  start_isSome : t.kind ≠ .space → t.start.isSome = true
  last_isSome : t.last.isSome = true ∨ t.kind = .space ∨ ∃ c, Lexeme.IsMark t.kind c ∧ t.text = [c]
  space : t.kind = .space → t.start = none ∧ ∀ c ∈ t.text, isSpace c = true
  spells : Lexeme.Spells t.kind t.text
  hyphen : t.text.head? = some '-' → t.kind = .word

/-- No mark is a hyphen, and no string, group, name of an at-rule or comment starts with one. -/
theorem Lexeme.Reads.word_of_hyphen {holes : List Hole} {i : Nat} {cs : Text} {l : Lexeme}
    (h : Lexeme.Reads holes false i cs l) (hhead : l.text.head? = some '-') : l.kind = .word := by
  have hfront : cs.head? = some '-' := by
    rw [← h.append, List.head?_append, hhead]
    rfl
  cases h with
  | spaces hc =>
    obtain rfl := Option.some.inj hfront
    cases hc
  | mark hmark =>
    obtain rfl := Option.some.inj hfront
    simp [IsMark] at hmark
  | string hquote =>
    obtain rfl := Option.some.inj hfront
    simp at hquote
  | address | group | atWord | escape | comment => cases hfront
  | word _ _ hword => rcases word_cases hword with ⟨last, text, rest, -, rfl, -⟩ | ⟨-, skip, -, rfl⟩ <;> rfl

theorem Lexeme.utf8Size_of_isMark {kind : Token.Kind} {c : Char} (h : Lexeme.IsMark kind c) : c.utf8Size = 1 := by
  simp only [Lexeme.IsMark, List.mem_cons, Prod.mk.injEq, List.not_mem_nil, or_false] at h
  rcases h with ⟨-, rfl⟩ | ⟨-, rfl⟩ | ⟨-, rfl⟩ | ⟨-, rfl⟩ | ⟨-, rfl⟩ | ⟨-, rfl⟩ | ⟨-, rfl⟩ | ⟨-, rfl⟩ <;> rfl

namespace Token.Placed
variable {e : Excerpt} {t : Token} {a : Nat}

theorem hasPlace (h : t.Placed e) : e.HasPlace (e.position (t.start.getD 0)) := by
  cases hs : t.start with
  | none => exact Excerpt.hasPlace_position (x := []) rfl
  | some i =>
    obtain ⟨x, y, htext, rfl⟩ := h.start i hs
    exact Excerpt.hasPlace_position htext

theorem anchor (h : t.Placed e) (ha : t.anchor? = some a) :
    ∃ x c y, e.text = x ++ c :: y ∧ Text.size x = a ∧ t.text.getLast? = some c := by
  cases hlast : t.last with
  | some last =>
    rw [Token.anchor?, hlast] at ha
    obtain rfl := Option.some.inj ha
    obtain ⟨i, hi, init, c, htext, rfl⟩ := h.last _ hlast
    obtain ⟨x, y, hwhole, rfl⟩ := h.start i hi
    exact ⟨x ++ init, c, y, by rw [hwhole, htext]; simp, Text.size_append _ _, by rw [htext]; simp⟩
  | none =>
    rw [Token.anchor?, hlast] at ha
    rcases h.last_isSome with hsome | hspace | ⟨c, -, htext⟩
    · rw [hlast] at hsome
      cases hsome
    · rw [(h.space hspace).1] at ha
      cases ha
    · obtain ⟨x, y, hwhole, rfl⟩ := h.start a ha
      exact ⟨x, c, y, by rw [hwhole, htext]; rfl, rfl, by rw [htext]; rfl⟩

theorem behind_mark (h : t.Placed e) {c : Char} (hmark : Lexeme.IsMark t.kind c) :
    e.HasCut (e.origin.offset + t.start.getD 0 + 1) := by
  have hkind : t.kind ≠ .space := by
    intro hk
    rw [hk] at hmark
    simp [Lexeme.IsMark] at hmark
  obtain ⟨i, hi⟩ := Option.isSome_iff_exists.1 (h.start_isSome hkind)
  obtain ⟨x, y, htext, rfl⟩ := h.start i hi
  rw [h.spells.text_of_mark hmark] at htext
  refine ⟨x ++ [c], y, by rw [htext]; simp, ?_⟩
  rw [hi, Option.getD_some, Text.size_append, Text.size_cons, Text.size_nil, Lexeme.utf8Size_of_isMark hmark]
  omega

end Token.Placed

namespace Reader
variable {e : Excerpt} {holes : List Hole}

theorem tokenOf_isSome (l : Lexeme) (i : Nat) (hl : Lexeme.Spells l.kind l.text) :
    (tokenOf l i).last.isSome = true ∨ l.kind = .space ∨ ∃ c, Lexeme.IsMark l.kind c ∧ l.text = [c] := by
  unfold tokenOf
  cases hk : l.kind
  case space => exact .inr (.inl rfl)
  case word | string | comment | atWord | brackets => exact .inl rfl
  all_goals
    rw [hk] at hl
    exact .inr (.inr hl)

theorem drain_placed : ∀ t ∈ (start e holes).drain.1, t.Placed e := by
  intro t ht
  obtain ⟨-, rest, htext, -⟩ := drain_tiled (Cuts.trivial e.text (holes.filter (Hole.fits e.text.size)))
  have htiled := (drain_lined e holes).tiled
  obtain ⟨i, cs, l, hreads, rfl⟩ := of_mem_take rfl ht
  obtain ⟨us, vs, hsplit⟩ := List.append_of_mem ht
  rw [hsplit] at htiled htext
  have hfits := htiled.right.fits
  have hstart := hfits.start
  rw [Nat.zero_add] at hstart
  refine ⟨fun j hj => ?_, fun j hj => ?_, fun hk => ?_, ?_, fun hk => ⟨?_, ?_⟩, hfits.spells, fun hhead => ?_⟩
  · rw [hstart] at hj
    split at hj
    · cases hj
    · obtain rfl := Option.some.inj hj
      refine ⟨Token.joined us, Token.joined vs ++ rest, ?_, rfl⟩
      rw [htext, Token.joined_append, Token.joined_cons]
      simp only [List.append_assoc]
  · rw [tokenOf_text]
    have hspace : l.kind ≠ .space := by
      intro hk
      rw [tokenOf, hk] at hj
      cases hj
    refine ⟨i, by rw [tokenOf_start, if_neg hspace]; rfl, l.text.dropLast, l.text.getLast hreads.text_ne_nil, ?_,
      tokenOf_last hj⟩
    exact (List.dropLast_concat_getLast hreads.text_ne_nil).symm
  · rw [hstart, if_neg hk]
    rfl
  · rw [tokenOf_kind, tokenOf_text]
    exact tokenOf_isSome l i hreads.spells
  · rw [hstart, if_pos hk]
  · rw [tokenOf_kind] at hk
    rw [tokenOf_text]
    exact hreads.text_of_space hk
  · rw [tokenOf_text] at hhead
    rw [tokenOf_kind]
    exact hreads.word_of_hyphen hhead

end Reader

/-! ## Faults -/

/-- An error tells the exact position of a place, and the word it tells, if any, stands there. Only a space, which has no
place of its own, stands in front of the semicolon right before that place, and a missed semicolon may be told inside
the last character of the word that it was missed behind. -/
def StyleError.Placed (e : Excerpt) (error : StyleError) : Prop :=
  (∃ x y, e.text = x ++ y ∧ error.position = e.origin.behind x ∧ ∀ w, error.cause = .unknownWord w →
    w <+: y ∨ ((∀ c ∈ w, isSpace c = true) ∧ w ++ [';'] <:+ x)) ∨
  (error.cause = .missedSemicolon ∧ ∃ x c y, e.text = x ++ c :: y ∧ 1 < c.utf8Size ∧
    error.position = e.position (Text.size x + 1))

def Fault.Placed (e : Excerpt) : Fault → Prop
  | .style error => error.Placed e
  | .splitCharacter _ => False

/-- A result has a property, and a fault is placed. -/
def Ensures (e : Excerpt) {α : Type} (P : α → Prop) : Except Fault α → Prop
  | .ok a => P a
  | .error fault => fault.Placed e

namespace Ensures
variable {e : Excerpt} {α β : Type} {P : α → Prop} {Q : β → Prop} {x : Except Fault α}

theorem bind {f : α → Except Fault β} (h : Ensures e P x) (hf : ∀ a, P a → Ensures e Q (f a)) :
    Ensures e Q (x >>= f) := by
  cases x with
  | error fault => exact h
  | ok a => exact hf a h

theorem map {f : α → β} (h : Ensures e P x) (hf : ∀ a, P a → Q (f a)) : Ensures e Q (x.map f) := by
  cases x with
  | error fault => exact h
  | ok a => exact hf a h

end Ensures

section
variable {e : Excerpt} {t : Token} {cause : Cause}

/-- Any cause but an unknown word may be told wherever it is. -/
def Cause.Wordless (cause : Cause) : Prop := ∀ w, cause ≠ .unknownWord w

theorem Fault.placed_of_hasPlace {p : Position} (hp : e.HasPlace p) (hcause : cause.Wordless) :
    (Fault.style ⟨cause, p, e.file⟩).Placed e := by
  obtain ⟨x, y, htext, hposition⟩ := hp
  exact .inl ⟨x, y, htext, hposition, fun w hw => absurd hw (hcause w)⟩

theorem Token.Placed.fault (h : t.Placed e) (hcause : cause.Wordless) :
    (Fault.style (e.error cause (t.start.getD 0))).Placed e := Fault.placed_of_hasPlace h.hasPlace hcause

theorem Token.Placed.unknownWord (h : t.Placed e) {reached : Nat} (hspace : t.kind = .space →
    ∃ x y, e.text = x ++ y ∧ t.text ++ [';'] <:+ x ∧ Text.size x = reached) :
    (Fault.style (e.error (.unknownWord t.text) (t.start.getD reached))).Placed e := by
  cases hs : t.start with
  | some i =>
    obtain ⟨x, y, htext, rfl⟩ := h.start i hs
    refine .inl ⟨x, t.text ++ y, htext, Excerpt.position_behind htext, fun w hw => .inl ?_⟩
    obtain rfl := Cause.unknownWord.inj hw
    exact List.prefix_append _ _
  | none =>
    have hkind : t.kind = .space := by
      by_contra hk
      have hstart := h.start_isSome hk
      rw [hs] at hstart
      cases hstart
    obtain ⟨x, y, htext, hsuffix, rfl⟩ := hspace hkind
    refine .inl ⟨x, y, htext, Excerpt.position_behind htext, fun w hw => .inr ?_⟩
    obtain rfl := Cause.unknownWord.inj hw
    exact ⟨(h.space hkind).2, hsuffix⟩

end

/-! ## Faults of a reader -/

namespace Lexeme
variable {holes : List Hole} {lenient : Bool} {word cs : Text} {i : Nat} {cause : Cause}

theorem wordless_of_first (h : first holes lenient word i cs = .error (.unclosed cause)) : cause.Wordless := by
  rcases first_eq_error h with hunclosed | ⟨c, more, -, hword⟩
  · intro w hw
    rw [hw] at hunclosed
    simp at hunclosed
  · unfold Lexeme.word at hword
    split at hword
    · split at hword <;> cases hword
    · cases hword

end Lexeme

namespace Reader
variable {e : Excerpt} {holes : List Hole} {r r' : Reader} {w : Text} {fault : Fault} {n : Nat}

theorem next_fault_placed (h : r.Behind e holes w) (hexcerpt : r.excerpt = e)
    (hon : ∀ h ∈ holes, h.fits e.text.size = true → h.OnCharacters e.text)
    (hnext : r.next = (.error fault, r')) : fault.Placed e := by
  obtain ⟨error, rfl⟩ := next_fault h hnext hon
  obtain ⟨-, hreturned, htext, hposition⟩ := h
  unfold Reader.next at hnext
  rw [hreturned] at hnext
  simp only at hnext
  split at hnext
  · cases (Prod.mk.inj hnext).1
  · cases (Prod.mk.inj hnext).1
  · rename_i cause hfirst
    obtain ⟨hfault, -⟩ := Prod.mk.inj hnext
    rw [← Except.error.inj hfault, hexcerpt, ← hposition]
    exact Fault.placed_of_hasPlace (Excerpt.hasPlace_position htext) (Lexeme.wordless_of_first hfirst)
  · cases (Prod.mk.inj hnext).1

theorem take_fault_placed (h : r.Behind e holes w) (hexcerpt : r.excerpt = e)
    (hon : ∀ h ∈ holes, h.fits e.text.size = true → h.OnCharacters e.text) :
    ∀ fault ∈ (take n r).2.1, fault.Placed e := by
  induction n generalizing r w with
  | zero => rintro _ ⟨⟩
  | succ n ih =>
    rw [take]
    split
    · rename_i t r' hnext
      have hsame := (r.next_keeps false).1
      rw [hnext] at hsame
      exact ih (h.next hnext) (hsame.trans hexcerpt)
    · rintro _ ⟨⟩
    · rename_i fault r' hnext
      intro fault' hfault
      obtain rfl := Option.some.inj hfault
      exact next_fault_placed h hexcerpt hon hnext

end Reader

/-! ## Runs -/

namespace Run
variable {holes : List Hole} {ts : List Token} {t : Token}

/-- The token that cannot be dropped is the last one; a proper word would have ended the search. -/
theorem splitProperty_eq_error {before : Text} (h : splitProperty holes before ts = .error t) :
    ts.getLast? = some t ∧ ∀ u ∈ ts.head?, u.kind = .word → u.isHole holes = true := by
  induction ts generalizing before with
  | nil => cases h
  | cons u us ih =>
    rw [splitProperty] at h
    split at h
    · cases h
    · rename_i halone
      refine ⟨?_, fun v hv hk => ?_⟩
      · split at h
        · rename_i hnil
          obtain rfl := Except.error.inj h
          rw [List.isEmpty_iff.1 hnil]
          rfl
        · obtain ⟨hlast, -⟩ := ih h
          rw [List.getLast?_cons, hlast]
          rfl
      · obtain rfl := Option.some.inj hv
        simp only [hk, decide_true, Bool.true_and, Bool.not_eq_true', Bool.not_eq_false, Bool.and_eq_true] at halone
        exact halone.1

theorem splitColon_eq_error {between : Text} (h : splitColon between ts = .error t) : t ∈ ts ∧ t.kind = .word := by
  induction ts generalizing between with
  | nil => cases h
  | cons u us ih =>
    rw [splitColon] at h
    split at h
    · cases h
    · split at h
      · rename_i hword
        obtain rfl := Except.error.inj h
        rw [Bool.and_eq_true, decide_eq_true_eq] at hword
        exact ⟨List.mem_cons_self, hword.1⟩
      · obtain ⟨hmem, hk⟩ := ih h
        exact ⟨List.mem_cons_of_mem u hmem, hk⟩

/-- What a colon tells is told by tokens of the run. -/
def ColonVerdict.Within (ts : List Token) : ColonVerdict → Prop
  | .absent => True
  | .double colon => colon ∈ ts
  | .within passed => passed ⊆ ts

theorem findColon_within {us passed : List Token} {before : Option Token} {depth : Nat} (hpassed : passed ⊆ ts)
    (hus : us ⊆ ts) : (findColon passed before depth us).Within ts := by
  induction us generalizing passed before depth with
  | nil => trivial
  | cons u us ih =>
    obtain ⟨hu, hus⟩ := List.cons_subset.1 hus
    have hmore : u :: passed ⊆ ts := List.cons_subset.2 ⟨hu, hpassed⟩
    rw [findColon.eq_def]
    simp only
    generalize (if u.kind = .openParen then depth + 1 else if u.kind = .closeParen then depth - 1 else depth) = depth'
    split
    · split
      · exact hu
      · split
        · exact ih hmore hus
        · exact hpassed
    · exact ih hmore hus

/-- The fault of a colon is told by a token: where it starts, or behind where its last character starts if a word
misses its semicolon. -/
theorem colonFault?_eq_some {cause : Cause} {offset : Nat} (h : colonFault? ts = some (cause, offset)) :
    cause.Wordless ∧ ∃ t ∈ ts, offset = t.start.getD 0 ∨
      (cause = .missedSemicolon ∧ t.kind = .word ∧ offset = (t.last.map (· + 1)).getD 0) := by
  have hwithin : (findColon [] none 0 ts).Within ts :=
    findColon_within (List.nil_subset ts) (List.Subset.refl ts)
  unfold colonFault? at h
  split at h
  · cases h
  · rename_i colon hfound
    rw [hfound] at hwithin
    obtain ⟨rfl, rfl⟩ := Prod.mk.inj (Option.some.inj h)
    exact ⟨nofun, colon, hwithin, .inl rfl⟩
  · rename_i passed hfound
    rw [hfound] at hwithin
    split at h
    · cases h
    · rename_i t ht
      obtain ⟨rfl, rfl⟩ := Prod.mk.inj (Option.some.inj h)
      have hmem : t ∈ passed := by
        cases hsecond : (passed.filter (!isSpaceToken ·))[1]? with
        | none =>
          rw [hsecond] at ht
          exact List.mem_of_getLast? ht
        | some u =>
          rw [hsecond] at ht
          obtain rfl := Option.some.inj ht
          exact (List.mem_filter.1 (List.mem_of_getElem? hsecond)).1
      refine ⟨nofun, t, hwithin hmem, ?_⟩
      split
      · exact .inr ⟨rfl, ‹_›, rfl⟩
      · exact .inl rfl

end Run
end TaggedStyles
