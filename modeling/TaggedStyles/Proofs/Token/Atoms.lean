import TaggedStyles.Proofs.Token.Holes

/-! Holes are atoms of reading. However many tokens have been read strictly, and whether or not some of the
attempts failed, the next token neither starts nor ends inside a hole, and a token that starts at a hole is
that hole and nothing else. -/
namespace TaggedStyles
set_option autoImplicit false

/-! ## Lexemes at a hole -/

namespace Hole.Proper
variable {text before cs : Text} {holes : List Hole} {h : Hole} {l : Lexeme}

/-- What is read at the start of a hole is a word that ends with its closing brace. -/
theorem reads_hole (hp : Proper text holes) (hh : h ∈ holes) (htext : text = before ++ cs)
    (hstart : before.size = h.start) (hreads : Lexeme.Reads holes false before.size cs l) :
    l.kind = .word ∧ before.size + l.text.size = h.last + 1 ∧ l.text.getLast? = some '\x7d' := by
  obtain ⟨⟨b, rfl⟩, -⟩ := (hp.marked h hh).of_start htext hstart
  have hlast : Hole.lastAt? holes before.size = some h.last := hstart ▸ hp.lastAt?_start hh
  have horder := (hp.marked h hh).order
  cases hreads with
  | spaces hspace => exact absurd hspace (by decide)
  | mark hmark => simp [Lexeme.IsMark] at hmark
  | string hquote => exact absurd hquote (by decide)
  | word _ _ hword =>
    rcases Lexeme.word_cases hword with ⟨last, word, rest, hat, rfl, hcut⟩ | ⟨hnone, -⟩
    · rw [hlast] at hat
      obtain rfl := Option.some.inj hat
      obtain ⟨hsplit, hword⟩ := Text.splitAt?_eq_some.1 hcut
      have hone : ('$' : Char).utf8Size = 1 := by decide
      have hend : before.size + word.size = h.last + 1 := by omega
      -- The hole and the text in front of it end with the brace.
      obtain ⟨u, v, huv, hu⟩ := (hp.marked h hh).closing
      have hbrace : ('\x7d' : Char).utf8Size = 1 := by decide
      rw [htext, hsplit, ← List.append_assoc] at huv
      obtain ⟨hfront, -⟩ := Text.append_inj_of_size (a := before ++ word) (c := u ++ ['\x7d']) (d := v)
        (by rw [huv, List.append_assoc, List.singleton_append])
        (by simp only [Text.size_append, Text.size_cons, Text.size_nil]; omega)
      have hne : word ≠ [] := by
        rintro rfl
        rw [Text.size_nil] at hend
        omega
      have hgetLast := congrArg List.getLast? hfront
      rw [List.getLast?_append, List.getLast?_concat, List.getLast?_eq_some_getLast hne, Option.some_or] at hgetLast
      exact ⟨rfl, hend, by rw [List.getLast?_eq_some_getLast hne]; exact hgetLast⟩
    · rw [hlast] at hnone
      cases hnone

end Hole.Proper

/-! ## Readers -/

namespace Reader

/-- The reader after `n` attempts at a token. A failed attempt may use up a word. -/
def after : Nat → Reader → Reader
  | 0, r => r
  | n + 1, r => after n r.next.2

/-- A reader that has come to a place outside holes without push-back or lenient reading. -/
structure Apart (text : Text) (holes : List Hole) (r : Reader) : Prop where
  holes_eq : r.holes = holes
  strict : r.lenient = false
  returned : r.returned = []
  rest : ∃ before, text = before ++ r.rest ∧ before.size = r.position
  clear : Hole.Clear text holes r.position

variable {text : Text} {holes : List Hole} {r r' : Reader} {t : Token}

theorem next_stays {x : Except Fault (Option Token)} {lenient : Bool} (hr : r.returned = [])
    (h : r.next lenient = (x, r'))
    (hx : ∀ t, x ≠ .ok (some t)) :
    r'.rest = r.rest ∧ r'.position = r.position ∧ r'.holes = r.holes ∧ r'.lenient = r.lenient ∧
      r'.returned = [] := by
  unfold next at h
  rw [hr] at h
  simp only at h
  split at h
  · obtain ⟨-, rfl⟩ := Prod.mk.inj h
    exact ⟨rfl, rfl, rfl, rfl, hr⟩
  · obtain ⟨rfl, -⟩ := Prod.mk.inj h
    exact absurd rfl (hx _)
  all_goals
    obtain ⟨-, rfl⟩ := Prod.mk.inj h
    split
    · exact ⟨rfl, rfl, rfl, rfl, rfl⟩
    · exact ⟨rfl, rfl, rfl, rfl, hr⟩

theorem Apart.start {e : Excerpt} (hp : Hole.Proper e.text holes) : (start e holes).Apart e.text holes :=
  ⟨hp.all_fit, rfl, rfl, ⟨[], rfl, rfl⟩, hp.cuts.front⟩

theorem Apart.next (hp : Hole.Proper text holes) (h : r.Apart text holes) : r.next.2.Apart text holes := by
  obtain ⟨hholes, hstrict, hreturned, ⟨before, htext, hsize⟩, hclear⟩ := h
  rcases hnext : r.next with ⟨x, r'⟩
  by_cases hx : ∃ t, x = .ok (some t)
  · obtain ⟨t, rfl⟩ := hx
    obtain ⟨l, hreads, -, hrest, hposition, hholes', hstrict', hreturned'⟩ := next_some hreturned hnext
    rw [hholes, hstrict, ← hsize] at hreads
    refine ⟨hholes'.trans hholes, hstrict'.trans hstrict, hreturned', ⟨before ++ l.text, ?_, ?_⟩, ?_⟩
    · rw [hrest, List.append_assoc, hreads.append, htext]
    · rw [hposition, Text.size_append, hsize]
    · rw [hposition, ← hsize]
      exact hp.clear_reads htext (hp.free_of_clear (hsize ▸ hclear)) hreads
  · obtain ⟨hrest, hposition, hholes', hstrict', hreturned'⟩ :=
      next_stays hreturned hnext fun t ht => hx ⟨t, ht⟩
    refine ⟨hholes'.trans hholes, hstrict'.trans hstrict, hreturned', ⟨before, ?_, ?_⟩, ?_⟩
    · rw [hrest, htext]
    · rw [hposition, hsize]
    · rw [hposition]
      exact hclear

theorem after_keeps {P : Reader → Prop} (hkeeps : ∀ r, P r → P r.next.2) (n : Nat) (h : P r) : P (after n r) := by
  induction n generalizing r with
  | zero => exact h
  | succ n ih => exact ih (hkeeps r h)

theorem Apart.after (hp : Hole.Proper text holes) (h : r.Apart text holes) (n : Nat) :
    (after n r).Apart text holes := after_keeps (fun _ h => h.next hp) n h

theorem tokenOf_hole {l : Lexeme} {i last : Nat} (hk : l.kind = .word) (hsize : i + l.text.size = last + 1)
    (hlast : l.text.getLast? = some '\x7d') : tokenOf l i = ⟨.word, l.text, some i, some last⟩ := by
  obtain ⟨init, hinit⟩ := List.getLast?_eq_some_iff.1 hlast
  have hbrace : ('\x7d' : Char).utf8Size = 1 := by decide
  have hinitSize : i + Text.size init = last := by
    rw [hinit, Text.size_append, Text.size_cons, hbrace, Text.size_nil] at hsize
    omega
  simp only [tokenOf, hk, Token.ranged, hinit, List.dropLast_concat, hinitSize]

theorem Apart.token_at_hole (hp : Hole.Proper text holes) (hr : r.Apart text holes)
    (hnext : r.next = (.ok (some t), r')) {h : Hole} (hh : h ∈ holes) (hstart : h.start = r.position) :
    t = ⟨.word, t.text, some h.start, some h.last⟩ ∧ r'.position = h.last + 1 := by
  obtain ⟨hholes, hstrict, hreturned, ⟨before, htext, hsize⟩, -⟩ := hr
  obtain ⟨l, hreads, rfl, -, hposition, -, -, -⟩ := next_some hreturned hnext
  rw [hholes, hstrict, ← hsize] at hreads
  obtain ⟨hk, hend, hlast⟩ := hp.reads_hole hh htext (hsize.trans hstart.symm) hreads
  refine ⟨?_, ?_⟩
  · rw [tokenOf_text, hstart]
    exact tokenOf_hole hk (hsize ▸ hend) hlast
  · rw [hposition, ← hsize, hend]

/-- After any number of strict attempts at a token, the next token is a slice of the text, holes lie apart
from its ends, a token that starts at a hole is that hole, and only such a token counts as a hole. -/
theorem next_atomic {e : Excerpt} (hp : Hole.Proper e.text holes) (n : Nat)
    (hr : after n (start e holes) = r) (hnext : r.next = (.ok (some t), r')) :
    e.text.slice? r.position r'.position = some t.text ∧
    (∀ h ∈ holes, ¬(h.start < r.position ∧ r.position ≤ h.last) ∧
      ¬(h.start < r'.position ∧ r'.position ≤ h.last)) ∧
    (∀ h ∈ holes, h.start = r.position → t = ⟨.word, t.text, some h.start, some h.last⟩ ∧
      r'.position = h.last + 1 ∧ r'.isHole t = true) ∧
    (r'.isHole t = true → ∃ h ∈ holes, (h.start = r.position ∧ h.last + 1 = r'.position) ∧
      ∀ g ∈ holes, g.start = r.position → g = h) := by
  have hapart : r.Apart e.text holes := hr ▸ (Apart.start hp).after hp n
  have hapart' : r'.Apart e.text holes := by
    have hafter := hapart.next hp
    rwa [hnext] at hafter
  have hwhole : ∀ {p : Nat}, Hole.Clear e.text holes p → ∀ h ∈ holes, ¬(h.start < p ∧ p ≤ h.last) := by
    intro p hclear h hh ⟨hlt, hle⟩
    have hover := hclear.whole h hh hlt
    omega
  have hat : ∀ h ∈ holes, h.start = r.position → t = ⟨.word, t.text, some h.start, some h.last⟩ ∧
      r'.position = h.last + 1 ∧ r'.isHole t = true := by
    intro h hh hstart
    obtain ⟨ht, hposition⟩ := hapart.token_at_hole hp hnext hh hstart
    refine ⟨ht, hposition, ?_⟩
    rw [ht, isHole, hapart'.holes_eq]
    simp [Token.isHole, hp.lastAt?_start hh]
  refine ⟨?_, fun h hh => ⟨hwhole hapart.clear h hh, hwhole hapart'.clear h hh⟩, hat, fun hhole => ?_⟩
  · obtain ⟨before, htext, hsize⟩ := hapart.rest
    obtain ⟨l, hreads, rfl, -, hposition, -, -, -⟩ := next_some hapart.returned hnext
    rw [Text.slice?_eq_some]
    exact ⟨before, l.rest, by rw [tokenOf_text, List.append_assoc, hreads.append, htext], hsize,
      by rw [tokenOf_text, hposition]⟩
  · obtain ⟨l, -, rfl, -, -, -, -, -⟩ := next_some hapart.returned hnext
    rw [isHole, hapart'.holes_eq, Token.isHole, Bool.and_eq_true, decide_eq_true_eq] at hhole
    obtain ⟨hk, hlast⟩ := hhole
    rw [tokenOf_kind] at hk
    rw [tokenOf_start, hk, if_neg (by decide), Option.bind_some] at hlast
    split at hlast
    · rename_i last hl
      obtain ⟨h, hh, hstart, -⟩ := Hole.lastAt?_eq_some hl
      refine ⟨h, hh, ⟨hstart, (hat h hh hstart).2.1.symm⟩, fun g hg hgs => ?_⟩
      have horder := (hp.marked h hh).order
      have horder' := (hp.marked g hg).order
      exact hp.eq_of_meet hg hh (by omega) (by omega)
    · cases hlast

/-- Quotes, marks, a line break and a closing brace of its own do not end a hole. -/
theorem next_atomic_body :
    ∃ r', (after 2 (start ⟨"a:$\x7b'*/\x7d\"\n(\x7d;".toList, Position.front, none⟩ [⟨2, 11⟩])).next =
        (.ok (some ⟨.word, "$\x7b'*/\x7d\"\n(\x7d".toList, some 2, some 11⟩), r') ∧
      r'.position = 12 ∧ r'.isHole ⟨.word, "$\x7b'*/\x7d\"\n(\x7d".toList, some 2, some 11⟩ = true := by
  have htoken : (after 2 (start ⟨"a:$\x7b'*/\x7d\"\n(\x7d;".toList, Position.front, none⟩ [⟨2, 11⟩])).next.1 =
      .ok (some ⟨.word, "$\x7b'*/\x7d\"\n(\x7d".toList, some 2, some 11⟩) := by decide +kernel
  have hatomic := next_atomic (e := ⟨"a:$\x7b'*/\x7d\"\n(\x7d;".toList, Position.front, none⟩)
    (by decide +kernel) 2 rfl (Prod.ext htoken rfl)
  exact ⟨_, Prod.ext htoken rfl, (hatomic.2.2.1 ⟨2, 11⟩ List.mem_cons_self (by decide +kernel)).2⟩

end Reader
end TaggedStyles
