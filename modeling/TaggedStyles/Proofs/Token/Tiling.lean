import TaggedStyles.Token.Reader
import TaggedStyles.Proofs.Token.Lexeme

/-! Strict reading tiles a text: each token stands right behind the one before it and starts where its
offset says. `Tiled` also keeps account of the places where the text is cut, for any property of places
that reading preserves (`Cuts`). -/
namespace TaggedStyles
set_option autoImplicit false

/-! ## Tokens in their places -/

/-- Places of a text that reading only leaves for others like them. A star or an underscore in front of a
property name counts as a place of its own. -/
structure Cuts (text : Text) (holes : List Hole) (cut : Nat → Prop) : Prop where
  front : cut 0
  lexeme : ∀ {before cs : Text} {l : Lexeme}, text = before ++ cs → cut before.size →
    Lexeme.Reads holes false before.size cs l → cut (before.size + l.text.size)
  hack : ∀ {before cs : Text} {c : Char}, text = before ++ c :: cs → c = '_' ∨ c = '*' → cut before.size →
    cut (before.size + 1)

theorem Cuts.trivial (text : Text) (holes : List Hole) : Cuts text holes fun _ => True :=
  ⟨True.intro, fun _ _ _ => True.intro, fun _ _ _ => True.intro⟩

/-- A token as it is read at offset `i`. -/
structure Token.Fits (cut : Nat → Prop) (i : Nat) (t : Token) : Prop where
  text_ne_nil : t.text ≠ []
  start : t.start = if t.kind = .space then none else some i
  spells : Lexeme.Spells t.kind t.text
  hack : ∀ c ∈ t.text.head?, c = '_' ∨ c = '*' → cut (i + 1)

/-- Tokens one behind the other from offset `i` on, never two of spaces in a row. -/
def Tiled (cut : Nat → Prop) : Nat → List Token → Prop
  | i, [] => cut i
  | i, t :: ts =>
    cut i ∧ t.Fits cut i ∧ (t.kind = .space → ∀ u ∈ ts.head?, u.kind ≠ .space) ∧ Tiled cut (i + t.text.size) ts

theorem Token.joined_cons (t : Token) (ts : List Token) :
    Token.joined (t :: ts) = t.text ++ Token.joined ts := rfl

theorem Token.joined_append (ts us : List Token) :
    Token.joined (ts ++ us) = Token.joined ts ++ Token.joined us := by
  simp [Token.joined]

@[simp] theorem Token.joined_nil : Token.joined [] = [] := rfl

namespace Tiled
variable {cut : Nat → Prop} {i : Nat} {t : Token} {ts us : List Token}

theorem cut_start (h : Tiled cut i ts) : cut i := by
  cases ts with
  | nil => exact h
  | cons t ts => exact h.1

theorem fits (h : Tiled cut i (t :: ts)) : t.Fits cut i := h.2.1

theorem tail (h : Tiled cut i (t :: ts)) : Tiled cut (i + t.text.size) ts := h.2.2.2

theorem right (h : Tiled cut i (ts ++ us)) : Tiled cut (i + (Token.joined ts).size) us := by
  induction ts generalizing i with
  | nil => simpa using h
  | cons t ts ih =>
    have h1 := ih h.tail
    rwa [Token.joined_cons, Text.size_append, ← Nat.add_assoc]

theorem left (h : Tiled cut i (ts ++ us)) : Tiled cut i ts := by
  induction ts generalizing i with
  | nil => exact h.cut_start
  | cons t ts ih =>
    refine ⟨h.1, h.fits, fun hk u hu => h.2.2.1 hk u ?_, ih h.tail⟩
    cases ts with
    | nil => simp at hu
    | cons v ts => exact hu

theorem text_ne_nil (h : Tiled cut i ts) : ∀ u ∈ ts, u.text ≠ [] := by
  induction ts generalizing i with
  | nil => simp
  | cons t ts ih =>
    intro u hu
    rcases List.mem_cons.1 hu with rfl | hu
    · exact h.fits.text_ne_nil
    · exact ih h.tail u hu

end Tiled

/-! ## Reading -/

namespace Reader

theorem tokenOf_kind (l : Lexeme) (i : Nat) : (tokenOf l i).kind = l.kind := by
  unfold tokenOf
  split <;> simp_all [Token.space, Token.ranged]

theorem tokenOf_text (l : Lexeme) (i : Nat) : (tokenOf l i).text = l.text := by
  unfold tokenOf
  split <;> rfl

theorem tokenOf_start (l : Lexeme) (i : Nat) :
    (tokenOf l i).start = if l.kind = .space then none else some i := by
  unfold tokenOf
  split <;> simp_all [Token.space, Token.ranged]

theorem eq_nil_of_first_none {holes : List Hole} {lenient : Bool} {word : Text} {i : Nat} {cs : Text}
    (h : Lexeme.first holes lenient word i cs = .ok none) : cs = [] := by
  cases cs with
  | nil => rfl
  | cons c cs =>
    have hmap : ∀ x : Except Blocked Lexeme, some <$> x ≠ .ok none := by
      intro x hx
      cases x <;> simp [Functor.map, Except.map] at hx
    simp only [Lexeme.first] at h
    repeat' split at h
    all_goals first
      | exact absurd h (hmap _)
      | simp at h

/-- The reader with the words that its first character leaves. -/
def used (r : Reader) : Reader := if r.rest.head? = some '(' then { r with words := r.words.tail } else r

theorem used_keeps (r : Reader) : r.used.excerpt = r.excerpt ∧ r.used.holes = r.holes ∧ r.used.lenient = r.lenient ∧
    r.used.position = r.position ∧ r.used.returned = r.returned := by
  unfold used
  split <;> exact ⟨rfl, rfl, rfl, rfl, rfl⟩

theorem next_eq {r : Reader} {lenient : Bool} (hr : r.returned = []) :
    r.next lenient = match Lexeme.first r.holes (r.lenient || lenient) (r.words.headD []) r.position r.rest with
      | .ok none => (.ok none, r)
      | .ok (some l) => (.ok (some (tokenOf l r.position)), r.used.advance l)
      | .error (.unclosed cause) => (.error (.style (r.excerpt.error cause r.position)), r.used)
      | .error (.split offset) => (.error (.splitCharacter offset), r.used) := by
  unfold Reader.next
  split
  · rename_i t ts hreturned
    rw [hr] at hreturned
    cases hreturned
  · rfl

theorem next_keeps (r : Reader) (lenient : Bool) : (r.next lenient).2.excerpt = r.excerpt ∧
    (r.next lenient).2.holes = r.holes ∧ (r.next lenient).2.lenient = r.lenient := by
  cases hreturned : r.returned with
  | cons t ts =>
    unfold Reader.next
    rw [hreturned]
    exact ⟨rfl, rfl, rfl⟩
  | nil =>
    obtain ⟨hexcerpt, hholes, hoption, -, -⟩ := r.used_keeps
    rw [next_eq hreturned]
    split
    · exact ⟨rfl, rfl, rfl⟩
    all_goals exact ⟨hexcerpt, hholes, hoption⟩

/-- A token that is read without push-back is the lexeme at the front of the rest. -/
theorem next_token {r r' : Reader} {t : Token} {lenient : Bool} (hr : r.returned = [])
    (h : r.next lenient = (.ok (some t), r')) :
    ∃ l, Lexeme.Reads r.holes (r.lenient || lenient) r.position r.rest l ∧ t = tokenOf l r.position ∧
      r'.rest = l.rest ∧ r'.position = r.position + l.text.size ∧ r'.holes = r.holes ∧
      r'.lenient = r.lenient ∧ r'.returned = [] := by
  unfold next at h
  rw [hr] at h
  simp only at h
  split at h
  · simp at h
  · rename_i l hl
    obtain ⟨ht, rfl⟩ := Prod.mk.inj h
    refine ⟨l, Lexeme.reads_of_first hl, (Option.some.inj (Except.ok.inj ht)).symm, ?_⟩
    split
    · exact ⟨rfl, rfl, rfl, rfl, rfl⟩
    · exact ⟨rfl, rfl, rfl, rfl, hr⟩
  · simp at h
  · simp at h

theorem next_some {r r' : Reader} {t : Token} (hr : r.returned = []) (h : r.next = (.ok (some t), r')) :
    ∃ l, Lexeme.Reads r.holes r.lenient r.position r.rest l ∧ t = tokenOf l r.position ∧
      r'.rest = l.rest ∧ r'.position = r.position + l.text.size ∧ r'.holes = r.holes ∧
      r'.lenient = r.lenient ∧ r'.returned = [] := by
  have hnext := next_token hr h
  rwa [Bool.or_false] at hnext

theorem next_none {r r' : Reader} {lenient : Bool} (hr : r.returned = []) (h : r.next lenient = (.ok none, r')) :
    r.rest = [] := by
  unfold next at h
  rw [hr] at h
  simp only at h
  split at h
  · rename_i hl
    exact eq_nil_of_first_none hl
  · simp at h
  · simp at h
  · simp at h

theorem of_mem_take {n : Nat} {r : Reader} {t : Token} (hr : r.returned = []) (h : t ∈ (take n r).1) :
    ∃ i cs l, Lexeme.Reads r.holes r.lenient i cs l ∧ t = tokenOf l i := by
  induction n generalizing r with
  | zero => cases h
  | succ n ih =>
    rw [take] at h
    split at h
    · rename_i u r' hnext
      obtain ⟨l, hreads, rfl, -, -, hholes, hlenient, hr'⟩ := next_some hr hnext
      cases List.mem_cons.1 h with
      | inl h => exact ⟨_, _, l, hreads, h⟩
      | inr h =>
        rw [← hholes, ← hlenient]
        exact ih hr' h
    · cases h
    · cases h

/-- The tokens that a strict reader takes tile what it reads, and without a fault they are all there is. -/
theorem take_tiled {text : Text} {holes : List Hole} {cut : Nat → Prop} (hcuts : Cuts text holes cut)
    (n : Nat) (r : Reader) (before : Text) (hr : r.returned = []) (hstrict : r.lenient = false)
    (hholes : r.holes = holes) (htext : text = before ++ r.rest) (hpos : before.size = r.position)
    (hcut : cut r.position) :
    Tiled cut r.position (take n r).1 ∧
    (∀ t ∈ (take n r).1.head?, t.kind = .space → ∃ c ∈ r.rest.head?, isSpace c = true) ∧
    ∃ rest, r.rest = Token.joined (take n r).1 ++ rest ∧
      ((take n r).2.1 = none → r.rest.length < n → rest = []) := by
  induction n generalizing r before with
  | zero => exact ⟨hcut, by simp [take], r.rest, by simp [take], fun _ h => by omega⟩
  | succ n ih =>
    rw [take]
    split
    · rename_i t r' hnext
      obtain ⟨l, hreads, rfl, hrest, hpos', hholes', hstrict', hr'⟩ := next_some hr hnext
      rw [hholes, hstrict] at hreads
      have happ := hreads.append
      have hne := hreads.text_ne_nil
      have hlen : r.rest.length = l.text.length + l.rest.length := by rw [← happ, List.length_append]
      have hlpos : 0 < l.text.length := List.length_pos_iff.2 hne
      have hcut' : cut r'.position := by
        rw [hpos', ← hpos]
        exact hcuts.lexeme htext (hpos ▸ hcut) (hpos ▸ hreads)
      obtain ⟨htiled, hhead, rest, hjoin, hall⟩ := ih r' (before ++ l.text) hr'
        (hstrict'.trans hstrict) (hholes'.trans hholes) (by rw [hrest, htext, ← happ, List.append_assoc])
        (by rw [Text.size_append, hpos, hpos']) hcut'
      simp only
      refine ⟨⟨hcut, ⟨?_, ?_, ?_, ?_⟩, ?_, ?_⟩, ?_, rest, ?_, ?_⟩
      · rwa [tokenOf_text]
      · rw [tokenOf_start, tokenOf_kind]
      · rw [tokenOf_kind, tokenOf_text]
        exact hreads.spells
      · intro c hc hhack
        rw [tokenOf_text] at hc
        obtain ⟨more, hmore⟩ : ∃ more, l.text = c :: more := List.head?_eq_some_iff.1 hc
        rw [← hpos]
        have hcs : text = before ++ c :: (more ++ l.rest) := by rw [htext, ← happ, hmore, List.cons_append]
        exact hcuts.hack hcs hhack (hpos ▸ hcut)
      · intro hk u hu hku
        rw [tokenOf_kind] at hk
        obtain ⟨c, hc, hspace⟩ := hhead u hu hku
        rw [hrest] at hc
        simp [hreads.rest_of_space hk c hc] at hspace
      · rw [tokenOf_text, ← hpos']
        exact htiled
      · intro t ht hk
        obtain rfl := Option.some.inj ht
        rw [tokenOf_kind] at hk
        rcases hcs : r.rest with _ | ⟨c, cs⟩
        · rw [hcs] at hlen
          simp only [List.length_nil] at hlen
          omega
        · rw [hcs] at hreads
          exact ⟨c, rfl, hreads.kind_eq_space.1 hk⟩
      · rw [Token.joined_cons, tokenOf_text, List.append_assoc, ← hjoin, hrest, happ]
      · intro hfault hfuel
        refine hall hfault ?_
        rw [hrest]
        omega
    · rename_i r' hnext
      refine ⟨hcut, by simp, [], ?_, fun _ _ => rfl⟩
      simpa using next_none hr hnext
    · exact ⟨hcut, by simp, r.rest, by simp, fun h => by simp at h⟩

/-- What strict reading of an excerpt gives, from its front to the end or to the first fault. -/
theorem drain_tiled {e : Excerpt} {holes : List Hole} {cut : Nat → Prop}
    (hcuts : Cuts e.text (holes.filter (Hole.fits e.text.size)) cut) :
    Tiled cut 0 (start e holes).drain.1 ∧
    ∃ rest, e.text = Token.joined (start e holes).drain.1 ++ rest ∧
      ((start e holes).drain.2.1 = none → rest = []) := by
  obtain ⟨htiled, -, rest, hjoin, hall⟩ := take_tiled hcuts ((start e holes).returned.length +
    (start e holes).rest.length + 1) (start e holes) [] rfl rfl rfl rfl rfl hcuts.front
  refine ⟨htiled, rest, hjoin, fun hfault => hall hfault ?_⟩
  simp [start]

end Reader
end TaggedStyles
