/-! Text and byte offsets. A text is its list of characters; every offset in this library counts the
UTF-8 bytes in front of a place, so sizes add over appending and a place inside a character is no
place to cut. -/
namespace TaggedStyles
set_option autoImplicit false

abbrev Text := List Char

namespace Text

/-! ## Sizes and cuts -/

/-- Number of bytes of the UTF-8 form. -/
def size : Text → Nat
  | [] => 0
  | c :: cs => c.utf8Size + size cs

@[simp] theorem size_nil : size [] = 0 := rfl

@[simp] theorem size_cons (c : Char) (cs : Text) : size (c :: cs) = c.utf8Size + size cs := rfl

@[simp] theorem size_append (a b : Text) : size (a ++ b) = size a + size b := by
  induction a with
  | nil => simp
  | cons c cs ih => simp [ih, Nat.add_assoc]

/-- Cut after `n` bytes. There is no cut inside a character or past the end. -/
def splitAt? : Text → Nat → Option (Text × Text)
  | cs, 0 => some ([], cs)
  | [], _ + 1 => none
  | c :: cs, n + 1 =>
    if n + 1 < c.utf8Size then none
    else (splitAt? cs (n + 1 - c.utf8Size)).map fun cut => (c :: cut.1, cut.2)

/-- The text from byte `start` up to byte `stop`, if both are character boundaries in this order. -/
def slice? (t : Text) (start stop : Nat) : Option Text :=
  if stop < start then none
  else do
    let (_, tail) ← splitAt? t start
    let (middle, _) ← splitAt? tail (stop - start)
    return middle

/-- The text from byte `start` on, if that is a character boundary. -/
def suffix? (t : Text) (start : Nat) : Option Text :=
  (splitAt? t start).map (·.2)

theorem append_of_splitAt? {t a b : Text} {n : Nat} (h : splitAt? t n = some (a, b)) :
    t = a ++ b ∧ size a = n := by
  fun_induction splitAt? t n generalizing a b with
  | case1 cs => simp_all
  | case2 n => simp at h
  | case3 c cs n hc => simp at h
  | case4 c cs n hc ih =>
    obtain ⟨⟨x, y⟩, hxy, he⟩ := Option.map_eq_some_iff.1 h
    obtain ⟨rfl, rfl⟩ := Prod.mk.inj he
    obtain ⟨hcs, hx⟩ := ih hxy
    subst hcs
    refine ⟨rfl, ?_⟩
    simp only [size_cons, hx]
    omega

theorem splitAt?_append (a b : Text) : splitAt? (a ++ b) (size a) = some (a, b) := by
  induction a with
  | nil => simp [splitAt?]
  | cons c cs ih =>
    have hc := c.utf8Size_pos
    obtain ⟨k, hk⟩ : ∃ k, size (c :: cs) = k + 1 := ⟨size (c :: cs) - 1, by simp only [size_cons]; omega⟩
    have hrest : k + 1 - c.utf8Size = size cs := by simp only [size_cons] at hk; omega
    have hlt : ¬ k + 1 < c.utf8Size := by simp only [size_cons] at hk; omega
    rw [hk]
    simp [splitAt?, hlt, hrest, ih]

/-! ## Searching -/

/-- Whether `part` occurs in the text. -/
def includes : Text → (part : Text) → Bool
  | [], part => part.isEmpty
  | c :: cs, part => part.isPrefixOf (c :: cs) || includes cs part

/-- Replace the first occurrence of `old`. The empty text occurs at the front. -/
def replaceFirst : Text → (old new : Text) → Text
  | [], old, new => if old.isEmpty then new else []
  | c :: cs, old, new =>
    if old.isPrefixOf (c :: cs) then new ++ (c :: cs).drop old.length
    else c :: replaceFirst cs old new

/-- What stands after the last `c`; the whole text if there is none. -/
def afterLast (c : Char) (t : Text) : Text :=
  (t.reverse.takeWhile (· != c)).reverse

/-- The text up to and including the last `c`; the whole text if there is none. -/
def throughLast (c : Char) (t : Text) : Text :=
  if c ∈ t then t.take (t.length - (afterLast c t).length) else t

/-- `n` copies in a row. -/
def times (t : Text) (n : Nat) : Text :=
  (List.replicate n t).flatten

end Text
end TaggedStyles
