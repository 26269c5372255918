import Mathlib.Data.List.Induction
import TaggedStyles.Proofs.Token.Holes

/-! Outlines of style texts: the text outside the holes with the places of the holes, but not what stands in
their braces. Filling an outline with bodies gives a text and its holes; all texts that agree outside their
holes are fillings of one outline. -/
namespace TaggedStyles
set_option autoImplicit false

/-- What a hole with some text in its braces looks like. -/
def Hole.written (body : Text) : Text := '$' :: '\x7b' :: (body ++ ['\x7d'])

theorem Hole.size_written (body : Text) : (Hole.written body).size = body.size + 3 := by
  have hdollar : ('$' : Char).utf8Size = 1 := by decide
  have hopen : ('\x7b' : Char).utf8Size = 1 := by decide
  have hclose : ('\x7d' : Char).utf8Size = 1 := by decide
  simp only [Hole.written, Text.size_cons, Text.size_append, Text.size_nil, hdollar, hopen, hclose]
  omega

/-- A character outside holes, or the hole with number `n`. -/
inductive Cell where
  | char (c : Char)
  | hole (n : Nat)
deriving DecidableEq

abbrev Outline := List Cell

namespace Cell

def text (bodies : Nat → Text) : Cell → Text
  | char c => [c]
  | hole n => Hole.written (bodies n)

/-- The character that the text of a cell starts with, whatever the bodies are. -/
def first : Cell → Char
  | char c => c
  | hole _ => '$'

end Cell

namespace Outline

/-! ## Filling -/

def fill (bodies : Nat → Text) (o : Outline) : Text := o.flatMap (Cell.text bodies)

/-- An outline without holes. -/
def plain (t : Text) : Outline := t.map Cell.char

variable {bodies : Nat → Text} {o p : Outline} {c : Char} {n i : Nat} {t : Text}

@[simp] theorem fill_nil : fill bodies [] = [] := rfl

@[simp] theorem fill_char : fill bodies (.char c :: o) = c :: fill bodies o := rfl

@[simp] theorem fill_hole : fill bodies (.hole n :: o) = Hole.written (bodies n) ++ fill bodies o := rfl

@[simp] theorem fill_append : fill bodies (o ++ p) = fill bodies o ++ fill bodies p := List.flatMap_append

@[simp] theorem fill_plain : fill bodies (plain t) = t := by
  induction t with
  | nil => rfl
  | cons c cs ih => exact congrArg (c :: ·) ih

theorem fill_eq_nil : fill bodies o = [] ↔ o = [] := by
  cases o with
  | nil => simp
  | cons x o => cases x <;> simp [Hole.written]

theorem head?_fill : (fill bodies o).head? = o.head?.map Cell.first := by
  cases o with
  | nil => rfl
  | cons x o => cases x <;> rfl

theorem head?_fill_eq_some (hc : c ≠ '$') : (fill bodies o).head? = some c ↔ o.head? = some (.char c) := by
  rw [head?_fill]
  cases o with
  | nil => simp
  | cons x o =>
    cases x with
    | char d => simp [Cell.first]
    | hole n => simpa [Cell.first] using hc.symm

theorem fill_eq_iff (ht : '$' ∉ t) : fill bodies o = t ↔ o = plain t := by
  constructor
  · intro h
    induction o generalizing t with
    | nil => rw [← h]; rfl
    | cons x o ih =>
      subst h
      cases x with
      | char c => exact congrArg (Cell.char c :: ·) (ih (fun hmem => ht (List.mem_cons_of_mem c hmem)) rfl)
      | hole n => simp [Hole.written] at ht
  · rintro rfl
    exact fill_plain

/-- A run of characters of a class that no dollar sign is in ends at the same place however the outline is
filled. -/
theorem span_fill (q : Char → Bool) (hq : q '$' = false) (o : Outline) :
    ∃ t rest, o = plain t ++ rest ∧ (∀ c ∈ t, q c = true) ∧ (∀ x ∈ rest.head?, q x.first = false) ∧
      ∀ bodies, (fill bodies o).takeWhile q = t ∧ (fill bodies o).dropWhile q = fill bodies rest := by
  induction o with
  | nil => exact ⟨[], [], rfl, by simp, by simp, fun _ => ⟨rfl, rfl⟩⟩
  | cons x o ih =>
    by_cases hx : q x.first = true
    · cases x with
      | char c =>
        obtain ⟨t, rest, rfl, ht, hrest, hspan⟩ := ih
        have hc : q c = true := hx
        refine ⟨c :: t, rest, rfl, by simpa [hc] using ht, hrest, fun bodies => ?_⟩
        obtain ⟨htake, hdrop⟩ := hspan bodies
        rw [fill_char, List.takeWhile_cons_of_pos hc, List.dropWhile_cons_of_pos hc, htake, hdrop]
        exact ⟨rfl, rfl⟩
      | hole n => rw [Cell.first, hq] at hx; cases hx
    · have hx : q x.first = false := by simpa using hx
      refine ⟨[], x :: o, rfl, by simp, by simpa using hx, fun bodies => ?_⟩
      have hhead : (fill bodies (x :: o)).head? = some x.first := head?_fill
      obtain ⟨more, hmore⟩ := List.head?_eq_some_iff.1 hhead
      rw [hmore, List.takeWhile_cons_of_neg (by simp [hx]), List.dropWhile_cons_of_neg (by simp [hx])]
      exact ⟨rfl, rfl⟩

/-! ## Holes -/

/-- The holes of a filled outline that starts at offset `i`. -/
def holesFrom (bodies : Nat → Text) : (i : Nat) → Outline → List Hole
  | _, [] => []
  | i, .char c :: o => holesFrom bodies (i + c.utf8Size) o
  | i, .hole n :: o => ⟨i, i + (bodies n).size + 2⟩ :: holesFrom bodies (i + ((bodies n).size + 3)) o

/-- Where a filled outline starts at offset `i`, holes are found at its holes and at no other place outside
them. -/
def Places (bodies : Nat → Text) (holes : List Hole) : (i : Nat) → Outline → Prop
  | _, [] => True
  | i, .char c :: o =>
    (∀ j, i ≤ j → j < i + c.utf8Size → Hole.lastAt? holes j = none) ∧ Places bodies holes (i + c.utf8Size) o
  | i, .hole n :: o =>
    Hole.lastAt? holes i = some (i + (bodies n).size + 2) ∧ Places bodies holes (i + ((bodies n).size + 3)) o

variable {holes : List Hole}

theorem places_append :
    Places bodies holes i (o ++ p) ↔ Places bodies holes i o ∧ Places bodies holes (i + (fill bodies o).size) p := by
  induction o generalizing i with
  | nil => simp [Places]
  | cons x o ih =>
    cases x with
    | char c => simp only [List.cons_append, Places, ih, fill_char, Text.size_cons, and_assoc, Nat.add_assoc]
    | hole n =>
      simp only [List.cons_append, Places, ih, fill_hole, Text.size_append, Hole.size_written, and_assoc, Nat.add_assoc]

theorem bounds_of_mem_holesFrom {h : Hole} (hmem : h ∈ holesFrom bodies i o) :
    i ≤ h.start ∧ h.start ≤ h.last ∧ h.last < i + (fill bodies o).size := by
  induction o generalizing i with
  | nil => cases hmem
  | cons x o ih =>
    cases x with
    | char c =>
      obtain ⟨hstart, horder, hlast⟩ := ih hmem
      rw [fill_char, Text.size_cons]
      omega
    | hole n =>
      rw [fill_hole, Text.size_append, Hole.size_written]
      cases List.mem_cons.1 hmem with
      | inl heq =>
        subst heq
        simp only
        omega
      | inr hmem =>
        obtain ⟨hstart, horder, hlast⟩ := ih hmem
        omega

/-- The holes of a filling are in their places, in whatever order they are listed. -/
theorem places_of_mem_iff (before : List Hole) (hmem : ∀ h, h ∈ holes ↔ h ∈ before ++ holesFrom bodies i o)
    (hbefore : ∀ h ∈ before, h.start < i) : Places bodies holes i o := by
  induction o generalizing i before with
  | nil => trivial
  | cons x o ih =>
    cases x with
    | char c =>
      refine ⟨fun j hle hlt => ?_, ih before hmem fun h hh => Nat.lt_of_lt_of_le (hbefore h hh) (Nat.le_add_right ..)⟩
      cases hl : Hole.lastAt? holes j with
      | none => rfl
      | some last =>
        obtain ⟨h, hh, rfl, -⟩ := Hole.lastAt?_eq_some hl
        cases List.mem_append.1 ((hmem h).1 hh) with
        | inl hh =>
          have hfront := hbefore h hh
          omega
        | inr hh =>
          have hbounds := bounds_of_mem_holesFrom (o := o) hh
          omega
    | hole n =>
      refine ⟨?_, ih (before ++ [⟨i, i + (bodies n).size + 2⟩]) ?_ ?_⟩
      · refine Hole.lastAt?_of_unique (h := ⟨i, i + (bodies n).size + 2⟩) ((hmem _).2 (by simp [holesFrom])) ?_
        intro g hg hstart
        cases List.mem_append.1 ((hmem g).1 hg) with
        | inl hg =>
          have hfront := hbefore g hg
          simp only at hstart
          omega
        | inr hg =>
          cases List.mem_cons.1 hg with
          | inl heq => exact heq
          | inr hg =>
            have hbounds := bounds_of_mem_holesFrom hg
            simp only at hstart
            omega
      · intro h
        rw [hmem h, holesFrom, List.append_assoc, List.singleton_append]
      · intro h hh
        cases List.mem_append.1 hh with
        | inl hh => exact Nat.lt_of_lt_of_le (hbefore h hh) (Nat.le_add_right ..)
        | inr hh =>
          rw [List.mem_singleton.1 hh]
          simp only
          omega

/-! ## Escapes -/

/-- No hole is escaped: in front of each one stands an even number of backslashes. -/
def Unescaped (o : Outline) : Prop :=
  ∀ front n back, o = front ++ .hole n :: back →
    (front.reverse.takeWhile (· == .char '\\')).length % 2 = 0

/-- Whether an odd run of backslashes stands behind an outline, when `odd` says so for its front. -/
def oddAfter : (odd : Bool) → Outline → Bool
  | odd, [] => odd
  | odd, .char c :: o => oddAfter (c == '\\' && !odd) o
  | _, .hole _ :: o => oddAfter false o

theorem oddAfter_append (odd : Bool) (o p : Outline) : oddAfter odd (o ++ p) = oddAfter (oddAfter odd o) p := by
  induction o generalizing odd with
  | nil => rfl
  | cons x o ih => cases x <;> exact ih _

theorem oddAfter_of_last {odd : Bool} {x : Cell} (hlast : o.getLast? = some x) (hx : x ≠ .char '\\') :
    oddAfter odd o = false := by
  obtain ⟨init, rfl⟩ := List.getLast?_eq_some_iff.1 hlast
  rw [oddAfter_append]
  cases x with
  | char c =>
    have hc : (c == '\\') = false := by simpa using hx
    simp [oddAfter, hc]
  | hole n => rfl

/-- The same by recursion: `odd` says whether an odd run of backslashes came before. -/
def UnescapedFrom : (odd : Bool) → Outline → Prop
  | _, [] => True
  | odd, .char c :: o => UnescapedFrom (c == '\\' && !odd) o
  | odd, .hole _ :: o => odd = false ∧ UnescapedFrom false o

instance decidableUnescapedFrom : (odd : Bool) → (o : Outline) → Decidable (UnescapedFrom odd o)
  | _, [] => inferInstanceAs (Decidable True)
  | odd, .char c :: o => decidableUnescapedFrom (c == '\\' && !odd) o
  | odd, .hole _ :: o =>
    have := decidableUnescapedFrom false o
    inferInstanceAs (Decidable (odd = false ∧ UnescapedFrom false o))

theorem unescapedFrom_append {odd : Bool} :
    UnescapedFrom odd (o ++ p) ↔ UnescapedFrom odd o ∧ UnescapedFrom (oddAfter odd o) p := by
  induction o generalizing odd with
  | nil => simp [UnescapedFrom, oddAfter]
  | cons x o ih =>
    cases x with
    | char c => exact ih
    | hole n => simp only [List.cons_append, UnescapedFrom, oddAfter, ih, and_assoc]

theorem unescapedFrom_iff {odd : Bool} :
    UnescapedFrom odd o ↔ ∀ front n back, o = front ++ .hole n :: back → oddAfter odd front = false := by
  induction o generalizing odd with
  | nil => simp [UnescapedFrom]
  | cons x o ih =>
    cases x with
    | char c =>
      rw [UnescapedFrom, ih]
      constructor
      · intro h front n back heq
        cases front with
        | nil => cases heq
        | cons y front =>
          obtain ⟨rfl, rfl⟩ := List.cons.inj heq
          exact h front n back rfl
      · intro h front n back heq
        exact h (.char c :: front) n back (by rw [heq, List.cons_append])
    | hole m =>
      rw [UnescapedFrom, ih]
      constructor
      · rintro ⟨hodd, h⟩ front n back heq
        cases front with
        | nil => exact hodd
        | cons y front =>
          obtain ⟨rfl, rfl⟩ := List.cons.inj heq
          exact h front n back rfl
      · intro h
        refine ⟨h [] m o rfl, fun front n back heq => ?_⟩
        exact h (.hole m :: front) n back (by rw [heq, List.cons_append])

theorem oddAfter_eq (o : Outline) :
    oddAfter false o = decide ((o.reverse.takeWhile (· == .char '\\')).length % 2 = 1) := by
  induction o using List.reverseRecOn with
  | nil => rfl
  | append_singleton init x ih =>
    by_cases hx : x = .char '\\'
    · rw [hx, oddAfter_append, ih, List.reverse_append]
      simp only [oddAfter, List.reverse_singleton, List.singleton_append, List.takeWhile_cons, beq_self_eq_true,
        Bool.true_and, if_true, List.length_cons, ← decide_not, decide_eq_decide]
      omega
    · have hbeq : (x == .char '\\') = false := by simpa using hx
      rw [oddAfter_of_last List.getLast?_concat hx, List.reverse_append]
      simp [hbeq]

theorem unescaped_iff : o.Unescaped ↔ UnescapedFrom false o := by
  rw [unescapedFrom_iff]
  unfold Unescaped
  simp only [oddAfter_eq, decide_eq_false_iff_not, Nat.mod_two_not_eq_one]

instance (o : Outline) : Decidable o.Unescaped := decidable_of_iff _ unescaped_iff.symm

/-! ## All texts with holes -/

/-- The body of the hole that starts at a place of a text. -/
def bodyAt (text : Text) (holes : List Hole) (start : Nat) : Text :=
  match Hole.lastAt? holes start with
  | some last => (text.slice? (start + 2) last).getD []
  | none => []

section
variable {text before cs : Text}

theorem split_hole {h : Hole} (hp : Hole.Proper text holes) (hh : h ∈ holes) (htext : text = before ++ cs)
    (hstart : h.start = before.size) :
    ∃ rest, cs = Hole.written (bodyAt text holes h.start) ++ rest ∧
      h.last = h.start + (bodyAt text holes h.start).size + 2 := by
  obtain ⟨a, b, ha, hsize, -⟩ := (hp.marked h hh).opening
  obtain ⟨u, v, hu, hlast⟩ := (hp.marked h hh).closing
  have horder := (hp.marked h hh).order
  have hdollar : ('$' : Char).utf8Size = 1 := by decide
  have hopen : ('\x7b' : Char).utf8Size = 1 := by decide
  obtain ⟨rfl, rfl⟩ := Text.append_inj_of_size (htext.symm.trans ha) (by omega)
  have hopened : text = (before ++ ['$', '\x7b']) ++ b := by rw [htext]; simp
  have hsize' : (before ++ ['$', '\x7b']).size = h.start + 2 := by
    rw [Text.size_append, Text.size_cons, Text.size_cons, hdollar, hopen, Text.size_nil, hsize]
  obtain ⟨body, rfl, rfl⟩ := Text.exists_between (hopened.symm.trans hu) (by omega)
  have hbody : bodyAt text holes h.start = body := by
    have hslice : text.slice? (h.start + 2) h.last = some body :=
      Text.slice?_eq_some.2 ⟨_, '\x7d' :: v, hu, hsize', by rw [← hlast, Text.size_append, hsize']⟩
    rw [bodyAt, hp.lastAt?_start hh]
    simp only [hslice, Option.getD_some]
  rw [hbody]
  refine ⟨v, by simp [Hole.written], ?_⟩
  rw [← hlast, Text.size_append, hsize']
  omega

theorem backslashesAtEnd_concat (t : Text) (c : Char) :
    backslashesAtEnd (t ++ [c]) = if c = '\\' then backslashesAtEnd t + 1 else 0 := by
  unfold backslashesAtEnd
  rw [List.reverse_append, List.reverse_singleton, List.singleton_append, List.takeWhile_cons]
  by_cases hc : c = '\\' <;> simp [hc]

/-- A text behind `before` is a filled outline with the holes that start there. -/
def Outlined (text : Text) (holes : List Hole) (before cs : Text) : Prop :=
  ∃ o, cs = fill (bodyAt text holes) o ∧
    (∀ h, (h ∈ holes ∧ before.size ≤ h.start) ↔ h ∈ holesFrom (bodyAt text holes) before.size o) ∧
    UnescapedFrom (decide (backslashesAtEnd before % 2 = 1)) o

theorem Outlined.hole {h : Hole} {rest : Text} (hp : Hole.Proper text holes) (hh : h ∈ holes)
    (hstart : h.start = before.size) (htext : text = before ++ (Hole.written (bodyAt text holes h.start) ++ rest))
    (hlast : h.last = h.start + (bodyAt text holes h.start).size + 2)
    (hrest : Outlined text holes (before ++ Hole.written (bodyAt text holes h.start)) rest) :
    Outlined text holes before (Hole.written (bodyAt text holes h.start) ++ rest) := by
  obtain ⟨o, ho, hmem, hu⟩ := hrest
  obtain ⟨a, b, ha, hsize, hunescaped⟩ := (hp.marked h hh).opening
  obtain ⟨rfl, -⟩ := Text.append_inj_of_size (ha.symm.trans htext) (by omega)
  have hend : (a ++ Hole.written (bodyAt text holes h.start)).size = h.last + 1 := by
    rw [Text.size_append, Hole.size_written]
    omega
  have hnext : h.start + ((bodyAt text holes h.start).size + 3) = h.last + 1 := by omega
  have hclose : backslashesAtEnd (a ++ Hole.written (bodyAt text holes h.start)) = 0 := by
    have hconcat : a ++ Hole.written (bodyAt text holes h.start) =
        (a ++ '$' :: '\x7b' :: bodyAt text holes h.start) ++ ['\x7d'] := by simp [Hole.written]
    rw [hconcat, backslashesAtEnd_concat, if_neg (by decide)]
  rw [hend] at hmem
  rw [hclose] at hu
  refine ⟨.hole h.start :: o, by rw [ho, fill_hole], fun g => ?_, by simp [hunescaped], hu⟩
  rw [hsize, holesFrom, List.mem_cons, hnext, ← hmem g, ← hlast]
  constructor
  · rintro ⟨hg, hle⟩
    by_cases hlt : h.last < g.start
    · exact .inr ⟨hg, hlt⟩
    · have horder := (hp.marked g hg).order
      have hsame : g = h := hp.eq_of_meet hg hh (by omega) (by omega)
      exact .inl hsame
  · rintro (rfl | ⟨hg, hle⟩)
    · exact ⟨hh, Nat.le_refl _⟩
    · exact ⟨hg, by omega⟩

theorem Outlined.char {c : Char} (hstarts : ∀ h ∈ holes, h.start < before.size + c.utf8Size → h.start < before.size)
    (hrest : Outlined text holes (before ++ [c]) cs) : Outlined text holes before (c :: cs) := by
  obtain ⟨o, ho, hmem, hu⟩ := hrest
  have hsize : (before ++ [c]).size = before.size + c.utf8Size := by simp
  rw [hsize] at hmem
  refine ⟨.char c :: o, by rw [ho, fill_char], fun h => ?_, ?_⟩
  · rw [holesFrom, ← hmem h]
    constructor
    · rintro ⟨hh, hle⟩
      refine ⟨hh, Nat.le_of_not_lt fun hlt => ?_⟩
      have hfront := hstarts h hh hlt
      omega
    · rintro ⟨hh, hle⟩
      exact ⟨hh, by omega⟩
  · rw [backslashesAtEnd_concat] at hu
    rw [UnescapedFrom]
    by_cases hc : c = '\\'
    · rw [if_pos hc] at hu
      have hodd : (c == '\\' && !decide (backslashesAtEnd before % 2 = 1)) =
          decide ((backslashesAtEnd before + 1) % 2 = 1) := by
        rw [hc, beq_self_eq_true, Bool.true_and, ← decide_not, decide_eq_decide]
        omega
      rwa [hodd]
    · rw [if_neg hc] at hu
      have hno : (c == '\\') = false := by simpa using hc
      rwa [hno, Bool.false_and]

/-- The induction is on the text, which is a character or a hole shorter each time. -/
theorem outlined (hp : Hole.Proper text holes) (htext : text = before ++ cs) (hw : Hole.Whole holes before.size) :
    Outlined text holes before cs := by
  induction hlen : cs.length using Nat.strong_induction_on generalizing before cs with
  | _ n ih =>
    subst hlen
    cases cs with
    | nil =>
      refine ⟨[], rfl, fun h => ⟨fun ⟨hh, hle⟩ => ?_, nofun⟩, trivial⟩
      have hlast := (hp.marked h hh).last_lt
      have horder := (hp.marked h hh).order
      rw [htext, List.append_nil] at hlast
      omega
    | cons c cs =>
      cases hat : Hole.lastAt? holes before.size with
      | some last =>
        obtain ⟨h, hh, hstart, rfl⟩ := Hole.lastAt?_eq_some hat
        obtain ⟨rest, hcs, hlast⟩ := split_hole hp hh htext hstart
        have hend : (before ++ Hole.written (bodyAt text holes h.start)).size = h.last + 1 := by
          rw [Text.size_append, Hole.size_written]
          omega
        have hshort : rest.length < (c :: cs).length := by
          rw [hcs, List.length_append, Hole.written, List.length_cons]
          omega
        rw [hcs] at htext ⊢
        refine .hole hp hh hstart htext hlast (ih _ hshort ?_ ?_ rfl)
        · rwa [List.append_assoc]
        · rw [hend]
          exact (hp.clear_hole hh).whole
      | none =>
        -- A hole in front of the next character started in front of this one, or it would be found here.
        have hstarts : ∀ h ∈ holes, h.start < before.size + c.utf8Size → h.start < before.size := by
          intro h hh hlt
          have hsome := hp.lastAt?_start hh
          by_cases heq : h.start = before.size
          · rw [heq, hat] at hsome
            cases hsome
          by_cases hgt : before.size < h.start
          · rw [hp.lastAt?_none htext hgt hlt] at hsome
            cases hsome
          omega
        refine .char hstarts (ih cs.length (Nat.lt_succ_self _) (by rw [htext, List.append_assoc]; rfl) ?_ rfl)
        intro h hh hlt
        have hsize : (before ++ [c]).size = before.size + c.utf8Size := by simp
        have hlast := hw h hh (hstarts h hh (hsize ▸ hlt))
        omega

end

/-- Every text whose holes have their marks, lie apart and are not escaped is a filled outline. -/
theorem exists_outline {text : Text} (hp : Hole.Proper text holes) :
    ∃ o bodies, text = fill bodies o ∧ (∀ h, h ∈ holes ↔ h ∈ holesFrom bodies 0 o) ∧ o.Unescaped := by
  obtain ⟨o, htext, hmem, hu⟩ :=
    outlined hp (List.nil_append text).symm fun h _ hlt => absurd hlt (Nat.not_lt_zero _)
  refine ⟨o, bodyAt text holes, htext, fun h => ?_, unescaped_iff.2 hu⟩
  rw [Text.size_nil] at hmem
  rw [← hmem h]
  exact ⟨fun hh => ⟨hh, Nat.zero_le _⟩, And.left⟩

end Outline
end TaggedStyles
