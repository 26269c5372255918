import TaggedStyles.Proofs.Text.Slice
import TaggedStyles.Token.Scan

/-! Scans byte by byte. A walk over the bytes of a text that jumps behind every hole it meets can land inside a
character, yet it stops where the scan over characters does: the bytes of a wide character are none that a
scan looks for. -/
namespace TaggedStyles
set_option autoImplicit false

/-- The UTF-8 form of a text. -/
def Text.bytes (t : Text) : List UInt8 := t.flatMap String.utf8EncodeChar

/-- The characters that are the bytes below 128 at the front. -/
def asciiFront (bs : List UInt8) : Text := (bs.takeWhile (·.toNat < 128)).map fun b => Char.ofNat b.toNat

/-- The offset of the first byte, outside holes, where `stop` holds of the bytes from there on; the end if there is
none. Each hole that starts at a visited byte moves the walk behind its end. -/
def byteWalk (holes : List Hole) (stop : Bool → Text → Bool) : (i skip : Nat) → (odd : Bool) → List UInt8 → Nat
  | i, _, _, [] => i
  | i, skip, odd, b :: bs =>
    let skip := passHoles holes 1 i skip
    if skip ≤ i && stop odd (asciiFront (b :: bs)) then i else byteWalk holes stop (i + 1) skip (b == 92 && !odd) bs

/-- What `stop` answers is told by the characters of one byte at the front. -/
structure AsciiOnly (stop : Bool → Text → Bool) : Prop where
  nil : ∀ odd, stop odd [] = false
  front : ∀ odd cs, stop odd cs = stop odd (cs.takeWhile (·.utf8Size == 1))

namespace Text

@[simp] theorem bytes_cons (c : Char) (cs : Text) : bytes (c :: cs) = String.utf8EncodeChar c ++ bytes cs := rfl

theorem utf8EncodeChar_of_ascii {c : Char} (hc : c.utf8Size = 1) :
    c.val.toNat ≤ 127 ∧ String.utf8EncodeChar c = [UInt8.ofNat c.val.toNat] := by
  have hlen := String.length_utf8EncodeChar c
  rw [hc] at hlen
  simp only [String.utf8EncodeChar] at hlen ⊢
  split at hlen
  · rename_i hle
    rw [if_pos hle]
    exact ⟨hle, rfl⟩
  · split at hlen
    · cases hlen
    · split at hlen <;> cases hlen

theorem le_of_mem_utf8EncodeChar {c : Char} (hc : 1 < c.utf8Size) :
    ∀ b ∈ String.utf8EncodeChar c, 128 ≤ b.toNat := by
  intro b hb
  have hlen := String.length_utf8EncodeChar c
  simp only [String.utf8EncodeChar] at hb hlen
  split at hb
  · rw [if_pos ‹_›] at hlen
    simp at hlen
    omega
  · split at hb
    · simp at hb
      rcases hb with rfl | rfl <;> simp <;> omega
    · split at hb
      · simp at hb
        rcases hb with rfl | rfl | rfl <;> simp <;> omega
      · simp at hb
        rcases hb with rfl | rfl | rfl | rfl <;> simp <;> omega

theorem asciiFront_bytes (cs : Text) : asciiFront (bytes cs) = cs.takeWhile (·.utf8Size == 1) := by
  induction cs with
  | nil => rfl
  | cons c cs ih =>
    by_cases hc : c.utf8Size = 1
    · obtain ⟨hle, hbytes⟩ := utf8EncodeChar_of_ascii hc
      have hnat : (UInt8.ofNat c.val.toNat).toNat = c.val.toNat := by
        rw [UInt8.toNat_ofNat']
        omega
      have hchar : Char.ofNat c.val.toNat = c := Char.ofNat_toNat c
      have hlow : (UInt8.ofNat c.val.toNat).toNat < 128 := by omega
      rw [bytes_cons, hbytes, List.singleton_append, asciiFront, List.takeWhile_cons_of_pos (by simpa using hlow),
        List.map_cons, hnat, hchar, List.takeWhile_cons_of_pos (by simp only [hc, beq_self_eq_true])]
      exact congrArg (c :: ·) ih
    · have hwide := le_of_mem_utf8EncodeChar (c := c) (by have := c.utf8Size_pos; omega)
      have hlen := String.length_utf8EncodeChar c
      cases henc : String.utf8EncodeChar c with
      | nil =>
        rw [henc] at hlen
        exact absurd hlen.symm (Nat.ne_of_gt c.utf8Size_pos)
      | cons b bs =>
        have hb := hwide b (henc ▸ List.mem_cons_self)
        rw [bytes_cons, henc, List.cons_append, asciiFront, List.takeWhile_cons_of_neg (by simpa using hb),
          List.takeWhile_cons_of_neg (by simpa using hc)]
        rfl

end Text

section
variable {holes : List Hole} {stop : Bool → Text → Bool} {i skip : Nat} {odd : Bool}

theorem byteWalk_wide (hstop : AsciiOnly stop) {bs rest : List UInt8} (hne : bs ≠ [])
    (hwide : ∀ b ∈ bs, 128 ≤ b.toNat) :
    byteWalk holes stop i skip odd (bs ++ rest) =
      byteWalk holes stop (i + bs.length) (passHoles holes bs.length i skip) false rest := by
  induction bs generalizing i skip odd with
  | nil => exact absurd rfl hne
  | cons b bs ih =>
    have hb := hwide b List.mem_cons_self
    have hfront : asciiFront (b :: (bs ++ rest)) = [] := by
      rw [asciiFront, List.takeWhile_cons_of_neg (by simp only [decide_eq_true_eq]; omega), List.map_nil]
    have hslash : (b == 92) = false := by
      rw [beq_eq_false_iff_ne]
      rintro rfl
      exact absurd hb (by decide)
    rw [List.cons_append, byteWalk, hfront, hstop.nil, hslash]
    simp only [Bool.and_false, Bool.false_eq_true, if_false, Bool.false_and]
    cases bs with
    | nil => rfl
    | cons b' bs =>
      rw [ih (by simp) fun x hx => hwide x (List.mem_cons_of_mem _ hx)]
      simp only [List.length_cons]
      rw [show i + 1 + (bs.length + 1) = i + (bs.length + 1 + 1) by omega]
      rfl

/-- Over a hole that ends anywhere the walk over bytes stops where the scan over characters does. -/
theorem byteWalk_bytes (hstop : AsciiOnly stop) (cs : Text) :
    byteWalk holes stop i skip odd (Text.bytes cs) = i + Text.size (scan holes stop i skip odd cs).1 := by
  induction cs generalizing i skip odd with
  | nil => rfl
  | cons c cs ih =>
    by_cases hc : c.utf8Size = 1
    · obtain ⟨hle, hbytes⟩ := Text.utf8EncodeChar_of_ascii hc
      have hslash : (UInt8.ofNat c.val.toNat == 92) = (c == '\\') := by
        rw [Bool.eq_iff_iff, beq_iff_eq, beq_iff_eq]
        constructor
        · intro h
          have hnat := congrArg UInt8.toNat h
          rw [UInt8.toNat_ofNat', Nat.mod_eq_of_lt (by omega)] at hnat
          exact Char.ext (UInt32.toNat_inj.1 hnat)
        · rintro rfl
          rfl
      have hfront := Text.asciiFront_bytes (c :: cs)
      rw [Text.bytes_cons, hbytes, List.singleton_append] at hfront
      rw [Text.bytes_cons, hbytes, List.singleton_append, byteWalk, hfront, ← hstop.front, hslash, ih, scan, hc]
      simp only
      split
      · rfl
      · simp only [Text.size_cons, hc]
        omega
    · have hpos := c.utf8Size_pos
      have hlen := String.length_utf8EncodeChar c
      have hne : String.utf8EncodeChar c ≠ [] := by
        intro h0
        rw [h0] at hlen
        exact Nat.ne_of_gt hpos hlen.symm
      have hstay : stop odd (c :: cs) = false := by
        rw [hstop.front, List.takeWhile_cons_of_neg (by simpa using hc), hstop.nil]
      have hslash : (c == '\\') = false := by
        rw [beq_eq_false_iff_ne]
        rintro rfl
        exact hc rfl
      rw [Text.bytes_cons, byteWalk_wide hstop hne (Text.le_of_mem_utf8EncodeChar (by omega)), hlen, ih, scan, hstay,
        hslash]
      simp only [Bool.and_false, Bool.false_eq_true, if_false, Bool.false_and, Text.size_cons]
      omega

theorem asciiOnly_atClass {p : Char → Bool} (hp : ∀ c, p c = true → c.utf8Size = 1) : AsciiOnly (atClass p) := by
  refine ⟨fun _ => rfl, fun odd cs => ?_⟩
  cases cs with
  | nil => rfl
  | cons c cs =>
    by_cases hc : c.utf8Size = 1
    · rw [List.takeWhile_cons_of_pos (by simp only [hc, beq_self_eq_true])]
      rfl
    · rw [List.takeWhile_cons_of_neg (by simpa using hc)]
      exact Bool.eq_false_iff.2 fun h => hc (hp c h)

theorem asciiOnly_atUnescaped {mark : Char} (hmark : mark.utf8Size = 1) : AsciiOnly (atUnescaped mark) := by
  have hclass : ∀ odd cs, atUnescaped mark odd cs = (atClass (· == mark) odd cs && !odd) := by
    intro odd cs
    cases cs <;> rfl
  have hp := asciiOnly_atClass (p := (· == mark)) fun c hc => beq_iff_eq.1 hc ▸ hmark
  refine ⟨fun _ => rfl, fun odd cs => ?_⟩
  rw [hclass, hclass, ← hp.front]

theorem isPrefixOf_takeWhile {p : Char → Bool} {mark : Text} (hmark : mark.all p = true) (cs : Text) :
    mark.isPrefixOf (cs.takeWhile p) = mark.isPrefixOf cs := by
  induction mark generalizing cs with
  | nil => rfl
  | cons m mark ih =>
    rw [List.all_cons, Bool.and_eq_true] at hmark
    obtain ⟨hm, hmark⟩ := hmark
    cases cs with
    | nil => rfl
    | cons c cs =>
      cases hc : p c with
      | true =>
        rw [List.takeWhile_cons_of_pos hc, List.isPrefixOf_cons_cons, List.isPrefixOf_cons_cons, ih hmark]
      | false =>
        have hne : (m == c) = false := beq_eq_false_iff_ne.2 fun h => by rw [h, hc] at hm; cases hm
        rw [List.takeWhile_cons_of_neg (by simp only [hc, Bool.false_eq_true, not_false_iff]),
          List.isPrefixOf_cons_cons, hne]
        rfl

theorem asciiOnly_atText {mark : Text} (hne : mark ≠ []) (hmark : mark.all (·.utf8Size == 1) = true) :
    AsciiOnly (atText mark) := by
  refine ⟨fun _ => ?_, fun odd cs => ?_⟩
  · cases mark with
    | nil => exact absurd rfl hne
    | cons m mark => rfl
  · exact (isPrefixOf_takeWhile hmark cs).symm

theorem utf8Size_of_isSpace (c : Char) (h : isSpace c = true) : c.utf8Size = 1 := by
  simp only [isSpace, Bool.or_eq_true, beq_iff_eq] at h
  rcases h with (((rfl | rfl) | rfl) | rfl) | rfl <;> rfl

private theorem utf8Size_of_mem {marks : Text} (hmarks : marks.all (·.utf8Size == 1) = true) (c : Char)
    (h : (isSpace c || marks.contains c) = true) : c.utf8Size = 1 := by
  rcases (Bool.or_eq_true _ _).mp h with h | h
  · exact utf8Size_of_isSpace c h
  · exact beq_iff_eq.1 (List.all_eq_true.1 hmarks c (List.contains_iff_mem.1 h))

theorem utf8Size_of_endsWord (c : Char) (h : endsWord c = true) : c.utf8Size = 1 :=
  utf8Size_of_mem (by decide) c h

theorem utf8Size_of_endsAtWord (c : Char) (h : endsAtWord c = true) : c.utf8Size = 1 :=
  utf8Size_of_mem (by decide) c h

theorem asciiOnly_atWordEnd : AsciiOnly atWordEnd := by
  have hor : ∀ odd cs, atWordEnd odd cs = (atClass endsWord odd cs || atText ['/', '*'] odd cs) := by
    intro odd cs
    cases cs <;> rfl
  have hclass := asciiOnly_atClass utf8Size_of_endsWord
  have htext : AsciiOnly (atText ['/', '*']) := asciiOnly_atText (by simp) (by decide)
  refine ⟨fun _ => rfl, fun odd cs => ?_⟩
  rw [hor, hor, ← hclass.front, ← htext.front]

/-- Every scan for the end of a token, done byte by byte, comes to a place between two characters, the one
that the scan over characters comes to. -/
theorem byteWalk_between_characters {text before cs : Text} (htext : text = before ++ cs)
    (hstop : stop ∈ [atClass (· == ')'), atClass endsAtWord, atUnescaped '\'', atUnescaped '"', atUnescaped ')',
      atText ['*', '/'], atWordEnd]) :
    text.splitAt? (byteWalk holes stop before.size skip odd (Text.bytes cs)) =
      some (before ++ (scan holes stop before.size skip odd cs).1, (scan holes stop before.size skip odd cs).2) := by
  have hascii : AsciiOnly stop := by
    simp only [List.mem_cons, List.not_mem_nil, or_false] at hstop
    rcases hstop with rfl | rfl | rfl | rfl | rfl | rfl | rfl
    · exact asciiOnly_atClass fun c hc => beq_iff_eq.1 hc ▸ rfl
    · exact asciiOnly_atClass utf8Size_of_endsAtWord
    · exact asciiOnly_atUnescaped rfl
    · exact asciiOnly_atUnescaped rfl
    · exact asciiOnly_atUnescaped rfl
    · exact asciiOnly_atText (by simp) (by decide)
    · exact asciiOnly_atWordEnd
  rw [byteWalk_bytes hascii, Text.splitAt?_eq_some, List.append_assoc, scan_append]
  exact ⟨htext, Text.size_append _ _⟩

end
end TaggedStyles
