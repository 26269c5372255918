import TaggedStyles.Text.Basic

/-! Cuts of a text by byte offsets. A cut, a suffix or a slice is there exactly when the text falls into
such parts, and two ways to cut a text at one offset agree. -/
namespace TaggedStyles.Text
set_option autoImplicit false

/-! ## Sizes -/

@[simp] theorem size_eq_zero {t : Text} : size t = 0 ↔ t = [] := by
  cases t with
  | nil => simp
  | cons c cs =>
    have hc := c.utf8Size_pos
    simp only [size_cons, reduceCtorEq, iff_false]
    omega

theorem size_pos {t : Text} (h : t ≠ []) : 0 < size t := Nat.pos_of_ne_zero fun hzero => h (size_eq_zero.1 hzero)

/-! ## Two cuts of one text -/

theorem append_inj_of_size {a b c d : Text} (h : a ++ b = c ++ d) (hs : size a = size c) :
    a = c ∧ b = d := by
  have h1 := splitAt?_append a b
  rw [h, hs, splitAt?_append] at h1
  obtain ⟨rfl, rfl⟩ := Prod.mk.inj (Option.some.inj h1)
  exact ⟨rfl, rfl⟩

/-- The earlier one of two cuts leaves the part between them in front of the later rest. -/
theorem exists_between {a b c d : Text} (h : a ++ b = c ++ d) (hs : size a ≤ size c) :
    ∃ m, c = a ++ m ∧ b = m ++ d := by
  rcases List.append_eq_append_iff.1 h with ⟨m, hc, hb⟩ | ⟨m, ha, hd⟩
  · exact ⟨m, hc, hb⟩
  · have hm : m = [] := by
      rw [ha, size_append] at hs
      exact size_eq_zero.1 (by omega)
    subst hm
    exact ⟨[], by simpa using ha.symm, by simpa using hd.symm⟩

/-! ## When a part is there -/

theorem splitAt?_eq_some {t a b : Text} {n : Nat} :
    splitAt? t n = some (a, b) ↔ t = a ++ b ∧ size a = n := by
  constructor
  · exact append_of_splitAt?
  · rintro ⟨rfl, rfl⟩
    exact splitAt?_append a b

theorem suffix?_eq_some {t b : Text} {n : Nat} :
    suffix? t n = some b ↔ ∃ a, t = a ++ b ∧ size a = n := by
  simp only [suffix?, Option.map_eq_some_iff, Prod.exists, splitAt?_eq_some]
  constructor
  · rintro ⟨a, _, h, rfl⟩
    exact ⟨a, h⟩
  · rintro ⟨a, h⟩
    exact ⟨a, b, h, rfl⟩

theorem slice?_eq_some {t m : Text} {start stop : Nat} :
    slice? t start stop = some m ↔ ∃ a b, t = a ++ m ++ b ∧ size a = start ∧ start + size m = stop := by
  unfold slice?
  split
  · rename_i hlt
    simp only [reduceCtorEq, false_iff]
    rintro ⟨a, b, -, -, hm⟩
    omega
  · rename_i hge
    simp only [Option.bind_eq_bind, Option.bind_eq_some_iff, Prod.exists, splitAt?_eq_some, Option.pure_def,
      Option.some.injEq]
    constructor
    · rintro ⟨a, _, ⟨rfl, rfl⟩, _, b, ⟨rfl, hm⟩, rfl⟩
      exact ⟨a, b, by simp, rfl, by omega⟩
    · rintro ⟨a, b, rfl, rfl, hm⟩
      exact ⟨a, m ++ b, ⟨by simp, rfl⟩, m, b, ⟨rfl, by omega⟩, rfl⟩

theorem slice?_of_slice? {t m k : Text} {start stop a b : Nat} (hm : t.slice? start stop = some m)
    (hk : m.slice? a b = some k) : t.slice? (start + a) (start + b) = some k := by
  obtain ⟨x, y, rfl, rfl, -⟩ := slice?_eq_some.1 hm
  obtain ⟨u, v, rfl, rfl, hb⟩ := slice?_eq_some.1 hk
  exact slice?_eq_some.2 ⟨x ++ u, v ++ y, by simp only [List.append_assoc], size_append x u, by omega⟩

theorem slice?_inner {t m k : Text} {start stop a b : Nat} (hm : t.slice? start stop = some m)
    (hk : t.slice? a b = some k) (hstart : start ≤ a) (hstop : b ≤ stop) :
    m.slice? (a - start) (b - start) = some k := by
  obtain ⟨x, y, rfl, rfl, hm⟩ := slice?_eq_some.1 hm
  obtain ⟨u, v, hsplit, rfl, hb⟩ := slice?_eq_some.1 hk
  rw [List.append_assoc, List.append_assoc] at hsplit
  obtain ⟨gap, rfl, hrest⟩ := exists_between hsplit hstart
  rw [size_append] at hb ⊢
  rw [← List.append_assoc] at hrest
  obtain ⟨more, rfl, -⟩ := exists_between hrest.symm (by rw [size_append]; omega)
  exact slice?_eq_some.2 ⟨gap, more, rfl, by omega, by omega⟩

/-! ## Occurrences -/

theorem includes_behind {t part : Text} (a : Text) (h : t.includes part = true) : (a ++ t).includes part = true := by
  induction a with
  | nil => exact h
  | cons c cs ih => rw [List.cons_append, includes, ih, Bool.or_true]

theorem includes_append (a part b : Text) : (a ++ part ++ b).includes part = true := by
  rw [List.append_assoc]
  apply includes_behind
  cases part with
  | nil => cases b <;> rfl
  | cons c cs =>
    have hfront : (c :: cs).isPrefixOf (c :: cs ++ b) = true :=
      List.isPrefixOf_iff_prefix.2 (List.prefix_append _ _)
    rw [List.cons_append] at hfront ⊢
    rw [includes, hfront, Bool.true_or]

end TaggedStyles.Text
