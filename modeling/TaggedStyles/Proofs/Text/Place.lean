import TaggedStyles.Excerpt
import TaggedStyles.Proofs.Text.Slice

/-! Places behind a text. At a place between two characters, the position that an excerpt computes is the one
reached from the origin by going over the characters in front: a line further for each line break, a column
further for each other character. Going over two texts is going over the first and then over the second. -/
namespace TaggedStyles
set_option autoImplicit false

/-! ## What stands after the last mark -/

namespace Text
variable {c : Char} {a b : Text}

theorem afterLast_append_of_mem (h : c ∈ b) : afterLast c (a ++ b) = afterLast c b := by
  have hne : (b.reverse.takeWhile (· != c)).length ≠ b.reverse.length := by
    intro hlen
    have hall := List.all_takeWhile (p := (· != c)) (l := b.reverse)
    rw [(List.takeWhile_prefix (· != c)).eq_of_length hlen, List.all_eq_true] at hall
    exact bne_iff_ne.1 (hall c (List.mem_reverse.2 h)) rfl
  rw [afterLast, List.reverse_append, List.takeWhile_append, if_neg hne]
  rfl

theorem afterLast_append_of_notMem (h : c ∉ b) : afterLast c (a ++ b) = afterLast c a ++ b := by
  have hall : ∀ d ∈ b.reverse, (d != c) = true := by
    intro d hd
    rw [bne_iff_ne]
    rintro rfl
    exact h (List.mem_reverse.1 hd)
  rw [afterLast, List.reverse_append, List.takeWhile_append_of_pos hall, List.reverse_append, List.reverse_reverse]
  rfl

theorem afterLast_of_notMem (h : c ∉ b) : afterLast c b = b := by
  have hfront := afterLast_append_of_notMem (a := []) h
  exact hfront

/-! ## Lines and columns -/

/-- Going over a text leaves the lines, and the characters and bytes of the last one, counted. -/
theorem lineColumnFrom_pass (line chars bytes : Nat) (x y : Text) (n : Nat) :
    lineColumnFrom line chars bytes (x ++ y) (x.size + n) =
      lineColumnFrom (line + x.count '\n') (if '\n' ∈ x then (x.afterLast '\n').length else chars + x.length)
        (if '\n' ∈ x then (x.afterLast '\n').size else bytes + x.size) y n := by
  induction x generalizing line chars bytes with
  | nil => simp
  | cons d ds ih =>
    have hpos := d.utf8Size_pos
    have hsub : d.utf8Size + size ds + n - d.utf8Size = size ds + n := by omega
    have hlast : '\n' ∈ ds → afterLast '\n' (d :: ds) = afterLast '\n' ds := afterLast_append_of_mem (a := [d])
    rw [List.cons_append, lineColumnFrom, size_cons, if_neg (by omega), if_neg (by omega), hsub]
    by_cases hd : d = '\n'
    · subst hd
      rw [if_pos rfl, ih, List.count_cons_self, Nat.add_right_comm, ← Nat.add_assoc]
      by_cases hmem : '\n' ∈ ds
      · simp only [hmem, if_true, List.mem_cons_self, hlast hmem]
      · have hbreak : afterLast '\n' ('\n' :: ds) = ds := afterLast_append_of_notMem (a := ['\n']) hmem
        simp only [hmem, if_false, List.mem_cons_self, if_true, hbreak, Nat.zero_add]
    · have hmem : '\n' ∈ d :: ds ↔ '\n' ∈ ds := by simp [Ne.symm hd]
      rw [if_neg hd, ih, List.count_cons_of_ne hd]
      simp only [hmem]
      split
      · rw [hlast ‹_›]
      · rw [List.length_cons, Nat.add_right_comm chars 1, ← Nat.add_assoc chars, ← Nat.add_assoc bytes]

theorem lineColumnFrom_append (line chars bytes : Nat) (x y : Text) :
    lineColumnFrom line chars bytes (x ++ y) x.size =
      (line + x.count '\n', (if '\n' ∈ x then (x.afterLast '\n').length else chars + x.length) + 1) := by
  rw [← Nat.add_zero x.size, lineColumnFrom_pass]
  cases y <;> simp [lineColumnFrom]

end Text

/-! ## Positions -/

/-- The position behind a text that starts at a position. -/
def Position.behind (o : Position) (t : Text) : Position where
  offset := o.offset + t.size
  line := o.line + t.count '\n'
  column := if '\n' ∈ t then (t.afterLast '\n').length + 1 else o.column + t.length

theorem Position.behind_append (o : Position) (a b : Text) : o.behind (a ++ b) = (o.behind a).behind b := by
  simp only [behind, Text.size_append, List.count_append, List.mem_append, List.length_append, Position.mk.injEq]
  refine ⟨by omega, by omega, ?_⟩
  by_cases hb : '\n' ∈ b
  · rw [if_pos (.inr hb), if_pos hb, Text.afterLast_append_of_mem hb]
  · rw [if_neg hb, Text.afterLast_append_of_notMem hb]
    by_cases ha : '\n' ∈ a
    · rw [if_pos (.inl ha), if_pos ha, List.length_append]
      omega
    · rw [if_neg (by simp [ha, hb]), if_neg ha]
      omega

/-- The position in a source that starts with a text, behind that text: its bytes, a line more than it has line breaks,
and a column more than characters stand after the last of them. -/
def Position.ofFront (t : Text) : Position := ⟨t.size, 1 + t.count '\n', 1 + (t.afterLast '\n').length⟩

theorem Position.front_behind (t : Text) : Position.front.behind t = ofFront t := by
  simp only [behind, front, ofFront, Position.mk.injEq, Nat.zero_add, true_and]
  split
  · omega
  · rw [Text.afterLast_of_notMem ‹_›]

namespace Excerpt

theorem position_behind {e : Excerpt} {x y : Text} (h : e.text = x ++ y) : e.position x.size = e.origin.behind x := by
  have hline : 1 + x.count '\n' = 1 ↔ '\n' ∉ x := by
    rw [← List.count_eq_zero]
    omega
  simp only [position, Text.lineColumn, h, Text.lineColumnFrom_append, hline, Position.behind, Position.mk.injEq,
    true_and]
  refine ⟨by omega, ?_⟩
  by_cases hbreak : '\n' ∈ x
  · simp only [hbreak, not_true_eq_false, if_false, if_true]
  · simp only [hbreak, not_false_eq_true, if_false, if_true]
    omega

/-- An excerpt that goes on where another one has come to finds the positions that the other one finds. -/
theorem position_rest {e : Excerpt} {w x y : Text} (h : e.text = w ++ (x ++ y)) :
    Excerpt.position ⟨x ++ y, e.position w.size, e.file⟩ x.size = e.position (w.size + x.size) := by
  have hwhole : e.text = (w ++ x) ++ y := by rw [h, List.append_assoc]
  rw [position_behind rfl, position_behind h, ← Text.size_append, position_behind hwhole, Position.behind_append]

end Excerpt
end TaggedStyles
