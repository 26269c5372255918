import Mathlib.Data.List.Induction
import TaggedStyles.Diagnostic
import TaggedStyles.Proofs.Text.Place

/-! Three ways to the line and the column of an offset: the scan of an excerpt, the cursor of a diagnostic, and a table of
the places where lines start. The table has the columns counted from the last start that is not behind the offset, and an
offset inside a character counts bytes there; the cursor stands behind a character that it is in. They agree wherever
no character is cut, and past the end, where all of them stand at the end. An excerpt that starts where another
one has come to is at the same places as that one. -/
namespace TaggedStyles
set_option autoImplicit false

namespace Text
variable {x y : Text}

/-! ## The cursor -/

theorem cursorFrom_pass (offset line column i : Nat) (x y : Text) (h : i + x.size ≤ offset) :
    cursorFrom offset line column i (x ++ y) =
      cursorFrom offset (line + x.count '\n')
        (if '\n' ∈ x then (x.afterLast '\n').length + 1 else column + x.length) (i + x.size) y := by
  induction x generalizing line column i with
  | nil => rfl
  | cons d ds ih =>
    have hpos := d.utf8Size_pos
    rw [size_cons] at h
    have hlast : '\n' ∈ ds → afterLast '\n' (d :: ds) = afterLast '\n' ds := afterLast_append_of_mem (a := [d])
    rw [List.cons_append, cursorFrom, if_neg (by omega), size_cons, ← Nat.add_assoc]
    by_cases hd : d = '\n'
    · subst hd
      rw [if_pos rfl, ih _ _ _ (by omega), List.count_cons_self, if_pos List.mem_cons_self]
      have hline : line + 1 + ds.count '\n' = line + (ds.count '\n' + 1) := by omega
      by_cases hmem : '\n' ∈ ds
      · rw [if_pos hmem, hlast hmem, hline]
      · have hbreak : afterLast '\n' ('\n' :: ds) = ds := afterLast_append_of_notMem (a := ['\n']) hmem
        rw [if_neg hmem, hbreak, hline, Nat.add_comm 1]
    · have hmem : '\n' ∈ d :: ds ↔ '\n' ∈ ds := by simp [Ne.symm hd]
      rw [if_neg hd, ih _ _ _ (by omega), List.count_cons_of_ne hd]
      simp only [hmem]
      split
      · rw [hlast ‹_›]
      · rw [List.length_cons, Nat.add_right_comm column 1, ← Nat.add_assoc column]

theorem cursor_append (x y : Text) :
    cursor (x ++ y) x.size = ((Position.ofFront x).line, (Position.ofFront x).column) := by
  have hstop : ∀ line column, cursorFrom x.size line column (0 + x.size) y = (line, column) := by
    intro line column
    cases y with
    | nil => rfl
    | cons c cs => rw [cursorFrom, if_pos (by omega)]
  rw [cursor, cursorFrom_pass _ _ _ _ _ _ (by omega), hstop, ← Position.front_behind]
  rfl

theorem cursor_of_size_le {offset : Nat} (h : x.size ≤ offset) : x.cursor offset = x.cursor x.size := by
  have hfull := cursorFrom_pass offset 1 1 0 x [] (by omega)
  have hend := cursorFrom_pass x.size 1 1 0 x [] (by omega)
  rw [List.append_nil] at hfull hend
  rw [cursor, cursor, hfull, hend]
  rfl

/-! ## The scan -/

theorem lineColumn_of_size_le {offset : Nat} (h : x.size ≤ offset) : x.lineColumn offset = x.lineColumn x.size := by
  have hfull := lineColumnFrom_pass 1 0 0 x [] (offset - x.size)
  have hend := lineColumnFrom_pass 1 0 0 x [] 0
  rw [List.append_nil] at hfull hend
  rw [Nat.add_sub_cancel' h] at hfull
  rw [lineColumn, lineColumn, hfull, ← Nat.add_zero x.size, hend]
  rfl

/-! ## The table of lines -/

/-- Where the lines behind the first one start, of a text that stands behind `i` bytes. -/
def lineStartsFrom : Nat → Text → List Nat
  | _, [] => []
  | i, c :: cs =>
    if c = '\n' then (i + c.utf8Size) :: lineStartsFrom (i + c.utf8Size) cs else lineStartsFrom (i + c.utf8Size) cs

/-- Where the lines of a text start. -/
def lineStarts (t : Text) : List Nat := 0 :: lineStartsFrom 0 t

/-- Line and column of a byte offset, both from 1, by the last line that does not start behind it. An offset past the end
counts as the end; inside a character the column counts bytes. -/
def lookUp (t : Text) (offset : Nat) : Nat × Nat :=
  let offset := min offset t.size
  let started := t.lineStarts.takeWhile (· ≤ offset)
  let start := started.getLastD 0
  (started.length, ((t.slice? start offset).elim (offset - start) List.length) + 1)

theorem lineStartsFrom_append (i : Nat) (x y : Text) :
    lineStartsFrom i (x ++ y) = lineStartsFrom i x ++ lineStartsFrom (i + x.size) y := by
  induction x generalizing i with
  | nil => rfl
  | cons c cs ih =>
    rw [List.cons_append, lineStartsFrom, lineStartsFrom, ih, size_cons, ← Nat.add_assoc]
    split <;> rfl

theorem bounds_of_mem_lineStartsFrom {i n : Nat} (h : n ∈ lineStartsFrom i x) : i < n ∧ n ≤ i + x.size := by
  induction x generalizing i with
  | nil => simp [lineStartsFrom] at h
  | cons c cs ih =>
    have hpos := c.utf8Size_pos
    have hrest : n ∈ lineStartsFrom (i + c.utf8Size) cs → i < n ∧ n ≤ i + (size (c :: cs)) := by
      intro hn
      obtain ⟨hlow, hhigh⟩ := ih hn
      rw [size_cons]
      omega
    rw [lineStartsFrom] at h
    split at h
    · rcases List.mem_cons.1 h with rfl | h
      · rw [size_cons]
        omega
      · exact hrest h
    · exact hrest h

theorem lineStarts_concat (x : Text) (c : Char) :
    lineStarts (x ++ [c]) = lineStarts x ++ if c = '\n' then [x.size + c.utf8Size] else [] := by
  rw [lineStarts, lineStartsFrom_append, Nat.zero_add, lineStarts, List.cons_append]
  rfl

theorem length_lineStarts (x : Text) : (lineStarts x).length = 1 + x.count '\n' := by
  induction x using List.reverseRecOn with
  | nil => rfl
  | append_singleton x c ih =>
    rw [lineStarts_concat, List.length_append, ih, List.count_append]
    by_cases hc : c = '\n'
    · simp [hc, Nat.add_assoc]
    · simp [hc]

theorem getLastD_lineStarts (x : Text) : (lineStarts x).getLastD 0 + (x.afterLast '\n').size = x.size := by
  induction x using List.reverseRecOn with
  | nil => rfl
  | append_singleton x c ih =>
    rw [lineStarts_concat]
    by_cases hc : c = '\n'
    · have hmem : '\n' ∈ [c] := by simp [hc]
      have hlast : afterLast '\n' [c] = [] := by
        rw [hc]
        rfl
      rw [if_pos hc, afterLast_append_of_mem hmem, hlast]
      simp
    · have hmem : '\n' ∉ [c] := by simpa using Ne.symm hc
      rw [if_neg hc, afterLast_append_of_notMem hmem, List.append_nil, size_append, size_append]
      omega

theorem exists_append_of_lt_size {t : Text} {n : Nat} (h : n < t.size) :
    ∃ (x : Text) (c : Char) (y : Text), t = x ++ c :: y ∧ x.size ≤ n ∧ n < x.size + c.utf8Size := by
  induction t generalizing n with
  | nil => simp at h
  | cons c cs ih =>
    rw [size_cons] at h
    by_cases hc : n < c.utf8Size
    · exact ⟨[], c, cs, rfl, by simp, by simpa using hc⟩
    · obtain ⟨x, d, y, rfl, hlow, hhigh⟩ := ih (n := n - c.utf8Size) (by omega)
      exact ⟨c :: x, d, y, rfl, by rw [size_cons]; omega, by rw [size_cons]; omega⟩

theorem slice?_inside {c : Char} {start k : Nat} (hpos : 0 < k) (hlt : k < c.utf8Size) :
    (x ++ c :: y).slice? start (x.size + k) = none := by
  rw [Option.eq_none_iff_forall_ne_some]
  intro m hm
  obtain ⟨a, b, hsplit, ha, hstop⟩ := slice?_eq_some.1 hm
  have hsize : (a ++ m).size = x.size + k := by rw [size_append, ha, hstop]
  obtain ⟨g, hg, hrest⟩ := exists_between hsplit (by omega)
  rw [hg, size_append] at hsize
  cases g with
  | nil =>
    rw [size_nil] at hsize
    omega
  | cons d ds =>
    obtain ⟨rfl, -⟩ := List.cons.inj hrest
    rw [size_cons] at hsize
    omega

/-- The last line that has started at an offset is the one that the text in front of it ends with. -/
theorem lookUp_append {n : Nat} (hlow : x.size ≤ n) (hhigh : n ≤ (x ++ y).size)
    (hstarts : ∀ s ∈ lineStartsFrom x.size y, n < s) :
    lookUp (x ++ y) n =
      (1 + x.count '\n', (((x ++ y).slice? ((lineStarts x).getLastD 0) n).elim (n - (lineStarts x).getLastD 0)
        List.length) + 1) := by
  have hfront : ∀ s ∈ lineStarts x, decide (s ≤ n) = true := by
    intro s hs
    rw [decide_eq_true_eq]
    rcases List.mem_cons.1 hs with rfl | hs
    · omega
    · have hbound := (bounds_of_mem_lineStartsFrom hs).2
      omega
  have hback : (lineStartsFrom x.size y).takeWhile (· ≤ n) = [] := by
    cases hy : lineStartsFrom x.size y with
    | nil => rfl
    | cons s ss =>
      have hs := hstarts s (by rw [hy]; exact List.mem_cons_self)
      rw [List.takeWhile_cons_of_neg]
      rw [decide_eq_true_eq]
      omega
  have hall : lineStarts (x ++ y) = lineStarts x ++ lineStartsFrom x.size y := by
    rw [lineStarts, lineStartsFrom_append, Nat.zero_add]
    rfl
  have hstarted : (lineStarts (x ++ y)).takeWhile (· ≤ n) = lineStarts x := by
    rw [hall, List.takeWhile_append_of_pos hfront, hback, List.append_nil]
  simp only [lookUp, Nat.min_eq_left hhigh, hstarted, length_lineStarts]

theorem afterLast_suffix (c : Char) (t : Text) : t.afterLast c <:+ t := by
  rw [← List.reverse_prefix, afterLast, List.reverse_reverse]
  exact List.takeWhile_prefix _

/-- Between two characters, and at an end, the table counts the characters of the line. -/
theorem lookUp_between (x y : Text) : lookUp (x ++ y) x.size = (x ++ y).lineColumn x.size := by
  have hstart := getLastD_lineStarts x
  obtain ⟨front, hfront⟩ := afterLast_suffix '\n' x
  have hslice : (x ++ y).slice? ((lineStarts x).getLastD 0) x.size = some (x.afterLast '\n') := by
    have hsize := congrArg size hfront
    rw [size_append] at hsize
    exact slice?_eq_some.2 ⟨front, y, by rw [hfront], by omega, by omega⟩
  rw [lookUp_append (Nat.le_refl _) (by rw [size_append]; omega) fun s hs => (bounds_of_mem_lineStartsFrom hs).1, hslice,
    lineColumn, lineColumnFrom_append, Option.elim_some]
  split
  · rfl
  · rw [afterLast_of_notMem ‹_›, Nat.zero_add]

/-- The scan finds what the table says, for every offset. -/
theorem lineColumn_eq_lookUp (t : Text) (offset : Nat) : t.lineColumn offset = t.lookUp offset := by
  by_cases hend : t.size ≤ offset
  · have hmin : t.lookUp offset = t.lookUp t.size := by simp only [lookUp, Nat.min_eq_right hend, Nat.min_self]
    have hlast := lookUp_between t []
    rw [List.append_nil] at hlast
    rw [lineColumn_of_size_le hend, hmin, hlast]
  · obtain ⟨x, c, y, rfl, hlow, hhigh⟩ := exists_append_of_lt_size (Nat.lt_of_not_le hend)
    obtain ⟨k, rfl⟩ := Nat.exists_eq_add_of_le hlow
    by_cases hk : k = 0
    · subst hk
      exact (lookUp_between x (c :: y)).symm
    -- a character of two bytes or more is no line break, so the next line starts behind all of it
    · have hbreak : c ≠ '\n' := by
        rintro rfl
        have hone : ('\n').utf8Size = 1 := rfl
        omega
      have hstarts : ∀ s ∈ lineStartsFrom x.size (c :: y), x.size + k < s := by
        intro s hs
        rw [lineStartsFrom, if_neg hbreak] at hs
        have hbound := (bounds_of_mem_lineStartsFrom hs).1
        omega
      have hbytes : (if '\n' ∈ x then (x.afterLast '\n').size else 0 + x.size) = (x.afterLast '\n').size := by
        split
        · rfl
        · rw [afterLast_of_notMem ‹_›, Nat.zero_add]
      have hstart := getLastD_lineStarts x
      rw [lookUp_append hlow (Nat.le_of_not_le hend) hstarts, slice?_inside (by omega) (by omega), Option.elim_none,
        lineColumn, lineColumnFrom_pass, lineColumnFrom, if_neg hk, if_pos (by omega), hbytes]
      have hcolumn : (x.afterLast '\n').size + k = x.size + k - (lineStarts x).getLastD 0 := by omega
      rw [hcolumn]

end Text

/-! ## Positions -/

namespace Excerpt

/-- An excerpt of a source that knows where it starts finds the positions that the source finds. -/
theorem position_slice {source css : Text} {a b : Nat} (file : Option String) (hcss : source.slice? a b = some css)
    {o : Nat} (ho : (css.splitAt? o).isSome = true) :
    Excerpt.position ⟨css, Excerpt.position ⟨source, .front, none⟩ a, file⟩ o =
      Excerpt.position ⟨source, .front, none⟩ (a + o) := by
  obtain ⟨x, y, hsource, rfl, -⟩ := Text.slice?_eq_some.1 hcss
  obtain ⟨⟨u, v⟩, hcut⟩ := Option.isSome_iff_exists.1 ho
  obtain ⟨rfl, rfl⟩ := Text.splitAt?_eq_some.1 hcut
  have hfront : source = x ++ (u ++ v ++ y) := by rw [hsource, List.append_assoc]
  have hthrough : source = (x ++ u) ++ (v ++ y) := by rw [hsource]; simp only [List.append_assoc]
  rw [position_behind rfl, position_behind hfront, ← Text.size_append, position_behind hthrough,
    Position.behind_append]

/-- A label on a place of a source, or past its end, is at the line and the column of the position there. -/
theorem position_label (text : Option String) (stop : Nat) {source : Text} {o : Nat}
    (ho : (source.splitAt? o).isSome = true ∨ source.size ≤ o) :
    (Label.over text o stop source).line = (Excerpt.position ⟨source, .front, none⟩ o).line ∧
      (Label.over text o stop source).column = (Excerpt.position ⟨source, .front, none⟩ o).column := by
  have hbetween : ∀ x y : Text, source = x ++ y → source.cursor x.size =
      ((Excerpt.position ⟨source, .front, none⟩ x.size).line, (Excerpt.position ⟨source, .front, none⟩ x.size).column) := by
    intro x y hsource
    rw [position_behind hsource, Position.front_behind, hsource, Text.cursor_append]
  have hcursor : source.cursor o =
      ((Excerpt.position ⟨source, .front, none⟩ o).line, (Excerpt.position ⟨source, .front, none⟩ o).column) := by
    rcases ho with ho | ho
    · obtain ⟨⟨x, y⟩, hcut⟩ := Option.isSome_iff_exists.1 ho
      obtain ⟨hsource, rfl⟩ := Text.splitAt?_eq_some.1 hcut
      exact hbetween x y hsource
    · rw [Text.cursor_of_size_le ho, hbetween source [] (List.append_nil source).symm]
      simp only [position, Text.lineColumn_of_size_le ho]
  rw [Label.over, hcursor]
  exact ⟨rfl, rfl⟩

/-- Positions are consistent. Where an excerpt that is cut out of a source at characters is told the position of its
front, each of its places has the position that the source has there. Lines and columns of a label are those of the
position, at each place between two characters or past the end. All of them are the ones of the table of lines. -/
theorem position_consistent (source : Text) :
    (∀ a b css, source.slice? a b = some css → ∀ file o, (css.splitAt? o).isSome = true →
        Excerpt.position ⟨css, Excerpt.position ⟨source, .front, none⟩ a, file⟩ o =
          Excerpt.position ⟨source, .front, none⟩ (a + o)) ∧
      (∀ o, (source.splitAt? o).isSome = true ∨ source.size ≤ o → ∀ text stop,
        (Label.over text o stop source).line = (Excerpt.position ⟨source, .front, none⟩ o).line ∧
          (Label.over text o stop source).column = (Excerpt.position ⟨source, .front, none⟩ o).column) ∧
      ∀ o, source.lineColumn o = source.lookUp o := by
  refine ⟨?_, ?_, source.lineColumn_eq_lookUp⟩
  · intro a b css hcss file o ho
    exact position_slice file hcss ho
  · intro o ho text stop
    exact position_label text stop ho

/-- An excerpt that starts and ends in the middle of lines of wide characters, places on both of its lines, and a place
past the end of the source. -/
theorem position_consistent_wide :
    let source : Text := "aé\nbé𝄞c\n".toList
    source.slice? 1 11 = some "é\nbé𝄞".toList ∧
      (Text.splitAt? "é\nbé𝄞".toList 2).isSome = true ∧ (Text.splitAt? "é\nbé𝄞".toList 6).isSome = true ∧
      Excerpt.position ⟨"é\nbé𝄞".toList, Excerpt.position ⟨source, .front, none⟩ 1, none⟩ 2 =
        Excerpt.position ⟨source, .front, none⟩ 3 ∧
      Excerpt.position ⟨source, .front, none⟩ 3 = ⟨3, 1, 3⟩ ∧
      Excerpt.position ⟨"é\nbé𝄞".toList, Excerpt.position ⟨source, .front, none⟩ 1, some "a.css"⟩ 6 =
        Excerpt.position ⟨source, .front, none⟩ 7 ∧
      Excerpt.position ⟨source, .front, none⟩ 7 = ⟨7, 2, 3⟩ ∧
      (Label.over none 20 21 source).line = (Excerpt.position ⟨source, .front, none⟩ 20).line ∧
      (Label.over none 20 21 source).line = 3 ∧ source.lookUp 8 = (2, 5) := by
  intro source
  have hcss : source.slice? 1 11 = some "é\nbé𝄞".toList := by decide +kernel
  have hfirst : (Text.splitAt? "é\nbé𝄞".toList 2).isSome = true := by decide +kernel
  have hsecond : (Text.splitAt? "é\nbé𝄞".toList 6).isSome = true := by decide +kernel
  obtain ⟨hslice, hlabel, htable⟩ := position_consistent source
  exact ⟨hcss, hfirst, hsecond, hslice 1 11 _ hcss none 2 hfirst, by decide +kernel,
    hslice 1 11 _ hcss (some "a.css") 6 hsecond, by decide +kernel,
    (hlabel 20 (.inr (by decide +kernel)) none 21).1, by decide +kernel,
    by rw [← htable]; decide +kernel⟩

end Excerpt
end TaggedStyles
