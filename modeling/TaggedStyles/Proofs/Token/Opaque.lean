import TaggedStyles.Proofs.Token.Outline

/-! Bodies of holes are opaque to reading. Every scan and every choice that reading makes is determined by
the outline of the text: each lemma here finds, for an outline, what is read of it, and shows that every
filling is read as the filling of just that. -/
namespace TaggedStyles
set_option autoImplicit false
open Outline

/-! ## Scanning -/

section
variable {holes : List Hole} {stop : Bool → Text → Bool} {i skip : Nat} {odd : Bool} {body t cs : Text} {d : Char}

theorem passHoles_of_before {n : Nat} (h : i + n ≤ skip) : passHoles holes n i skip = skip := by
  induction n generalizing i with
  | zero => rfl
  | succ n ih => rw [passHoles, if_pos (by omega), ih (by omega)]

theorem scan_pass (hd : d ≠ '\\') (h : i + Text.size (t ++ [d]) ≤ skip) :
    scan holes stop i skip odd (t ++ d :: cs) =
      (t ++ d :: (scan holes stop (i + Text.size (t ++ [d])) skip false cs).1,
        (scan holes stop (i + Text.size (t ++ [d])) skip false cs).2) := by
  induction t generalizing i odd with
  | nil =>
    have hpos := d.utf8Size_pos
    have hslash : (d == '\\') = false := by simpa using hd
    simp only [List.nil_append, Text.size_cons, Text.size_nil, Nat.add_zero] at h ⊢
    rw [scan, passHoles_of_before h]
    have hle : ¬ skip ≤ i := by omega
    simp [hle, hslash]
  | cons c t ih =>
    have hpos := c.utf8Size_pos
    have hsize : i + Text.size (c :: t ++ [d]) = i + c.utf8Size + Text.size (t ++ [d]) := by
      rw [List.cons_append, Text.size_cons, ← Nat.add_assoc]
    rw [hsize] at h ⊢
    have hle : ¬ skip ≤ i := by omega
    rw [List.cons_append, scan, passHoles_of_before (by omega)]
    simp [hle, ih h]

theorem scan_written (hat : Hole.lastAt? holes i = some (i + body.size + 2)) (hskip : skip ≤ i) :
    scan holes stop i skip odd (Hole.written body ++ cs) =
      (Hole.written body ++ (scan holes stop (i + (body.size + 3)) (i + (body.size + 3)) false cs).1,
        (scan holes stop (i + (body.size + 3)) (i + (body.size + 3)) false cs).2) := by
  have hdollar : ('$' : Char).utf8Size = 1 := by decide
  have hopen : ('\x7b' : Char).utf8Size = 1 := by decide
  have hclose : ('\x7d' : Char).utf8Size = 1 := by decide
  have hlt : ¬ i < skip := by omega
  have hpass : passHoles holes ('$' : Char).utf8Size i skip = i + (body.size + 3) := by
    rw [hdollar, passHoles, passHoles, if_neg hlt, hat]
    simp only [Option.map_some, Option.getD_some]
    omega
  have hle : ¬ i + (body.size + 3) ≤ i := by omega
  have hsize : i + 1 + Text.size ('\x7b' :: body ++ ['\x7d']) = i + (body.size + 3) := by
    rw [Text.size_append, Text.size_cons, Text.size_cons, Text.size_nil, hopen, hclose]
    omega
  have hrest := @scan_pass holes stop (i + 1) (i + (body.size + 3)) (('$' == '\\') && !odd) ('\x7b' :: body) cs
    '\x7d' (by decide) (by omega)
  rw [hsize] at hrest
  have htext : Hole.written body ++ cs = '$' :: ('\x7b' :: body ++ '\x7d' :: cs) := by simp [Hole.written]
  rw [htext, scan, hpass, hdollar, hrest]
  simp [hle, Hole.written]

end

/-- A condition that looks at two characters at most. -/
def Near (stop : Bool → Text → Bool) : Prop :=
  ∀ (odd : Bool) (c : Char) (t u : Text), t.head? = u.head? → stop odd (c :: t) = stop odd (c :: u)

namespace Outline

/-- How a scan that stops at a condition parts an outline, whatever its holes are filled with. -/
structure Scans (stop : Bool → Text → Bool) (odd : Bool) (o taken rest : Outline) : Prop where
  append : o = taken ++ rest
  slashes : (∀ odd cs, stop odd ('\\' :: cs) = true) → .char '\\' ∉ taken
  stops : rest = [] ∨ ∃ c more odd', rest = .char c :: more ∧ ∀ bodies, stop odd' (c :: fill bodies more) = true
  scan : ∀ {bodies : Nat → Text} {holes : List Hole} {i skip : Nat}, Places bodies holes i o → skip ≤ i →
    scan holes stop i skip odd (fill bodies o) = (fill bodies taken, fill bodies rest)

theorem exists_scans {stop : Bool → Text → Bool} (hnear : Near stop) (odd : Bool) (o : Outline) :
    ∃ taken rest, Scans stop odd o taken rest := by
  induction o generalizing odd with
  | nil => exact ⟨[], [], rfl, by simp, .inl rfl, fun _ _ => rfl⟩
  | cons x o ih =>
    cases x with
    | hole n =>
      obtain ⟨taken, rest, happ, hslashes, hstops, hscan⟩ := ih false
      refine ⟨.hole n :: taken, rest, by rw [happ, List.cons_append], fun h => by simpa using hslashes h, hstops, ?_⟩
      intro bodies holes i skip hplaces hskip
      rw [fill_hole, scan_written hplaces.1 hskip, hscan hplaces.2 (Nat.le_refl _), fill_hole]
    | char c =>
      have hsame : ∀ bodies, stop odd (c :: fill bodies o) = stop odd (c :: fill (fun _ => []) o) := fun bodies =>
        hnear odd c _ _ (head?_fill.trans head?_fill.symm)
      by_cases hstop : stop odd (c :: fill (fun _ => []) o) = true
      · have hall : ∀ bodies, stop odd (c :: fill bodies o) = true := fun bodies => (hsame bodies).trans hstop
        refine ⟨[], .char c :: o, rfl, by simp, .inr ⟨c, o, odd, rfl, hall⟩, ?_⟩
        intro bodies holes i skip hplaces hskip
        rw [fill_char, TaggedStyles.scan, passHoles_of_none hplaces.1, hall]
        simp [hskip]
      · have hnone : ∀ bodies, stop odd (c :: fill bodies o) = false := fun bodies =>
          (hsame bodies).trans (by simpa using hstop)
        obtain ⟨taken, rest, happ, hslashes, hstops, hscan⟩ := ih (c == '\\' && !odd)
        refine ⟨.char c :: taken, rest, by rw [happ, List.cons_append], fun h => ?_, hstops, ?_⟩
        · have hc : c ≠ '\\' := by
            rintro rfl
            exact Bool.false_ne_true ((hnone fun _ => []).symm.trans (h odd _))
          simpa [hc.symm] using hslashes h
        · intro bodies holes i skip hplaces hskip
          rw [fill_char, TaggedStyles.scan, passHoles_of_none hplaces.1, hnone, hscan hplaces.2 (by omega)]
          simp

/-! ## Lexemes -/

/-- A lexeme of an outline, with what follows. -/
structure Part where
  kind : Token.Kind
  text : Outline
  rest : Outline

def Part.fill (bodies : Nat → Text) (l : Part) : Lexeme where
  kind := l.kind
  text := Outline.fill bodies l.text
  rest := Outline.fill bodies l.rest

/-- A part leads from one place of an outline to another, of which no hole is escaped behind it. -/
structure Part.Of (o : Outline) (l : Part) : Prop where
  append : o = l.text ++ l.rest
  text_ne_nil : l.text ≠ []
  unescaped : UnescapedFrom false l.rest

theorem Part.of_last {o : Outline} {l : Part} {x : Cell} (hu : UnescapedFrom false o) (happ : o = l.text ++ l.rest)
    (hlast : l.text.getLast? = some x) (hx : x ≠ .char '\\') : l.Of o := by
  refine ⟨happ, fun hnil => ?_, ?_⟩
  · rw [hnil] at hlast
    cases hlast
  · rw [happ, unescapedFrom_append, oddAfter_of_last hlast hx] at hu
    exact hu.2

/-- What is found at the front of an outline. -/
inductive Found where
  | nothing
  | part (l : Part)
  | blocked (cause : Cause)

def Found.fill (bodies : Nat → Text) : Found → Except Blocked (Option Lexeme)
  | nothing => .ok none
  | part l => .ok (some (l.fill bodies))
  | blocked cause => .error (.unclosed cause)

/-! ### Through a closing mark -/

section
variable {kind : Token.Kind} {stop : Bool → Text → Bool} {opening mark : Text}

/-- The condition holds in front of the mark only. -/
def Marks (stop : Bool → Text → Bool) (mark : Text) : Prop :=
  ∀ odd c more, (∀ bodies, stop odd (c :: fill bodies more) = true) → ∃ rest, .char c :: more = plain mark ++ rest

theorem exists_through (hnear : Near stop) (hmarks : Marks stop mark) (kind : Token.Kind) (opening : Text)
    (o : Outline) :
    ∃ found : Option Part,
      (∀ l ∈ found, plain opening ++ o = l.text ++ l.rest ∧ ∃ front, l.text = front ++ plain mark) ∧
      ∀ {bodies : Nat → Text} {holes : List Hole} {i : Nat}, Places bodies holes i o →
        Lexeme.through? kind holes stop mark.length opening i (fill bodies o) = found.map (Part.fill bodies) := by
  obtain ⟨taken, rest, happ, -, hstops, hscan⟩ := exists_scans hnear false o
  rcases hstops with rfl | ⟨c, more, odd', rfl, hall⟩
  · refine ⟨none, by simp, ?_⟩
    intro bodies holes i hplaces
    rw [Lexeme.through?, hscan hplaces (Nat.zero_le i)]
    rfl
  · obtain ⟨behind, hbehind⟩ := hmarks odd' c more hall
    refine ⟨some ⟨kind, plain opening ++ taken ++ plain mark, behind⟩, ?_, ?_⟩
    · intro l hl
      obtain rfl := Option.some.inj hl
      exact ⟨by rw [happ, hbehind]; simp only [List.append_assoc], _, rfl⟩
    · intro bodies holes i hplaces
      have hne : fill bodies (.char c :: more) ≠ [] := by simp
      have hfill : fill bodies (.char c :: more) = mark ++ fill bodies behind := by
        rw [hbehind, fill_append, fill_plain]
      rw [Lexeme.through?, hscan hplaces (Nat.zero_le i)]
      simp only [List.isEmpty_iff, hne, if_false]
      rw [hfill, List.take_left, List.drop_left]
      simp [Part.fill]

/-- What strict reading makes of a search for a closing mark. -/
def closedOr (cause : Cause) : Option Lexeme → Except Blocked (Option Lexeme)
  | some l => .ok (some l)
  | none => .error (.unclosed cause)

theorem exists_closed (hnear : Near stop) (hmarks : Marks stop mark) (hmark : mark ≠ []) (hlast : '\\' ∉ mark)
    (kind : Token.Kind) (cause : Cause) {o : Outline} (hu : UnescapedFrom false (plain opening ++ o)) :
    ∃ found : Found, found ≠ .nothing ∧ (∀ l, found = .part l → l.Of (plain opening ++ o)) ∧
      ∀ {bodies : Nat → Text} {holes : List Hole} {i : Nat}, Places bodies holes i o →
        closedOr cause (Lexeme.through? kind holes stop mark.length opening i (fill bodies o)) =
          found.fill bodies := by
  obtain ⟨found, hfound, hthrough⟩ := exists_through hnear hmarks kind opening o
  cases found with
  | none =>
    refine ⟨.blocked cause, nofun, nofun, fun hplaces => ?_⟩
    rw [hthrough hplaces]
    rfl
  | some l =>
    refine ⟨.part l, nofun, fun l' hl' => ?_, fun hplaces => ?_⟩
    · cases hl'
      obtain ⟨happ, front, hfront⟩ := hfound l rfl
      have hmem := List.getLast_mem hmark
      refine Part.of_last (x := .char (mark.getLast hmark)) hu happ ?_ ?_
      · rw [hfront, plain, List.getLast?_append, List.getLast?_map, List.getLast?_eq_some_getLast hmark]
        rfl
      · rintro heq
        exact hlast (Cell.char.inj heq ▸ hmem)
    · rw [hthrough hplaces]
      rfl

end

theorem near_atClass (p : Char → Bool) : Near (atClass p) := fun _ _ _ _ _ => rfl

theorem near_atUnescaped (mark : Char) : Near (atUnescaped mark) := fun _ _ _ _ _ => rfl

theorem isPrefixOf_pair (a b c : Char) (t : Text) : [a, b].isPrefixOf (c :: t) = (a == c && t.head? == some b) := by
  cases t with
  | nil => simp [List.isPrefixOf]
  | cons d t =>
    have hsome : (some d == some b) = (b == d) := BEq.comm
    rw [List.head?_cons, hsome]
    simp [List.isPrefixOf]

theorem near_atText (a b : Char) : Near (atText [a, b]) := by
  intro odd c t u h
  simp only [atText, isPrefixOf_pair, h]

theorem near_atWordEnd : Near atWordEnd := by
  intro odd c t u h
  simp only [atWordEnd, isPrefixOf_pair, h]

theorem marks_atClass (mark : Char) : Marks (atClass (· == mark)) [mark] := by
  intro odd c more h
  have hc : c = mark := by simpa [atClass] using h fun _ => []
  exact ⟨more, by rw [hc]; rfl⟩

theorem marks_atUnescaped (mark : Char) : Marks (atUnescaped mark) [mark] := by
  intro odd c more h
  have hc : c = mark := by
    have hand := h fun _ => []
    rw [atUnescaped, Bool.and_eq_true, beq_iff_eq] at hand
    exact hand.1
  exact ⟨more, by rw [hc]; rfl⟩

theorem marks_atText (a : Char) {b : Char} (hb : b ≠ '$') : Marks (atText [a, b]) [a, b] := by
  intro odd c more h
  have hand := h fun _ => []
  rw [atText, isPrefixOf_pair, Bool.and_eq_true, beq_iff_eq, beq_iff_eq, head?_fill_eq_some hb] at hand
  obtain ⟨rfl, hhead⟩ := hand
  obtain ⟨rest, rfl⟩ := List.head?_eq_some_iff.1 hhead
  exact ⟨rest, rfl⟩

/-! ### Words -/

theorem exists_upTo {stop : Bool → Text → Bool} (hnear : Near stop)
    (hstops : ∀ odd cs, stop odd ('\\' :: cs) = true) {c : Char} (hc : c ≠ '\\') {o : Outline}
    (hu : UnescapedFrom false (.char c :: o)) (kind : Token.Kind) :
    ∃ l : Part, l.kind = kind ∧ l.Of (.char c :: o) ∧
      ∀ {bodies : Nat → Text} {holes : List Hole} {i : Nat}, Places bodies holes i (.char c :: o) →
        c :: (scan holes stop (i + c.utf8Size) 0 false (fill bodies o)).1 = fill bodies l.text ∧
        (scan holes stop (i + c.utf8Size) 0 false (fill bodies o)).2 = fill bodies l.rest := by
  obtain ⟨taken, rest, happ, hslashes, -, hscan⟩ := exists_scans hnear false o
  have hmem : ∀ x ∈ Cell.char c :: taken, x ≠ .char '\\' := by
    intro x hx heq
    subst heq
    cases List.mem_cons.1 hx with
    | inl heq => exact hc (Cell.char.inj heq).symm
    | inr hx => exact hslashes hstops hx
  refine ⟨⟨kind, .char c :: taken, rest⟩, rfl, ?_, ?_⟩
  · refine Part.of_last hu (by rw [happ, List.cons_append]) (List.getLast?_eq_some_getLast (List.cons_ne_nil _ _)) ?_
    exact hmem _ (List.getLast_mem _)
  · intro bodies holes i hplaces
    rw [hscan hplaces.2 (Nat.zero_le _)]
    exact ⟨rfl, rfl⟩

theorem exists_word {x : Cell} (hx : x ≠ .char '\\') {o : Outline} (hu : UnescapedFrom false (x :: o)) :
    ∃ l : Part, l.Of (x :: o) ∧
      ∀ {bodies : Nat → Text} {holes : List Hole} {i : Nat} {c : Char} {cs : Text}, fill bodies (x :: o) = c :: cs →
        Places bodies holes i (x :: o) → Lexeme.word holes i c cs = .ok (l.fill bodies) := by
  cases x with
  | hole n =>
    refine ⟨⟨.word, [.hole n], o⟩, Part.of_last hu rfl rfl nofun, ?_⟩
    intro bodies holes i c cs hcs hplaces
    have hc : c.utf8Size = 1 := by
      rw [← (List.cons.inj (show '$' :: _ = c :: cs from hcs)).1]
      decide
    have hsize : max (i + (bodies n).size + 2 + 1 - i) c.utf8Size = (Hole.written (bodies n)).size := by
      rw [Hole.size_written, hc]
      omega
    rw [Lexeme.word, hplaces.1]
    simp only
    rw [hsize, ← hcs, fill_hole, Text.splitAt?_append]
    simp [Part.fill]
  | char d =>
    obtain ⟨l, hk, hof, hscan⟩ := exists_upTo near_atWordEnd atWordEnd_backslash (fun hd => hx (hd ▸ rfl)) hu .word
    refine ⟨l, hof, ?_⟩
    intro bodies holes i c cs hcs hplaces
    rw [fill_char] at hcs
    obtain ⟨rfl, rfl⟩ := List.cons.inj hcs
    have hpos := d.utf8Size_pos
    have hskip : passHoles holes (d.utf8Size - 1) (i + 1) 0 = 0 :=
      passHoles_of_none fun j hle hlt => hplaces.1 j (by omega) (by omega)
    obtain ⟨htaken, hrest⟩ := hscan hplaces
    rw [Lexeme.word, hplaces.1 i (Nat.le_refl i) (by omega)]
    simp only [hskip]
    rw [Part.fill, hk, ← htaken, ← hrest]

/-! ### Backslashes -/

theorem oddAfter_slashes {odd : Bool} {t : Text} (ht : ∀ c ∈ t, c = '\\') :
    oddAfter odd (plain t) = (odd ^^ decide (t.length % 2 = 1)) := by
  induction t generalizing odd with
  | nil => simp [plain, oddAfter]
  | cons c t ih =>
    obtain rfl := ht c List.mem_cons_self
    have hmore : oddAfter odd (plain ('\\' :: t)) = oddAfter ('\\' == '\\' && !odd) (plain t) := rfl
    rw [hmore, ih fun d hd => ht d (List.mem_cons_of_mem _ hd), List.length_cons]
    cases odd <;> rcases Nat.mod_two_eq_zero_or_one t.length with h | h <;> simp [Nat.add_mod, h]

/-- A word of backslashes goes on with what the last of them escapes. -/
def escaped (first : Text) (c : Char) (more : Text) : Lexeme :=
  if isHexDigit c then
    match more.dropWhile isHexDigit with
    | ' ' :: rest => ⟨.word, first ++ c :: more.takeWhile isHexDigit ++ [' '], rest⟩
    | rest => ⟨.word, first ++ c :: more.takeWhile isHexDigit, rest⟩
  else ⟨.word, first ++ [c], more⟩

theorem exists_escaped {c : Char} (hc : c ≠ '\\') (o : Outline) :
    ∃ extra rest, .char c :: o = extra ++ rest ∧ (∃ x, extra.getLast? = some x ∧ x ≠ .char '\\') ∧
      ∀ bodies first, escaped first c (fill bodies o) = ⟨.word, first ++ fill bodies extra, fill bodies rest⟩ := by
  by_cases hhex : isHexDigit c = true
  · obtain ⟨digits, rest, rfl, hdigits, -, hspan⟩ := span_fill isHexDigit (by decide) o
    by_cases hspace : rest.head? = some (.char ' ')
    · obtain ⟨rest, rfl⟩ := List.head?_eq_some_iff.1 hspace
      refine ⟨.char c :: plain digits ++ [.char ' '], rest, by simp, ⟨_, List.getLast?_concat, by decide⟩, ?_⟩
      intro bodies first
      obtain ⟨htake, hdrop⟩ := hspan bodies
      rw [escaped, if_pos hhex, htake, hdrop]
      simp
    · have hplain : ∀ y ∈ Cell.char c :: plain digits, y ≠ .char '\\' := by
        rintro y hy rfl
        have hmem : '\\' ∈ c :: digits := by simpa [plain] using hy
        have hall : ∀ d ∈ c :: digits, isHexDigit d = true := by simpa [hhex] using hdigits
        exact absurd (hall _ hmem) (by decide)
      refine ⟨.char c :: plain digits, rest, rfl,
        ⟨_, List.getLast?_eq_some_getLast (List.cons_ne_nil _ _), hplain _ (List.getLast_mem _)⟩, ?_⟩
      intro bodies first
      obtain ⟨htake, hdrop⟩ := hspan bodies
      have hnone : (fill bodies rest).head? ≠ some ' ' := mt (head?_fill_eq_some (by decide)).1 hspace
      rw [escaped, if_pos hhex, htake, hdrop]
      split
      · rename_i heq
        rw [heq] at hnone
        exact absurd rfl hnone
      · simp
  · refine ⟨[.char c], o, rfl, ⟨_, rfl, fun heq => hc (Cell.char.inj heq)⟩, fun bodies first => ?_⟩
    rw [escaped, if_neg hhex]
    rfl

theorem exists_escape {o : Outline} (hu : UnescapedFrom false (.char '\\' :: o)) :
    ∃ l : Part, l.Of (.char '\\' :: o) ∧ ∀ bodies, Lexeme.escape (fill bodies o) = l.fill bodies := by
  obtain ⟨run, tail, rfl, hrun, hhead, hspan⟩ := span_fill (· == '\\') (by decide) o
  have hslashes : ∀ c ∈ '\\' :: run, c = '\\' := by simpa using hrun
  have hafter := (unescapedFrom_append.1 (show UnescapedFrom false (plain ('\\' :: run) ++ tail) from hu)).2
  rw [oddAfter_slashes hslashes, Bool.false_xor, List.length_cons] at hafter
  have hend : ∀ bodies, fill bodies tail = [] →
      Lexeme.escape (fill bodies (plain run ++ tail)) = ⟨.word, '\\' :: run, []⟩ := by
    intro bodies htail
    obtain ⟨htake, hdrop⟩ := hspan bodies
    rw [Lexeme.escape, htake, hdrop, htail]
  have hnext : ∀ bodies c more, fill bodies tail = c :: more →
      Lexeme.escape (fill bodies (plain run ++ tail)) =
        if run.length % 2 = 1 || c == '/' || isSpace c then ⟨.word, '\\' :: run, c :: more⟩
        else escaped ('\\' :: run) c more := by
    intro bodies c more htail
    obtain ⟨htake, hdrop⟩ := hspan bodies
    rw [Lexeme.escape, htake, hdrop, htail]
    rfl
  -- If nothing is escaped, what follows is neither a backslash nor an escaped hole.
  have hbare : UnescapedFrom false tail →
      Part.Of (.char '\\' :: (plain run ++ tail)) ⟨.word, plain ('\\' :: run), tail⟩ := fun htail =>
    ⟨rfl, by simp [plain], htail⟩
  cases tail with
  | nil => exact ⟨_, hbare trivial, fun bodies => by rw [hend bodies rfl]; simp [Part.fill]⟩
  | cons x more =>
    cases x with
    | hole n =>
      have hodd : run.length % 2 = 1 := by
        have heven := hafter.1
        rw [decide_eq_false_iff_not] at heven
        omega
      refine ⟨_, hbare ⟨rfl, hafter.2⟩, fun bodies => ?_⟩
      rw [hnext bodies _ _ fill_hole]
      simp [Part.fill, hodd, Hole.written]
    | char c =>
      have hslash : (c == '\\') = false := hhead _ rfl
      by_cases hstop : (run.length % 2 = 1 || c == '/' || isSpace c) = true
      · refine ⟨_, hbare ?_, fun bodies => ?_⟩
        · rw [UnescapedFrom, hslash, Bool.false_and] at hafter ⊢
          exact hafter
        · rw [hnext bodies c (fill bodies more) rfl]
          simp only [fill_char, hstop, if_true, Part.fill, fill_plain]
      · obtain ⟨extra, rest, happ, ⟨x, hlast, hx⟩, hfill⟩ := exists_escaped (by simpa using hslash) more
        refine ⟨⟨.word, plain ('\\' :: run) ++ extra, rest⟩, Part.of_last hu ?_ ?_ hx, fun bodies => ?_⟩
        · rw [happ]
          simp [plain]
        · rw [List.getLast?_append, hlast, Option.some_or]
        · rw [hnext bodies c (fill bodies more) rfl]
          simp only [hstop, hfill, Part.fill, fill_append, fill_plain]
          rfl

/-! ### Brackets -/

section
variable {holes : List Hole} {before : Option Char} {i skip : Nat} {body t cs : Text}

theorem isBroken_pass (h : i + t.size ≤ skip) :
    Lexeme.isBroken holes before i skip (t ++ cs) = Lexeme.isBroken holes before (i + t.size) skip cs := by
  induction t generalizing i with
  | nil => rfl
  | cons c t ih =>
    have hpos := c.utf8Size_pos
    rw [Text.size_cons, ← Nat.add_assoc] at h
    rw [List.cons_append, Lexeme.isBroken, if_pos (by omega), ih h, Text.size_cons, Nat.add_assoc]

theorem isBroken_written (hat : Hole.lastAt? holes i = some (i + body.size + 2)) (hskip : skip ≤ i) :
    Lexeme.isBroken holes before i skip (Hole.written body ++ cs) =
      Lexeme.isBroken holes (some '\x7d') (i + (body.size + 3)) (i + (body.size + 3)) cs := by
  have hdollar : ('$' : Char).utf8Size = 1 := by decide
  have hwritten := Hole.size_written body
  rw [Hole.written, Text.size_cons, hdollar] at hwritten
  have hsize : i + 1 + Text.size ('\x7b' :: (body ++ ['\x7d'])) = i + (body.size + 3) := by omega
  have hlast : i + body.size + 2 + 1 = i + (body.size + 3) := by omega
  have hlt : ¬ i < skip := by omega
  rw [Hole.written, List.cons_append, Lexeme.isBroken, if_neg hlt, hat, hdollar]
  simp only [hlast]
  rw [isBroken_pass (Nat.le_of_eq hsize), hsize]

end

theorem exists_isBroken (before : Option Char) (o : Outline) :
    ∃ broken, ∀ {bodies : Nat → Text} {holes : List Hole} {i skip : Nat}, Places bodies holes i o → skip ≤ i →
      Lexeme.isBroken holes before i skip (fill bodies o) = broken := by
  induction o generalizing before with
  | nil => exact ⟨false, fun _ _ => rfl⟩
  | cons x o ih =>
    cases x with
    | char c =>
      obtain ⟨broken, hbroken⟩ := ih (some c)
      refine ⟨(breaksBrackets c && before.any (!isLineEnd ·)) || broken, ?_⟩
      intro bodies holes i skip hplaces hskip
      have hpos := c.utf8Size_pos
      have hlt : ¬ i < skip := by omega
      rw [fill_char, Lexeme.isBroken, if_neg hlt, hplaces.1 i (Nat.le_refl i) (by omega)]
      simp only
      rw [hbroken hplaces.2 (by omega)]
    | hole n =>
      obtain ⟨broken, hbroken⟩ := ih (some '\x7d')
      refine ⟨broken, ?_⟩
      intro bodies holes i skip hplaces hskip
      rw [fill_hole, isBroken_written hplaces.1 hskip, hbroken hplaces.2 (Nat.le_refl _)]

theorem exists_group {o : Outline} (hu : UnescapedFrom false (.char '(' :: o)) :
    ∃ l : Part, l.Of (.char '(' :: o) ∧
      ∀ {bodies : Nat → Text} {holes : List Hole} {i : Nat}, Places bodies holes i (.char '(' :: o) →
        Lexeme.group holes i (fill bodies o) = l.fill bodies := by
  have hopen : Part.Of (.char '(' :: o) ⟨.openParen, [.char '('], o⟩ := Part.of_last hu rfl rfl (by decide)
  obtain ⟨found, hfound, hthrough⟩ :=
    exists_through (near_atClass (· == ')')) (marks_atClass ')') .brackets ['('] o
  cases found with
  | none =>
    refine ⟨_, hopen, ?_⟩
    intro bodies holes i hplaces
    have hnone : Lexeme.through? .brackets holes (atClass (· == ')')) 1 ['('] (i + 1) (fill bodies o) = none :=
      hthrough hplaces.2
    rw [Lexeme.group, hnone]
    rfl
  | some l =>
    obtain ⟨happ, front, hfront⟩ := hfound l rfl
    obtain ⟨broken, hbroken⟩ := exists_isBroken none l.text
    have hsome : ∀ {bodies : Nat → Text} {holes : List Hole} {i : Nat}, Places bodies holes i (.char '(' :: o) →
        Lexeme.through? .brackets holes (atClass (· == ')')) 1 ['('] (i + 1) (fill bodies o) =
          some (l.fill bodies) ∧
        Lexeme.isBroken holes none i 0 (fill bodies l.text) = broken := by
      intro bodies holes i hplaces
      refine ⟨hthrough hplaces.2, hbroken ?_ (Nat.zero_le i)⟩
      rw [show Cell.char '(' :: o = l.text ++ l.rest from happ, places_append] at hplaces
      exact hplaces.1
    cases broken with
    | true =>
      refine ⟨_, hopen, ?_⟩
      intro bodies holes i hplaces
      obtain ⟨hl, hb⟩ := hsome hplaces
      rw [Lexeme.group, hl]
      simp only [Part.fill, hb]
      rfl
    | false =>
      refine ⟨l, Part.of_last hu happ (x := .char ')') (by simp [hfront, plain]) (by decide), ?_⟩
      intro bodies holes i hplaces
      obtain ⟨hl, hb⟩ := hsome hplaces
      rw [Lexeme.group, hl]
      simp only [Part.fill, hb]
      rfl

/-! ### The first token -/

section
variable {holes : List Hole} {lenient : Bool} {word : Text} {i : Nat} {c : Char} {cs : Text}

theorem first_space (h : isSpace c = true) :
    Lexeme.first holes lenient word i (c :: cs) = .ok (some (Lexeme.spaces (c :: cs))) := by
  simp only [Lexeme.first, h, if_true]

theorem first_mark {kind : Token.Kind} (h : Lexeme.IsMark kind c) (hc : c ≠ '(') :
    Lexeme.first holes lenient word i (c :: cs) = .ok (some ⟨kind, [c], cs⟩) := by
  simp only [Lexeme.IsMark, List.mem_cons, Prod.mk.injEq, List.not_mem_nil, or_false] at h
  rcases h with ⟨rfl, rfl⟩ | ⟨rfl, rfl⟩ | ⟨rfl, rfl⟩ | ⟨rfl, rfl⟩ | ⟨rfl, rfl⟩ | ⟨rfl, rfl⟩ | ⟨rfl, rfl⟩ | ⟨rfl, rfl⟩ <;>
    first
    | exact absurd rfl hc
    | rfl

/-- What starts with no mark, no quote and neither an at-sign, a backslash nor a comment is a word. -/
theorem first_word (hspace : isSpace c = false) (hmark : ¬∃ kind, Lexeme.IsMark kind c)
    (hquote : ¬(c = '\'' ∨ c = '"')) (hat : c ≠ '@') (hslash : c ≠ '\\')
    (hcomment : c = '/' → cs.head? ≠ some '*') :
    Lexeme.first holes lenient word i (c :: cs) = some <$> Lexeme.word holes i c cs := by
  simp only [Lexeme.first, hspace, Bool.false_eq_true, if_false]
  split
  iterate 8 exact absurd (by simp [Lexeme.IsMark]) hmark
  iterate 2 exact absurd (by simp) hquote
  · exact absurd rfl hat
  · exact absurd rfl hslash
  · split
    · exact absurd rfl (hcomment rfl)
    · rfl

end

theorem opensAddress_fill (bodies bodies' : Nat → Text) (w o : Outline) :
    Lexeme.opensAddress (fill bodies w) (fill bodies o) = Lexeme.opensAddress (fill bodies' w) (fill bodies' o) := by
  have hurl : ∀ bodies, fill bodies w = "url".toList ↔ w = plain "url".toList := fun _ => fill_eq_iff (by decide)
  have hword : (fill bodies w == "url".toList) = (fill bodies' w == "url".toList) := by
    rw [Bool.eq_iff_iff, beq_iff_eq, beq_iff_eq, hurl, hurl]
  rw [Lexeme.opensAddress, Lexeme.opensAddress, hword, head?_fill, head?_fill]

/-- What reading finds at the front of an outline when `w` is the outline of the last word. -/
structure Finds (w o : Outline) (found : Found) : Prop where
  nothing : found = .nothing → o = []
  part : ∀ l, found = .part l → l.Of o
  first : ∀ {bodies : Nat → Text} {holes : List Hole} {i : Nat}, Places bodies holes i o →
    Lexeme.first holes false (fill bodies w) i (fill bodies o) = found.fill bodies

section
variable {w o : Outline} {c : Char}

theorem finds_part {l : Part} (hof : l.Of o) (hfirst : ∀ {bodies : Nat → Text} {holes : List Hole} {i : Nat},
    Places bodies holes i o →
      Lexeme.first holes false (fill bodies w) i (fill bodies o) = .ok (some (l.fill bodies))) :
    Finds w o (.part l) := by
  refine ⟨nofun, fun l' hl' => ?_, fun hplaces => hfirst hplaces⟩
  cases hl'
  exact hof

theorem finds_hole (n : Nat) (hu : UnescapedFrom false (.hole n :: o)) : ∃ found, Finds w (.hole n :: o) found := by
  obtain ⟨l, hof, hword⟩ := exists_word (x := .hole n) nofun hu
  refine ⟨.part l, finds_part hof ?_⟩
  intro bodies holes i hplaces
  obtain ⟨cs, hcs⟩ : ∃ cs, fill bodies (.hole n :: o) = '$' :: cs := ⟨_, rfl⟩
  have hdollar : '$' = '/' → cs.head? ≠ some '*' := fun h => absurd h (by decide)
  rw [hcs, first_word (by decide) (by simp [Lexeme.IsMark]) (by decide) (by decide) (by decide) hdollar,
    hword hcs hplaces]
  rfl

theorem finds_spaces (hc : isSpace c = true) (hu : UnescapedFrom false (.char c :: o)) :
    ∃ found, Finds w (.char c :: o) found := by
  obtain ⟨t, rest, hsplit, ht, -, hspan⟩ := span_fill isSpace (by decide) (.char c :: o)
  have hne : t ≠ [] := by
    have htake := (hspan fun _ => []).1
    rw [fill_char, List.takeWhile_cons_of_pos hc] at htake
    rw [← htake]
    exact List.cons_ne_nil _ _
  refine ⟨.part ⟨.space, plain t, rest⟩, finds_part (Part.of_last (x := .char (t.getLast hne)) hu hsplit ?_ ?_) ?_⟩
  · rw [plain, List.getLast?_map, List.getLast?_eq_some_getLast hne]
    rfl
  · intro heq
    have hlast := ht _ (List.getLast_mem hne)
    rw [Cell.char.inj heq] at hlast
    exact absurd hlast (by decide)
  · intro bodies holes i hplaces
    obtain ⟨htake, hdrop⟩ := hspan bodies
    rw [fill_char, first_space hc, Lexeme.spaces, ← fill_char, htake, hdrop]
    simp [Part.fill]

theorem finds_mark {kind : Token.Kind} (hk : Lexeme.IsMark kind c) (hc : c ≠ '(')
    (hu : UnescapedFrom false (.char c :: o)) : ∃ found, Finds w (.char c :: o) found := by
  have hslash : c ≠ '\\' := by
    rintro rfl
    simp [Lexeme.IsMark] at hk
  refine ⟨.part ⟨kind, [.char c], o⟩, finds_part (Part.of_last hu rfl rfl fun heq => hslash (Cell.char.inj heq)) ?_⟩
  intro bodies holes i hplaces
  rw [fill_char, first_mark hk hc]
  rfl

theorem finds_closed (kind : Token.Kind) (cause : Cause) (opening : Text) {stop : Bool → Text → Bool} {mark : Text}
    (hnear : Near stop) (hmarks : Marks stop mark) (hmark : mark ≠ []) (hlast : '\\' ∉ mark)
    (hu : UnescapedFrom false (plain opening ++ o))
    (hfirst : ∀ {bodies : Nat → Text} {holes : List Hole} {i : Nat},
      Lexeme.first holes false (fill bodies w) i (opening ++ fill bodies o) =
        closedOr cause (Lexeme.through? kind holes stop mark.length opening (i + opening.size) (fill bodies o))) :
    ∃ found, Finds w (plain opening ++ o) found := by
  obtain ⟨found, hsome, hpart, hclosed⟩ := exists_closed hnear hmarks hmark hlast kind cause hu
  refine ⟨found, fun hnone => absurd hnone hsome, hpart, ?_⟩
  intro bodies holes i hplaces
  rw [places_append, fill_plain] at hplaces
  rw [fill_append, fill_plain, hfirst, hclosed hplaces.2]

theorem finds_paren (hu : UnescapedFrom false (.char '(' :: o)) : ∃ found, Finds w (.char '(' :: o) found := by
  have hfirst : ∀ {bodies : Nat → Text} {holes : List Hole} {i : Nat},
      Lexeme.first holes false (fill bodies w) i ('(' :: fill bodies o) =
        if Lexeme.opensAddress (fill bodies w) (fill bodies o) then
          some <$> Lexeme.address holes false i (fill bodies o)
        else .ok (some (Lexeme.group holes i (fill bodies o))) := rfl
  have haddress := fun bodies => opensAddress_fill bodies (fun _ => []) w o
  cases hopens : Lexeme.opensAddress (fill (fun _ => []) w) (fill (fun _ => []) o) with
  | true =>
    refine finds_closed .brackets .unclosedBracket ['('] (near_atUnescaped ')') (marks_atUnescaped ')') (by simp)
      (by decide) hu ?_
    intro bodies holes i
    rw [List.singleton_append, hfirst, haddress, hopens, if_pos rfl, Lexeme.address]
    have hone : Text.size ['('] = 1 := by decide
    rw [hone, List.length_singleton]
    cases Lexeme.through? .brackets holes (atUnescaped ')') 1 ['('] (i + 1) (fill bodies o) <;> rfl
  | false =>
    obtain ⟨l, hof, hgroup⟩ := exists_group hu
    refine ⟨.part l, finds_part hof ?_⟩
    intro bodies holes i hplaces
    rw [fill_char, hfirst, haddress, hopens, hgroup hplaces]
    rfl

theorem finds_quote (hc : c = '\'' ∨ c = '"') (hu : UnescapedFrom false (.char c :: o)) :
    ∃ found, Finds w (.char c :: o) found := by
  have hslash : '\\' ∉ [c] := by rcases hc with rfl | rfl <;> decide
  have hone : Text.size [c] = 1 := by rcases hc with rfl | rfl <;> decide
  refine finds_closed .string .unclosedString [c] (near_atUnescaped c) (marks_atUnescaped c) (by simp) hslash hu ?_
  intro bodies holes i
  rw [List.singleton_append, Lexeme.first_quote hc, Lexeme.string, hone, List.length_singleton]
  cases Lexeme.through? .string holes (atUnescaped c) 1 [c] (i + 1) (fill bodies o) <;> rfl

theorem finds_comment (hu : UnescapedFrom false (.char '/' :: .char '*' :: o)) :
    ∃ found, Finds w (.char '/' :: .char '*' :: o) found := by
  refine finds_closed .comment .unclosedComment ['/', '*'] (near_atText '*' '/') (marks_atText '*' (by decide))
    (by simp) (by decide) hu ?_
  intro bodies holes i
  have htwo : Text.size ['/', '*'] = 2 := by decide
  have hfirst : Lexeme.first holes false (fill bodies w) i (['/', '*'] ++ fill bodies o) =
      some <$> Lexeme.comment holes false i (fill bodies o) := rfl
  have hlen : ['*', '/'].length = 2 := rfl
  rw [hfirst, Lexeme.comment, htwo, hlen]
  cases Lexeme.through? .comment holes (atText ['*', '/']) 2 ['/', '*'] (i + 2) (fill bodies o) <;> rfl

theorem exists_finds (w : Outline) {o : Outline} (hu : UnescapedFrom false o) : ∃ found, Finds w o found := by
  rcases o with _ | ⟨⟨c⟩ | n, o⟩
  · exact ⟨.nothing, fun _ => rfl, nofun, fun _ => rfl⟩
  · by_cases hspace : isSpace c = true
    · exact finds_spaces hspace hu
    by_cases hparen : c = '('
    · subst hparen
      exact finds_paren hu
    by_cases hmark : ∃ kind, Lexeme.IsMark kind c
    · obtain ⟨kind, hk⟩ := hmark
      exact finds_mark hk hparen hu
    by_cases hquote : c = '\'' ∨ c = '"'
    · exact finds_quote hquote hu
    by_cases hat : c = '@'
    · subst hat
      obtain ⟨l, hk, hof, hscan⟩ := exists_upTo (near_atClass endsAtWord) atWordName_backslash (by decide) hu .atWord
      refine ⟨.part l, finds_part hof ?_⟩
      intro bodies holes i hplaces
      obtain ⟨htaken, hrest⟩ := hscan hplaces
      rw [Part.fill, hk, ← htaken, ← hrest]
      rfl
    by_cases hslash : c = '\\'
    · subst hslash
      obtain ⟨l, hof, hescape⟩ := exists_escape hu
      refine ⟨.part l, finds_part hof ?_⟩
      intro bodies holes i hplaces
      rw [← hescape bodies]
      rfl
    by_cases hcomment : c = '/' ∧ o.head? = some (.char '*')
    · obtain ⟨rfl, hstar⟩ := hcomment
      obtain ⟨o, rfl⟩ := List.head?_eq_some_iff.1 hstar
      exact finds_comment hu
    obtain ⟨l, hof, hword⟩ := exists_word (x := .char c) (fun heq => hslash (Cell.char.inj heq)) hu
    refine ⟨.part l, finds_part hof ?_⟩
    intro bodies holes i hplaces
    have hnot : c = '/' → (fill bodies o).head? ≠ some '*' := by
      intro hc hstar
      exact hcomment ⟨hc, (head?_fill_eq_some (by decide)).1 hstar⟩
    rw [fill_char, first_word (by simpa using hspace) hmark hquote hat hslash hnot, hword fill_char hplaces]
    rfl
  · exact finds_hole n hu

end

end Outline
end TaggedStyles
