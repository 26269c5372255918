import Mathlib.Data.List.Pairwise
import Mathlib.Data.List.TakeWhile
import TaggedStyles.Proofs.Token.Tiling

/-! Holes are read whole. If each hole has its marks and no backslash escapes it, no token starts or ends
inside a hole: a scan jumps over the holes it meets, a word that starts at a hole is that hole, and
backslashes in a row stay together. -/
namespace TaggedStyles
set_option autoImplicit false

/-! ## Holes with their marks -/

/-- The number of backslashes that a text ends with. -/
def backslashesAtEnd (t : Text) : Nat := (t.reverse.takeWhile (· == '\\')).length

theorem backslashesAtEnd_append {before run : Text} (hrun : ∀ c ∈ run, c = '\\')
    (hlast : before.getLast? ≠ some '\\') :
    backslashesAtEnd (before ++ run) = run.length := by
  have hall : ∀ c ∈ run.reverse, (c == '\\') = true := fun c hc => by simpa using hrun c (List.mem_reverse.1 hc)
  unfold backslashesAtEnd
  rw [List.reverse_append, List.takeWhile_append_of_pos hall]
  cases hrev : before.reverse with
  | nil => simp
  | cons d ds =>
    rw [List.getLast?_eq_head?_reverse, hrev] at hlast
    have hd : (d == '\\') = false := by simpa using hlast
    simp [hd]

namespace Hole

/-- From its dollar sign to its closing brace, and not escaped. -/
structure Marked (text : Text) (h : Hole) : Prop where
  opens : text.slice? h.start (h.start + 2) = some ['$', '\x7b']
  closes : text.slice? h.last (h.last + 1) = some ['\x7d']
  order : h.start + 2 ≤ h.last
  unescaped : backslashesAtEnd ((text.slice? 0 h.start).getD []) % 2 = 0

instance (text : Text) (h : Hole) : Decidable (h.Marked text) :=
  decidable_of_iff
    (text.slice? h.start (h.start + 2) = some ['$', '\x7b'] ∧ text.slice? h.last (h.last + 1) = some ['\x7d'] ∧
      h.start + 2 ≤ h.last ∧ backslashesAtEnd ((text.slice? 0 h.start).getD []) % 2 = 0)
    ⟨fun h => ⟨h.1, h.2.1, h.2.2.1, h.2.2.2⟩, fun h => ⟨h.opens, h.closes, h.order, h.unescaped⟩⟩

/-- The holes of a text: marked and apart from each other. -/
structure Proper (text : Text) (holes : List Hole) : Prop where
  marked : ∀ h ∈ holes, h.Marked text
  apart : holes.Pairwise fun g h => g.last < h.start ∨ h.last < g.start

instance (text : Text) (holes : List Hole) : Decidable (Proper text holes) :=
  decidable_of_iff
    ((∀ h ∈ holes, h.Marked text) ∧ holes.Pairwise fun g h => g.last < h.start ∨ h.last < g.start)
    ⟨fun h => ⟨h.1, h.2⟩, fun h => ⟨h.marked, h.apart⟩⟩

variable {text before cs : Text} {holes : List Hole} {h g : Hole} {c : Char} {i last p : Nat}

theorem Marked.opening (hm : h.Marked text) : ∃ a b, text = a ++ '$' :: '\x7b' :: b ∧ a.size = h.start ∧
    backslashesAtEnd a % 2 = 0 := by
  obtain ⟨a, b, htext, ha, -⟩ := Text.slice?_eq_some.1 hm.opens
  have hfront : text.slice? 0 h.start = some a :=
    Text.slice?_eq_some.2 ⟨[], ['$', '\x7b'] ++ b, by rw [htext]; simp, rfl, by omega⟩
  have hunescaped := hm.unescaped
  rw [hfront, Option.getD_some] at hunescaped
  exact ⟨a, b, by rw [htext]; simp, ha, hunescaped⟩

theorem Marked.closing (hm : h.Marked text) : ∃ a b, text = a ++ '\x7d' :: b ∧ a.size = h.last := by
  obtain ⟨a, b, htext, ha, -⟩ := Text.slice?_eq_some.1 hm.closes
  exact ⟨a, b, by rw [htext]; simp, ha⟩

theorem Marked.last_lt (hm : h.Marked text) : h.last < text.size := by
  obtain ⟨a, b, rfl, ha⟩ := hm.closing
  have hpos := ('\x7d' : Char).utf8Size_pos
  rw [Text.size_append, Text.size_cons]
  omega

theorem Marked.of_start (hm : h.Marked text) (htext : text = before ++ cs) (hsize : before.size = h.start) :
    (∃ more, cs = '$' :: '\x7b' :: more) ∧ backslashesAtEnd before % 2 = 0 := by
  obtain ⟨a, b, hab, ha, hunescaped⟩ := hm.opening
  obtain ⟨rfl, rfl⟩ := Text.append_inj_of_size (htext.symm.trans hab) (hsize.trans ha.symm)
  exact ⟨⟨b, rfl⟩, hunescaped⟩

theorem Marked.mem_of_start {m rest : Text} (hm : h.Marked text) (htext : text = before ++ m ++ rest)
    (hle : before.size ≤ h.start) (hlt : h.start < before.size + m.size) :
    ∃ u v, m = u ++ '$' :: v ∧ before.size + u.size = h.start ∧ backslashesAtEnd (before ++ u) % 2 = 0 := by
  obtain ⟨a, b, ha, hsize, hunescaped⟩ := hm.opening
  rw [ha, List.append_assoc] at htext
  obtain ⟨u, rfl, hu⟩ := Text.exists_between htext.symm (by omega)
  rw [Text.size_append] at hsize
  obtain ⟨v, hv, -⟩ := Text.exists_between hu.symm (by omega)
  cases v with
  | nil =>
    have hsame := congrArg Text.size hv
    simp only [List.append_nil] at hsame
    omega
  | cons d v =>
    subst hv
    rw [List.append_assoc] at hu
    obtain ⟨rfl, -⟩ := List.cons.inj (List.append_cancel_left hu)
    exact ⟨u, v, rfl, hsize, hunescaped⟩

theorem Proper.eq_of_meet (hp : Proper text holes) (hg : g ∈ holes) (hh : h ∈ holes) (h1 : g.start ≤ h.last)
    (h2 : h.start ≤ g.last) : g = h := by
  by_cases heq : g = h
  · exact heq
  · have hsymm : Std.Symm fun g h : Hole => g.last < h.start ∨ h.last < g.start := ⟨fun _ _ => Or.symm⟩
    have hapart := hp.apart.forall hg hh heq
    omega

theorem lastAt?_eq_some (hl : lastAt? holes i = some last) : ∃ h ∈ holes, h.start = i ∧ h.last = last := by
  have hmem := List.min?_mem hl
  obtain ⟨h, hh, hlast⟩ := List.mem_filterMap.1 hmem
  split at hlast
  · exact ⟨h, hh, ‹_›, Option.some.inj hlast⟩
  · simp at hlast

theorem lastAt?_of_unique (hh : h ∈ holes) (hone : ∀ g ∈ holes, g.start = h.start → g = h) :
    lastAt? holes h.start = some h.last := by
  cases hl : lastAt? holes h.start with
  | none =>
    have hnil := List.min?_eq_none_iff.1 hl
    have hmem : h.last ∈ holes.filterMap fun k => if k.start = h.start then some k.last else none :=
      List.mem_filterMap.2 ⟨h, hh, if_pos rfl⟩
    rw [hnil] at hmem
    cases hmem
  | some last =>
    obtain ⟨g, hg, hstart, hlast⟩ := lastAt?_eq_some hl
    rw [← hlast, hone g hg hstart]

theorem Proper.lastAt?_start (hp : Proper text holes) (hh : h ∈ holes) :
    lastAt? holes h.start = some h.last := by
  refine lastAt?_of_unique hh fun g hg hstart => ?_
  have horder := (hp.marked g hg).order
  have horder' := (hp.marked h hh).order
  exact hp.eq_of_meet hg hh (by omega) (by omega)

theorem Proper.all_fit (hp : Proper text holes) : holes.filter (fits text.size) = holes := by
  refine List.filter_eq_self.2 fun h hh => ?_
  have horder := (hp.marked h hh).order
  have hlt := (hp.marked h hh).last_lt
  simp only [fits, Bool.and_eq_true, decide_eq_true_eq]
  omega

/-! ## Places outside holes -/

/-- No hole reaches over this place. -/
def Whole (holes : List Hole) (p : Nat) : Prop := ∀ h ∈ holes, h.start < p → h.last < p

/-- A place outside holes that is not between two backslashes. -/
structure Clear (text : Text) (holes : List Hole) (p : Nat) : Prop where
  whole : Whole holes p
  run : ∀ a b, text = a ++ b → a.size = p → a.getLast? = some '\\' → b.head? ≠ some '\\'

/-- A place outside holes from which no odd run of backslashes leads up to a hole. -/
structure Free (text : Text) (holes : List Hole) (p : Nat) : Prop where
  whole : Whole holes p
  even : ∀ a run b, text = a ++ run ++ b → a.size = p → (∀ c ∈ run, c = '\\') → run.length % 2 = 1 →
    ∀ h ∈ holes, h.start ≠ p + run.size

/-- A clear place is not between two backslashes, so those from there on are all that stand in front of a hole. -/
theorem Proper.free_of_clear (hp : Proper text holes) (hclear : Clear text holes p) : Free text holes p := by
  refine ⟨hclear.whole, fun a run b htext ha hrun hodd h hh hstart => ?_⟩
  have hunescaped := ((hp.marked h hh).of_start htext (by rw [Text.size_append, ha, hstart])).2
  have hlast : a.getLast? ≠ some '\\' := by
    intro hslash
    refine hclear.run a (run ++ b) (by rw [htext, List.append_assoc]) ha hslash ?_
    cases run with
    | nil => simp at hodd
    | cons c run => rw [hrun c List.mem_cons_self, List.cons_append, List.head?_cons]
  rw [backslashesAtEnd_append hrun hlast] at hunescaped
  omega

theorem Proper.whole_append {m rest : Text} (hp : Proper text holes) (htext : text = before ++ m ++ rest)
    (hw : Whole holes before.size) (hm : '$' ∉ m) : Whole holes (before.size + m.size) := by
  intro h hh hlt
  by_cases hle : before.size ≤ h.start
  · obtain ⟨u, v, rfl, -⟩ := (hp.marked h hh).mem_of_start htext hle hlt
    exact absurd (by simp) hm
  · have hlast := hw h hh (by omega)
    omega

theorem Proper.whole_end (hp : Proper text holes) :
    Whole holes text.size := fun h hh _ => (hp.marked h hh).last_lt

theorem clear_of_whole {m rest : Text} (htext : text = before ++ m ++ rest)
    (hw : Whole holes (before.size + m.size)) (hne : m ≠ [])
    (hlast : m.getLast? = some '\\' → rest.head? ≠ some '\\') :
    Clear text holes (before.size + m.size) := by
  refine ⟨hw, fun a b hab ha => ?_⟩
  obtain ⟨rfl, rfl⟩ := Text.append_inj_of_size (hab.symm.trans htext) (by rw [ha, Text.size_append])
  rw [List.getLast?_append]
  rw [List.getLast?_eq_some_getLast hne] at hlast ⊢
  exact hlast

end Hole

/-! ## Scanning -/

section
variable {text before cs : Text} {holes : List Hole} {c : Char} {skip : Nat}

/-- Where a scan stands: each hole that started is over or about to be passed, and only holes are passed. -/
structure ScanAt (holes : List Hole) (before : Text) (skip : Nat) : Prop where
  passed : ∀ h ∈ holes, h.start < before.size → h.last < max before.size skip
  skipping : skip = 0 ∨ ∃ g ∈ holes, g.start < before.size ∧ skip = g.last + 1

theorem ScanAt.start (hw : Hole.Whole holes before.size) : ScanAt holes before 0 :=
  ⟨fun h hh hlt => Nat.lt_of_lt_of_le (hw h hh hlt) (Nat.le_max_left ..), .inl rfl⟩

theorem ScanAt.whole (h : ScanAt holes before skip) (hle : skip ≤ before.size) :
    Hole.Whole holes before.size := by
  intro k hk hlt
  have hpassed := h.passed k hk hlt
  rwa [Nat.max_eq_left hle] at hpassed

theorem passHoles_of_none {n i : Nat} (h : ∀ j, i ≤ j → j < i + n → Hole.lastAt? holes j = none) :
    passHoles holes n i skip = skip := by
  induction n generalizing i with
  | zero => rfl
  | succ n ih =>
    rw [passHoles, h i (Nat.le_refl i) (by omega), Option.map_none, Option.getD_none, ite_self]
    exact ih fun j hj hlt => h j (by omega) (by omega)

theorem Hole.Proper.lastAt?_none (hp : Hole.Proper text holes) (htext : text = before ++ c :: cs) {j : Nat}
    (hlt : before.size < j) (hj : j < before.size + c.utf8Size) : Hole.lastAt? holes j = none := by
  cases hl : Hole.lastAt? holes j with
  | none => rfl
  | some last =>
    obtain ⟨h, hh, rfl, -⟩ := Hole.lastAt?_eq_some hl
    have hsplit : text = before ++ [c] ++ cs := by rw [htext, List.append_assoc]; rfl
    have hsize : Text.size [c] = c.utf8Size := rfl
    obtain ⟨u, v, hu, hstart, -⟩ := (hp.marked h hh).mem_of_start hsplit (by omega) (by omega)
    cases u with
    | nil =>
      rw [Text.size_nil] at hstart
      omega
    | cons d u => simp at hu

theorem Hole.Proper.passHoles_char (hp : Hole.Proper text holes) (htext : text = before ++ c :: cs) :
    passHoles holes c.utf8Size before.size skip =
      if before.size < skip then skip else ((Hole.lastAt? holes before.size).map (· + 1)).getD skip := by
  have hpos := c.utf8Size_pos
  obtain ⟨n, hn⟩ : ∃ n, c.utf8Size = n + 1 := ⟨c.utf8Size - 1, by omega⟩
  rw [hn, passHoles, passHoles_of_none]
  intro j hj hlt
  exact hp.lastAt?_none htext (by omega) (by omega)

theorem ScanAt.step (hp : Hole.Proper text holes) (htext : text = before ++ c :: cs)
    (h : ScanAt holes before skip) :
    ScanAt holes (before ++ [c]) (passHoles holes c.utf8Size before.size skip) ∧
      skip ≤ max before.size (passHoles holes c.utf8Size before.size skip) := by
  have hpos := c.utf8Size_pos
  have hsize : (before ++ [c]).size = before.size + c.utf8Size := by simp
  rw [hp.passHoles_char htext]
  -- A hole that starts here cannot start in one that is being passed.
  have hhere : ∀ k ∈ holes, k.start = before.size → ¬ before.size < skip := by
    intro k hk hstart hlt
    have horder := (hp.marked k hk).order
    rcases h.skipping with rfl | ⟨g, hg, hgs, rfl⟩
    · omega
    · have hsame := hp.eq_of_meet hg hk (by omega) (by omega)
      subst hsame
      omega
  have hold : ∀ k ∈ holes, k.start < before.size + c.utf8Size → k.start ≤ before.size := by
    intro k hk hlt
    by_cases hgt : before.size < k.start
    · have hnone := hp.lastAt?_none htext hgt hlt
      rw [hp.lastAt?_start hk] at hnone
      cases hnone
    · omega
  split
  · rename_i hlt
    refine ⟨⟨fun k hk hks => ?_, ?_⟩, by omega⟩
    · rw [hsize] at hks ⊢
      have hle := hold k hk hks
      by_cases heq : k.start = before.size
      · exact absurd hlt (hhere k hk heq)
      · have hpassed := h.passed k hk (by omega)
        omega
    · rcases h.skipping with hzero | ⟨g, hg, hgs, hskip⟩
      · exact .inl hzero
      · exact .inr ⟨g, hg, by omega, hskip⟩
  · rename_i hge
    cases hl : Hole.lastAt? holes before.size with
    | none =>
      rw [Option.map_none, Option.getD_none]
      refine ⟨⟨fun k hk hks => ?_, ?_⟩, by omega⟩
      · rw [hsize] at hks ⊢
        have hle := hold k hk hks
        by_cases heq : k.start = before.size
        · rw [← heq, hp.lastAt?_start hk] at hl
          cases hl
        · have hpassed := h.passed k hk (by omega)
          omega
      · rcases h.skipping with hzero | ⟨g, hg, hgs, hskip⟩
        · exact .inl hzero
        · exact .inr ⟨g, hg, by omega, hskip⟩
    | some last =>
      rw [Option.map_some, Option.getD_some]
      obtain ⟨g, hg, hgs, rfl⟩ := Hole.lastAt?_eq_some hl
      refine ⟨⟨fun k hk hks => ?_, .inr ⟨g, hg, by omega, rfl⟩⟩, by omega⟩
      rw [hsize] at hks ⊢
      have hle := hold k hk hks
      by_cases heq : k.start = before.size
      · have horder := (hp.marked g hg).order
        have horder' := (hp.marked k hk).order
        rw [hp.eq_of_meet hg hk (by omega) (by omega)]
        omega
      · have hpassed := h.passed k hk (by omega)
        omega

/-- A scan ends outside holes. -/
theorem scan_whole {stop : Bool → Text → Bool} {odd : Bool} (hp : Hole.Proper text holes)
    (htext : text = before ++ cs) (h : ScanAt holes before skip) :
    Hole.Whole holes (before.size + (scan holes stop before.size skip odd cs).1.size) := by
  induction cs generalizing before skip odd with
  | nil =>
    have hall := hp.whole_end
    rw [htext, List.append_nil] at hall
    simpa [scan] using hall
  | cons c cs ih =>
    obtain ⟨hstep, hskip⟩ := h.step hp htext
    simp only [scan]
    split
    · rename_i hstop
      rw [Bool.and_eq_true, decide_eq_true_eq] at hstop
      simpa using h.whole (by omega)
    · have hmore := @ih (before ++ [c]) _ (c == '\\' && !odd) (by rw [htext, List.append_assoc]; rfl) hstep
      have hsize : (before ++ [c]).size = before.size + c.utf8Size := by simp
      rw [hsize, Nat.add_assoc] at hmore
      exact hmore

theorem scan_run {stop : Bool → Text → Bool} {odd : Bool} (hp : Hole.Proper text holes)
    (htext : text = before ++ cs) (h : ScanAt holes before skip)
    (hstops : ∀ odd cs, stop odd ('\\' :: cs) = true)
    (hlast : before.getLast? = some '\\' → before.size < skip)
    (hne : (scan holes stop before.size skip odd cs).2 ≠ []) :
    (before ++ (scan holes stop before.size skip odd cs).1).getLast? ≠ some '\\' := by
  induction cs generalizing before skip odd with
  | nil => simp [scan] at hne
  | cons c cs ih =>
    obtain ⟨hstep, hskip⟩ := h.step hp htext
    have hsize : (before ++ [c]).size = before.size + c.utf8Size := by simp
    simp only [scan] at hne ⊢
    split at hne
    · rename_i hstop
      rw [if_pos hstop]
      rw [Bool.and_eq_true, decide_eq_true_eq] at hstop
      intro hslash
      have hlt := hlast (by simpa using hslash)
      omega
    · rename_i hstop
      rw [if_neg hstop]
      rw [← hsize] at hne ⊢
      have hmore := ih (by rw [htext, List.append_assoc]; rfl) hstep (fun hslash => ?_) hne
      · rwa [List.append_assoc] at hmore
      · -- The scan did not stop here, so this is in a hole, and not its last character.
        obtain rfl : c = '\\' := by simpa using hslash
        rw [hstops, Bool.and_true, decide_eq_true_eq] at hstop
        rcases hstep.skipping with hzero | ⟨g, hg, hgs, hgl⟩
        · omega
        · have hone : ('\\' : Char).utf8Size = 1 := by decide
          obtain ⟨a, b, hab, ha⟩ := (hp.marked g hg).closing
          by_cases heq : g.last = before.size
          · obtain ⟨-, hbad⟩ := Text.append_inj_of_size (hab.symm.trans htext) (by omega)
            simp at hbad
          · omega

end

/-! ## Tokens -/

theorem atWordEnd_backslash (odd : Bool) (cs : Text) : atWordEnd odd ('\\' :: cs) = true := by
  have h : endsWord '\\' = true := by decide
  rw [atWordEnd, h, Bool.true_or]

theorem atWordName_backslash (odd : Bool) (cs : Text) : atClass endsAtWord odd ('\\' :: cs) = true := by
  have h : endsAtWord '\\' = true := by decide
  rw [atClass, h]

namespace Hole.Proper
variable {text before cs : Text} {holes : List Hole} {c : Char} {l : Lexeme}

theorem clear_append {m rest : Text} (hp : Proper text holes) (htext : text = before ++ m ++ rest)
    (hw : Whole holes before.size) (hm : '$' ∉ m) (hne : m ≠ []) (hlast : m.getLast? ≠ some '\\') :
    Clear text holes (before.size + m.size) :=
  clear_of_whole htext (hp.whole_append htext hw hm) hne fun h => absurd h hlast

theorem clear_through {kind : Token.Kind} {stop : Bool → Text → Bool} {n : Nat} {opening mark : Text}
    (hp : Proper text holes) (htext : text = before ++ (opening ++ cs)) (hw : Whole holes before.size)
    (hopening : '$' ∉ opening) (hmark : '$' ∉ mark) (hne : mark ≠ []) (hlast : mark.getLast? ≠ some '\\')
    (hstop : ∀ odd rest, stop odd rest = true → rest.take n = mark)
    (h : Lexeme.through? kind holes stop n opening (before.size + opening.size) cs = some l) :
    Clear text holes (before.size + l.text.size) := by
  obtain ⟨hrest, rfl⟩ := Lexeme.through?_eq_some h
  obtain ⟨odd, hat⟩ := scan_stops hrest
  have htake := hstop odd _ hat
  have hall := scan_append holes stop (before.size + opening.size) 0 false cs
  have hsplit : text = before ++ opening ++ cs := by rw [htext, List.append_assoc]
  have hopened := hp.whole_append hsplit hw hopening
  have hsize : before.size + opening.size = (before ++ opening).size := (Text.size_append before opening).symm
  rw [hsize] at htake hall hopened ⊢
  have hscanned := @scan_whole text (before ++ opening) cs holes 0 stop false hp hsplit (.start hopened)
  generalize scan holes stop (before ++ opening).size 0 false cs = found at htake hall hscanned ⊢
  obtain ⟨taken, rest⟩ := found
  simp only at htake hall hscanned ⊢
  rw [← Text.size_append] at hscanned
  have htext' : text = (before ++ opening ++ taken) ++ mark ++ rest.drop n := by
    rw [hsplit, ← hall, ← htake]
    simp
  have hclear := hp.clear_append htext' hscanned hmark hne hlast
  rw [htake]
  simpa [Nat.add_assoc] using hclear

theorem clear_upTo {stop : Bool → Text → Bool} (hp : Proper text holes) (htext : text = before ++ c :: cs)
    (hw : Whole holes (before ++ [c]).size) (hc : c ≠ '\\') (hstops : ∀ odd cs, stop odd ('\\' :: cs) = true) :
    Clear text holes
      (before.size + Text.size (c :: (scan holes stop (before.size + c.utf8Size) 0 false cs).1)) := by
  have hsplit : text = before ++ [c] ++ cs := by rw [htext, List.append_assoc]; rfl
  have hsize : before.size + c.utf8Size = (before ++ [c]).size := by simp
  have hall := scan_append holes stop (before.size + c.utf8Size) 0 false cs
  rw [hsize] at hall ⊢
  have hscanned := @scan_whole text (before ++ [c]) cs holes 0 stop false hp hsplit (.start hw)
  have hrun := @scan_run text (before ++ [c]) cs holes 0 stop false hp hsplit (.start hw) hstops
    (fun h => absurd (by simpa using h) hc)
  generalize scan holes stop (before ++ [c]).size 0 false cs = found at hall hscanned hrun ⊢
  obtain ⟨taken, rest⟩ := found
  simp only at hall hscanned hrun ⊢
  have htext' : text = before ++ (c :: taken) ++ rest := by rw [htext, ← hall]; simp
  refine clear_of_whole htext' ?_ (by simp) fun hlast hhead => ?_
  · rwa [← hsize, Nat.add_assoc] at hscanned
  · have hne : rest ≠ [] := by
      rintro rfl
      simp at hhead
    refine hrun hne ?_
    rw [List.append_assoc, List.getLast?_append, List.singleton_append, hlast, Option.some_or]

/-- Some backslashes and at most one character behind them that can be part of a hole. -/
theorem escape_cases (cs : Text) : ∃ run extra rest, cs = run ++ (extra ++ rest) ∧ (∀ c ∈ run, c = '\\') ∧
    (Lexeme.escape cs).text = '\\' :: run ++ extra ∧ (extra ++ rest).head? ≠ some '\\' ∧
    (extra = [] ∨ run.length % 2 = 0 ∧ ∃ c more, extra = c :: more ∧ '$' ∉ more ∧ '\\' ∉ more) := by
  have hsplit : cs = cs.takeWhile (· == '\\') ++ cs.dropWhile (· == '\\') :=
    List.takeWhile_append_dropWhile.symm
  have hrun : ∀ c ∈ cs.takeWhile (· == '\\'), c = '\\' := fun c hc => by simpa using List.mem_takeWhile_imp hc
  have hhead : (cs.dropWhile (· == '\\')).head? ≠ some '\\' := fun h => by
    have hnot := List.head?_dropWhile_not (· == '\\') cs
    rw [h] at hnot
    simp at hnot
  unfold Lexeme.escape
  generalize cs.takeWhile (· == '\\') = run at hsplit hrun ⊢
  generalize cs.dropWhile (· == '\\') = tail at hsplit hhead ⊢
  simp only
  split
  · exact ⟨run, [], [], hsplit, hrun, by simp, by simp, .inl rfl⟩
  · rename_i c more
    split
    · exact ⟨run, [], c :: more, hsplit, hrun, by simp, hhead, .inl rfl⟩
    · rename_i hodd
      have heven : run.length % 2 = 0 := by
        simp only [Bool.or_eq_true, not_or, decide_eq_true_eq] at hodd
        omega
      split
      · have hdigits : ∀ d ∈ more.takeWhile isHexDigit, isHexDigit d = true :=
          fun d hd => List.mem_takeWhile_imp hd
        have hmore : more = more.takeWhile isHexDigit ++ more.dropWhile isHexDigit :=
          List.takeWhile_append_dropWhile.symm
        have hdollar : '$' ∉ more.takeWhile isHexDigit := fun h => absurd (hdigits _ h) (by decide)
        have hslash : '\\' ∉ more.takeWhile isHexDigit := fun h => absurd (hdigits _ h) (by decide)
        split
        · rename_i rest hrest
          rw [hrest] at hmore
          refine ⟨run, c :: more.takeWhile isHexDigit ++ [' '], rest, ?_, hrun, by simp, by simpa using hhead,
            .inr ⟨heven, c, more.takeWhile isHexDigit ++ [' '], rfl, by simp [hdollar], by simp [hslash]⟩⟩
          rw [hsplit]
          simp [← hmore]
        · refine ⟨run, c :: more.takeWhile isHexDigit, more.dropWhile isHexDigit, ?_, hrun, by simp,
            by simpa using hhead, .inr ⟨heven, c, _, rfl, hdollar, hslash⟩⟩
          rw [hsplit]
          simp
      · exact ⟨run, [c], more, hsplit, hrun, rfl, hhead, .inr ⟨heven, c, [], rfl, by simp, by simp⟩⟩

theorem clear_escape (hp : Proper text holes) (htext : text = before ++ '\\' :: cs)
    (hfree : Free text holes before.size) :
    Clear text holes (before.size + (Lexeme.escape cs).text.size) := by
  obtain ⟨run, extra, rest, hcs, hrun, hescape, hhead, hextra⟩ := escape_cases cs
  have hfirst : ∀ c ∈ '\\' :: run, c = '\\' := by simpa using hrun
  have hdollar : '$' ∉ '\\' :: run := fun h => absurd (hfirst _ h) (by decide)
  have hsplit : text = before ++ ('\\' :: run ++ extra) ++ rest := by
    rw [htext, hcs]
    simp
  rw [hescape]
  rcases hextra with rfl | ⟨heven, c, more, rfl, hdollar', hslash⟩
  · simp only [List.append_nil] at hsplit ⊢
    exact clear_of_whole hsplit (hp.whole_append hsplit hfree.whole hdollar) (by simp) fun _ => hhead
  · refine clear_of_whole hsplit (fun h hh hlt => ?_) (by simp) fun hlast => ?_
    · by_cases hle : before.size ≤ h.start
      · -- The hole starts behind an odd number of backslashes.
        obtain ⟨u, v, huv, hstart, -⟩ := (hp.marked h hh).mem_of_start hsplit hle hlt
        have hu : u = '\\' :: run := by
          rcases List.append_eq_append_iff.1 huv with ⟨w, hu, hw⟩ | ⟨w, hu, hw⟩
          · cases w with
            | nil => rw [hu, List.append_nil]
            | cons d w =>
              obtain ⟨rfl, rfl⟩ := List.cons.inj hw
              exact absurd (by simp) hdollar'
          · cases w with
            | nil => rw [hu, List.append_nil]
            | cons d w =>
              obtain ⟨rfl, -⟩ := List.cons.inj hw
              exact absurd (by rw [hu]; simp) hdollar
        subst hu
        refine absurd hstart.symm (hfree.even before ('\\' :: run) (c :: more ++ rest) ?_ rfl hfirst ?_ h hh)
        · rw [hsplit]
          simp
        · rw [List.length_cons]
          omega
      · have hlast := hfree.whole h hh (by omega)
        omega
    · have hc : c ≠ '\\' := fun hc => hhead (by simp [hc])
      rw [List.getLast?_append, List.getLast?_eq_some_getLast (List.cons_ne_nil c more), Option.some_or] at hlast
      have hmem := List.getLast_mem (List.cons_ne_nil c more)
      rw [Option.some.inj hlast] at hmem
      rcases List.mem_cons.1 hmem with hc' | hmem
      · exact absurd hc'.symm hc
      · exact absurd hmem hslash

theorem clear_hole {h : Hole} (hp : Proper text holes) (hh : h ∈ holes) : Clear text holes (h.last + 1) := by
  refine ⟨fun g hg hlt => ?_, fun a b hab ha hlast => ?_⟩
  · by_cases hlast : g.last < h.last + 1
    · exact hlast
    · have horder := (hp.marked h hh).order
      rw [hp.eq_of_meet hg hh (by omega) (by omega)]
      exact Nat.lt_succ_self _
  · obtain ⟨u, v, huv, hu⟩ := (hp.marked h hh).closing
    have hone : ('\x7d' : Char).utf8Size = 1 := by decide
    have hsplit : text = u ++ ['\x7d'] ++ v := by rw [huv, List.append_assoc]; rfl
    obtain ⟨rfl, -⟩ := Text.append_inj_of_size (hab.symm.trans hsplit) (by simp [ha, hu, hone])
    simp at hlast

theorem clear_one (hp : Proper text holes) (htext : text = before ++ c :: cs) (hdollar : c ≠ '$') (hslash : c ≠ '\\')
    (hw : Whole holes before.size) : Clear text holes (before.size + c.utf8Size) := by
  have hsplit : text = before ++ [c] ++ cs := by rw [htext, List.append_assoc]; rfl
  exact hp.clear_append hsplit hw (by simpa using hdollar.symm) (by simp) (by simpa using hslash)

/-- A word: the hole that it starts at, or what stands in front of the end of a word, holes passed over. -/
theorem clear_word (hp : Proper text holes) (htext : text = before ++ c :: cs) (hslash : c ≠ '\\')
    (hw : Whole holes before.size) (h : Lexeme.word holes before.size c cs = .ok l) :
    Clear text holes (before.size + l.text.size) := by
  rcases Lexeme.word_cases h with ⟨last, word, rest, hlast, rfl, hcut⟩ | ⟨hnone, skip, hskip, rfl⟩
  · obtain ⟨g, hg, hstart, rfl⟩ := lastAt?_eq_some hlast
    have horder := (hp.marked g hg).order
    have hsize := (Text.splitAt?_eq_some.1 hcut).2
    have hsplit : text = before ++ [c] ++ cs := by rw [htext, List.append_assoc]; rfl
    have hpos := c.utf8Size_pos
    have hlen : Text.size [c] = c.utf8Size := rfl
    obtain ⟨u, v, hu, -, -⟩ := (hp.marked g hg).mem_of_start hsplit (by omega) (by omega)
    have hc : c.utf8Size = 1 := by
      cases u with
      | nil =>
        obtain ⟨rfl, -⟩ := List.cons.inj hu
        decide
      | cons d u => simp at hu
    have hend : before.size + word.size = g.last + 1 := by omega
    rw [hend]
    exact hp.clear_hole hg
  · have hzero : skip = 0 := by
      rw [hskip]
      exact passHoles_of_none fun j hj hlt => hp.lastAt?_none htext (by omega) (by omega)
    subst hzero
    refine hp.clear_upTo htext (fun g hg hlt => ?_) hslash atWordEnd_backslash
    have hsize : (before ++ [c]).size = before.size + c.utf8Size := by simp
    have hsome := hp.lastAt?_start hg
    by_cases heq : g.start = before.size
    · rw [heq, hnone] at hsome
      cases hsome
    · by_cases hgt : before.size < g.start
      · rw [hp.lastAt?_none htext hgt (by omega)] at hsome
        cases hsome
      · have hover := hw g hg (by omega)
        omega

/-- Behind every token the text is clear again. -/
theorem clear_reads (hp : Proper text holes) (htext : text = before ++ cs) (hfree : Free text holes before.size)
    (hreads : Lexeme.Reads holes false before.size cs l) : Clear text holes (before.size + l.text.size) := by
  have hclosing : ∀ odd rest, atClass (· == ')') odd rest = true → rest.take 1 = [')'] := by
    intro odd rest h
    cases rest <;> simp_all [atClass]
  have hunescaped : ∀ mark odd rest, atUnescaped mark odd rest = true → rest.take 1 = [mark] := by
    intro mark odd rest h
    cases rest <;> simp_all [atUnescaped]
  have htextual : ∀ odd rest, atText ['*', '/'] odd rest = true → rest.take 2 = ['*', '/'] := by
    intro odd rest h
    obtain ⟨more, rfl⟩ := List.isPrefixOf_iff_prefix.1 h
    rfl
  cases hreads with
  | @spaces c cs hspace =>
    have hall : ∀ d ∈ (c :: cs).takeWhile isSpace, isSpace d = true := fun d hd => List.mem_takeWhile_imp hd
    have hsplit : text = before ++ (c :: cs).takeWhile isSpace ++ (c :: cs).dropWhile isSpace := by
      rw [htext, List.append_assoc, List.takeWhile_append_dropWhile]
    have hne : (c :: cs).takeWhile isSpace ≠ [] := by simp [hspace]
    refine hp.clear_append hsplit hfree.whole (fun h => absurd (hall _ h) (by decide)) hne fun h => ?_
    exact absurd (hall _ (List.mem_of_getLast? h)) (by decide)
  | @mark kind c cs hmark =>
    have hc : c ≠ '$' ∧ c ≠ '\\' := by
      simp only [Lexeme.IsMark, List.mem_cons, Prod.mk.injEq, List.not_mem_nil, or_false] at hmark
      rcases hmark with ⟨-, rfl⟩ | ⟨-, rfl⟩ | ⟨-, rfl⟩ | ⟨-, rfl⟩ | ⟨-, rfl⟩ | ⟨-, rfl⟩ | ⟨-, rfl⟩ | ⟨-, rfl⟩ <;>
        decide
    exact hp.clear_one htext hc.1 hc.2 hfree.whole
  | address h =>
    have hfound := (Lexeme.address_cases h).resolve_right (by simp)
    exact hp.clear_through htext hfree.whole (by decide) (by decide) (by simp) (by decide) (hunescaped ')') hfound
  | group h =>
    exact hp.clear_through htext hfree.whole (by decide) (by decide) (by simp) (by decide) hclosing h
  | string hquote h =>
    have hfound := (Lexeme.string_cases h).resolve_right (by simp)
    rcases hquote with rfl | rfl
    · exact hp.clear_through htext hfree.whole (by decide) (by decide) (by simp) (by decide) (hunescaped _) hfound
    · exact hp.clear_through htext hfree.whole (by decide) (by decide) (by simp) (by decide) (hunescaped _) hfound
  | @atWord cs =>
    have hsplit : text = before ++ ['@'] ++ cs := by rw [htext, List.append_assoc]; rfl
    have hw := hp.whole_append hsplit hfree.whole (by decide)
    rw [← Text.size_append] at hw
    exact hp.clear_upTo htext hw (by decide) atWordName_backslash
  | escape => exact hp.clear_escape htext hfree
  | comment h =>
    have hfound := (Lexeme.comment_cases h).resolve_right (by simp)
    exact hp.clear_through htext hfree.whole (by decide) (by decide) (by simp) (by decide) htextual hfound
  | word hspace hslash h => exact hp.clear_word htext hslash hfree.whole h

theorem cuts (hp : Proper text holes) : Cuts text (holes.filter (fits text.size)) (Clear text holes) := by
  rw [hp.all_fit]
  refine ⟨⟨fun h _ hlt => absurd hlt (Nat.not_lt_zero _), fun a b _ ha hlast => ?_⟩, ?_, ?_⟩
  · rw [Text.size_eq_zero.1 ha] at hlast
    cases hlast
  · intro before cs l htext hclear hreads
    exact hp.clear_reads htext (hp.free_of_clear hclear) hreads
  · intro before cs c htext hc hclear
    have hsize : c.utf8Size = 1 := by rcases hc with rfl | rfl <;> decide
    rw [← hsize]
    rcases hc with rfl | rfl
    · exact hp.clear_one htext (by decide) (by decide) hclear.whole
    · exact hp.clear_one htext (by decide) (by decide) hclear.whole

end Hole.Proper

end TaggedStyles
