import TaggedStyles.Proofs.Token.Opaque

/-! Reading a whole filled outline. Since each token and the reader behind it are the fillings of one part,
all fillings of an outline are read as the fillings of the same tokens, up to the same end. -/
namespace TaggedStyles
set_option autoImplicit false
open Outline

namespace Reader

/-! ## One token -/

/-- A reader in front of a filled outline, strict and without push-back; `ws` are the outlines of its words. -/
structure Fills (bodies : Nat → Text) (o : Outline) (ws : List Outline) (r : Reader) : Prop where
  rest : r.rest = fill bodies o
  words : r.words = ws.map (fill bodies)
  strict : r.lenient = false
  returned : r.returned = []
  places : Places bodies r.holes r.position o

/-- The words behind a part that is read at the front of `o`. -/
def wordsBehind (o : Outline) (ws : List Outline) (l : Part) : List Outline :=
  let used := if o.head? = some (.char '(') then ws.tail else ws
  if l.kind = .word then l.text :: used else used

section
variable {bodies : Nat → Text} {o : Outline} {ws : List Outline} {r : Reader} {found : Found}

theorem Fills.first (h : r.Fills bodies o ws) (hf : Finds (ws.headD []) o found) :
    Lexeme.first r.holes (r.lenient || false) (r.words.headD []) r.position r.rest = found.fill bodies := by
  have hword : r.words.headD [] = fill bodies (ws.headD []) := by
    rw [h.words]
    cases ws <;> rfl
  rw [h.strict, Bool.or_false, hword, h.rest, hf.first h.places]

theorem Fills.next_nothing (h : r.Fills bodies o ws) (hf : Finds (ws.headD []) o .nothing) :
    r.next = (.ok none, r) := by
  unfold next
  rw [h.returned]
  simp only [h.first hf, Found.fill]

theorem Fills.next_blocked {cause : Cause} (h : r.Fills bodies o ws) (hf : Finds (ws.headD []) o (.blocked cause)) :
    r.next.1 = .error (.style (r.excerpt.error cause r.position)) := by
  unfold next
  rw [h.returned]
  simp only [h.first hf, Found.fill]

theorem Fills.next_part {l : Part} (h : r.Fills bodies o ws) (hf : Finds (ws.headD []) o (.part l)) :
    ∃ r', r.next = (.ok (some (tokenOf (l.fill bodies) r.position)), r') ∧
      r'.Fills bodies l.rest (wordsBehind o ws l) ∧ r'.excerpt = r.excerpt ∧
      r'.position = r.position + (fill bodies l.text).size := by
  have happ := (hf.part l rfl).append
  have hplaces := h.places
  rw [happ, places_append] at hplaces
  have hnext : r.next = (.ok (some (tokenOf (l.fill bodies) r.position)),
      (if r.rest.head? = some '(' then { r with words := r.words.tail } else r).advance (l.fill bodies)) := by
    unfold next
    rw [h.returned]
    simp only [h.first hf, Found.fill]
  have hhead : r.rest.head? = some '(' ↔ o.head? = some (.char '(') := by
    rw [h.rest, head?_fill_eq_some (by decide)]
  refine ⟨_, hnext, ⟨?_, ?_, ?_, ?_, ?_⟩, ?_, ?_⟩
  · rfl
  · simp only [advance, wordsBehind, hhead, Part.fill]
    split <;> split <;> simp [h.words]
  · split <;> exact h.strict
  · split <;> exact h.returned
  · split <;> exact hplaces.2
  · split <;> rfl
  · split <;> rfl

end

/-! ## All tokens -/

/-- The tokens that some parts are when they are filled, from offset `i` on. -/
def tokensFrom (bodies : Nat → Text) : (i : Nat) → List (Token.Kind × Outline) → List Token
  | _, [] => []
  | i, (kind, t) :: ts =>
    tokenOf ⟨kind, fill bodies t, []⟩ i :: tokensFrom bodies (i + (fill bodies t).size) ts

theorem tokensFrom_map (bodies : Nat → Text) (i : Nat) (ts : List (Token.Kind × Outline)) :
    (tokensFrom bodies i ts).map (fun t => (t.kind, t.text)) = ts.map fun t => (t.1, fill bodies t.2) := by
  induction ts generalizing i with
  | nil => rfl
  | cons t ts ih => rw [tokensFrom, List.map_cons, ih, tokenOf_kind, tokenOf_text, List.map_cons]

/-- What is read of an outline from any place on. The induction is on the outline, which each token shortens. -/
theorem exists_run (ws : List Outline) {o : Outline} (hu : UnescapedFrom false o) :
    ∃ (tokens : List (Token.Kind × Outline)) (cause : Option Cause),
      (∃ rest, o = tokens.flatMap (·.2) ++ rest ∧ (cause = none → rest = [])) ∧
      ∀ {bodies : Nat → Text} {r : Reader} {n : Nat}, r.Fills bodies o ws → r.rest.length < n →
        (take n r).1 = tokensFrom bodies r.position tokens ∧
        (take n r).2.1 = cause.map fun cause =>
          .style (r.excerpt.error cause (r.position + (fill bodies (tokens.flatMap (·.2))).size)) := by
  induction hlen : o.length using Nat.strong_induction_on generalizing o ws with
  | _ size ih =>
    subst hlen
    obtain ⟨found, hf⟩ := exists_finds (ws.headD []) hu
    cases found with
    | nothing =>
      refine ⟨[], none, ⟨[], by simp [hf.nothing rfl], fun _ => rfl⟩, ?_⟩
      intro bodies r n h hn
      cases n with
      | zero => exact absurd hn (Nat.not_lt_zero _)
      | succ n =>
        rw [take, h.next_nothing hf]
        exact ⟨rfl, rfl⟩
    | blocked cause =>
      refine ⟨[], some cause, ⟨o, rfl, fun hnone => by cases hnone⟩, ?_⟩
      intro bodies r n h hn
      cases n with
      | zero => exact absurd hn (Nat.not_lt_zero _)
      | succ n =>
        have hnext := h.next_blocked hf
        rcases hr : r.next with ⟨x, r'⟩
        rw [hr] at hnext
        obtain rfl : x = _ := hnext
        rw [take, hr]
        exact ⟨rfl, rfl⟩
    | part l =>
      obtain ⟨happ, hne, hrest⟩ := hf.part l rfl
      have hlpos : 0 < l.text.length := List.length_pos_iff.2 hne
      have hshort : l.rest.length < o.length := by
        rw [happ, List.length_append]
        omega
      obtain ⟨tokens, cause, ⟨rest, hsplit, hall⟩, hrun⟩ := ih _ hshort (wordsBehind o ws l) hrest rfl
      refine ⟨(l.kind, l.text) :: tokens, cause, ⟨rest, ?_, hall⟩, ?_⟩
      · rw [List.flatMap_cons, List.append_assoc, ← hsplit, happ]
      · intro bodies r n h hn
        cases n with
        | zero => exact absurd hn (Nat.not_lt_zero _)
        | succ n =>
          obtain ⟨r', hnext, hfills, hexcerpt, hposition⟩ := h.next_part hf
          have hfewer : r'.rest.length < n := by
            have hfill : 0 < (fill bodies l.text).length :=
              List.length_pos_iff.2 fun hnil => hne (fill_eq_nil.1 hnil)
            have hlen := congrArg List.length h.rest
            rw [happ, fill_append, List.length_append, ← hfills.rest] at hlen
            omega
          obtain ⟨htokens, hfault⟩ := hrun hfills hfewer
          rw [take, hnext]
          simp only [htokens, hfault, hexcerpt, hposition]
          refine ⟨rfl, ?_⟩
          rw [List.flatMap_cons, fill_append, Text.size_append, Nat.add_assoc]

/-- All fillings of an outline are read alike: as the fillings of the same tokens, of the same kinds, and to
the end or to an error of the same cause behind the same token. -/
theorem drain_opaque {o : Outline} (hu : o.Unescaped) :
    ∃ (tokens : List (Token.Kind × Outline)) (cause : Option Cause),
      (∃ rest, o = tokens.flatMap (·.2) ++ rest ∧ (cause = none → rest = [])) ∧
      ∀ (e : Excerpt) (bodies : Nat → Text) (holes : List Hole), e.text = o.fill bodies →
        (∀ h, h ∈ holes ↔ h ∈ o.holesFrom bodies 0) →
        (start e holes).drain.1.map (fun t => (t.kind, t.text)) = tokens.map (fun t => (t.1, t.2.fill bodies)) ∧
        (start e holes).drain.2.1 = cause.map fun cause =>
          .style (e.error cause (Outline.fill bodies (tokens.flatMap (·.2))).size) := by
  obtain ⟨tokens, cause, hsplit, hrun⟩ := exists_run [] (unescaped_iff.1 hu)
  refine ⟨tokens, cause, hsplit, ?_⟩
  intro e bodies holes htext hmem
  have hfits : ∀ h, h ∈ holes.filter (Hole.fits e.text.size) ↔ h ∈ [] ++ holesFrom bodies 0 o := by
    intro h
    rw [List.mem_filter, hmem h, List.nil_append, htext]
    refine ⟨And.left, fun hh => ⟨hh, ?_⟩⟩
    obtain ⟨-, horder, hlast⟩ := bounds_of_mem_holesFrom hh
    simp only [Hole.fits, Bool.and_eq_true, decide_eq_true_eq]
    omega
  have hfills : (start e holes).Fills bodies o [] :=
    ⟨htext, rfl, rfl, rfl, places_of_mem_iff [] hfits fun _ hh => absurd hh List.not_mem_nil⟩
  obtain ⟨htokens, hfault⟩ := hrun hfills (n := (start e holes).returned.length + (start e holes).rest.length + 1)
    (by simp [start])
  refine ⟨?_, ?_⟩
  · rw [drain, htokens, tokensFrom_map]
  · rw [drain, hfault]
    simp [start]

/-- Bodies with quotes, brackets, comment marks and a backslash at their end are read like empty ones. -/
theorem drain_opaque_bodies :
    let o := plain "a:\"".toList ++ [.hole 0] ++ plain "\" url(".toList ++ [.hole 1] ++ plain ")\\\\".toList ++
      [.hole 2] ++ plain "(b".toList
    let bodies := fun _ => "\"')\n/*\\".toList
    (start ⟨o.fill bodies, Position.front, none⟩ (o.holesFrom bodies 0)).drain.1.map (·.kind) =
      [.word, .colon, .string, .space, .word, .brackets, .word, .word, .openParen, .word] := by
  intro o bodies
  obtain ⟨tokens, cause, -, hread⟩ := drain_opaque (o := o) (by decide +kernel)
  have hbodies := (hread ⟨o.fill bodies, Position.front, none⟩ bodies _ rfl fun _ => Iff.rfl).1
  have hempty := (hread ⟨o.fill fun _ => [], Position.front, none⟩ (fun _ => []) _ rfl fun _ => Iff.rfl).1
  have hkinds := congrArg (List.map Prod.fst) hbodies
  have hkinds' := congrArg (List.map Prod.fst) hempty
  simp only [List.map_map, Function.comp_def] at hkinds hkinds'
  rw [hkinds, ← hkinds']
  decide +kernel

end Reader
end TaggedStyles
