import Mathlib.Data.List.Forall2
import TaggedStyles.Proofs.Token.OpaqueRun
import TaggedStyles.Tree.Run

/-! One outline with two sets of bodies. A text that comes of the one filling is taken together with the text that
comes of the other (`Refill.Texts`), a token with the token that is read in its place. What parsing asks of texts and
tokens is the same for both, but for one thing: whether a word holds a word character. -/
namespace TaggedStyles
set_option autoImplicit false

/-! ## Ends of outlines -/

namespace Outline
variable {bodies : Nat → Text} {o : Outline} {c : Char}

theorem getLast?_fill_eq_some (hc : c ≠ '\x7d') : (fill bodies o).getLast? = some c ↔ o.getLast? = some (.char c) := by
  induction o using List.reverseRecOn with
  | nil => simp
  | append_singleton o x _ =>
    rw [fill_append, List.getLast?_concat]
    cases x with
    | char d => simp
    | hole n =>
      have hlast : (fill bodies o ++ fill bodies [.hole n]).getLast? = some '\x7d' :=
        List.getLast?_eq_some_iff.2 ⟨fill bodies o ++ '$' :: '\x7b' :: bodies n, by simp [Hole.written]⟩
      rw [hlast]
      simpa using hc.symm

/-- A run of characters at the end, of a class that no closing brace is in, starts at the same place however the
outline is filled. -/
theorem span_fill_end (q : Char → Bool) (hq : q '\x7d' = false) (o : Outline) :
    ∃ front t, o = front ++ plain t ∧ ∀ bodies, ((fill bodies o).reverse.dropWhile q).reverse = fill bodies front := by
  induction o using List.reverseRecOn with
  | nil => exact ⟨[], [], rfl, fun _ => rfl⟩
  | append_singleton o x ih =>
    cases x with
    | char c =>
      by_cases hc : q c = true
      · obtain ⟨front, t, rfl, hspan⟩ := ih
        refine ⟨front, t ++ [c], by simp [plain], fun bodies => ?_⟩
        rw [fill_append, List.reverse_append]
        simp only [fill_char, fill_nil, List.reverse_singleton, List.singleton_append]
        rw [List.dropWhile_cons_of_pos hc, hspan]
      · refine ⟨o ++ [.char c], [], by simp [plain], fun bodies => ?_⟩
        rw [fill_append, List.reverse_append]
        simp only [fill_char, fill_nil, List.reverse_singleton, List.singleton_append]
        rw [List.dropWhile_cons_of_neg hc]
        simp
    | hole n =>
      refine ⟨o ++ [.hole n], [], by simp [plain], fun bodies => ?_⟩
      rw [fill_append, List.reverse_append]
      simp only [fill_hole, fill_nil, Hole.written, List.append_nil, List.reverse_cons, List.reverse_append,
        List.reverse_nil, List.nil_append, List.cons_append]
      rw [List.dropWhile_cons_of_neg (by simp [hq])]
      simp

end Outline

/-! ## Texts -/

/-- An outline is filled twice, with bodies and with others; the holes are those of the two texts. -/
structure Refill where
  old : Nat → Text
  new : Nat → Text
  oldHoles : List Hole
  newHoles : List Hole

namespace Refill
open Outline

/-- The other way round. -/
def swap (x : Refill) : Refill := ⟨x.new, x.old, x.newHoles, x.oldHoles⟩

/-- Two texts that are the same but for the bodies of holes. -/
def Texts (x : Refill) (t t' : Text) : Prop := ∃ p : Outline, t = p.fill x.old ∧ t' = p.fill x.new

variable {x : Refill} {t t' u u' : Text} {c : Char}

namespace Texts

theorem same (x : Refill) (t : Text) : x.Texts t t := ⟨plain t, by simp, by simp⟩

theorem swap (h : x.Texts t t') : x.swap.Texts t' t := by
  obtain ⟨p, ht, ht'⟩ := h
  exact ⟨p, ht', ht⟩

theorem append (h : x.Texts t t') (h' : x.Texts u u') : x.Texts (t ++ u) (t' ++ u') := by
  obtain ⟨p, rfl, rfl⟩ := h
  obtain ⟨q, rfl, rfl⟩ := h'
  exact ⟨p ++ q, by simp, by simp⟩

theorem eq_nil_iff (h : x.Texts t t') : t = [] ↔ t' = [] := by
  obtain ⟨p, rfl, rfl⟩ := h
  rw [fill_eq_nil, fill_eq_nil]

theorem isEmpty (h : x.Texts t t') : t'.isEmpty = t.isEmpty := by
  rw [Bool.eq_iff_iff, List.isEmpty_iff, List.isEmpty_iff, h.eq_nil_iff]

theorem eq_of_not_mem (h : x.Texts t t') (ht : '$' ∉ t) : t' = t := by
  obtain ⟨p, rfl, rfl⟩ := h
  rw [(fill_eq_iff ht).1 rfl, fill_plain, fill_plain]

theorem eq_iff (h : x.Texts t t') (hu : '$' ∉ u) : t = u ↔ t' = u := by
  constructor
  · rintro rfl
    exact h.eq_of_not_mem hu
  · rintro rfl
    exact h.swap.eq_of_not_mem hu

theorem head?_eq_iff (h : x.Texts t t') (hc : c ≠ '$') : t.head? = some c ↔ t'.head? = some c := by
  obtain ⟨p, rfl, rfl⟩ := h
  rw [head?_fill_eq_some hc, head?_fill_eq_some hc]

theorem getLast?_eq_iff (h : x.Texts t t') (hc : c ≠ '\x7d') : t.getLast? = some c ↔ t'.getLast? = some c := by
  obtain ⟨p, rfl, rfl⟩ := h
  rw [getLast?_fill_eq_some hc, getLast?_fill_eq_some hc]

theorem cons (hc : c ≠ '$') (h : x.Texts (c :: t) u') : ∃ t', u' = c :: t' ∧ x.Texts t t' := by
  obtain ⟨p, hp, rfl⟩ := h
  obtain ⟨q, rfl⟩ := List.head?_eq_some_iff.1 ((head?_fill_eq_some hc).1 (hp ▸ rfl : (fill x.old p).head? = some c))
  exact ⟨_, fill_char, q, (List.cons.inj hp).2, rfl⟩

theorem isPrefix (h : x.Texts t t') (hu : '$' ∉ u) : u <+: t → u <+: t' := by
  induction u generalizing t t' with
  | nil => exact fun _ => List.nil_prefix
  | cons c u ih =>
    rintro ⟨more, rfl⟩
    obtain ⟨hc, hu⟩ := List.ne_and_not_mem_of_not_mem_cons hu
    obtain ⟨t'', rfl, hmore⟩ := cons (Ne.symm hc) h
    exact List.cons_prefix_cons.2 ⟨rfl, ih hmore hu (List.prefix_append u more)⟩

theorem concat (hc : c ≠ '\x7d') (h : x.Texts (t ++ [c]) u') : ∃ t', u' = t' ++ [c] ∧ x.Texts t t' := by
  obtain ⟨p, hp, rfl⟩ := h
  obtain ⟨q, rfl⟩ := List.getLast?_eq_some_iff.1 ((getLast?_fill_eq_some hc).1 (hp ▸ List.getLast?_concat))
  refine ⟨fill x.new q, by simp, q, ?_, rfl⟩
  have hfront := congrArg List.dropLast hp
  simpa using hfront

theorem trim (h : x.Texts t t') : ∃ front back mid mid', x.Texts mid mid' ∧
    (t = front ++ mid ++ back ∧ t.trimStart = mid ++ back ∧ Text.trimEnd (mid ++ back) = mid) ∧
    (t' = front ++ mid' ++ back ∧ t'.trimStart = mid' ++ back ∧ Text.trimEnd (mid' ++ back) = mid') := by
  obtain ⟨p, rfl, rfl⟩ := h
  obtain ⟨front, q, rfl, -, -, hspan⟩ := span_fill isBlank (by decide) p
  obtain ⟨mid, back, rfl, hspan'⟩ := span_fill_end isBlank (by decide) q
  have hone : ∀ bodies, fill bodies (plain front ++ (mid ++ plain back)) = front ++ fill bodies mid ++ back ∧
      Text.trimStart (fill bodies (plain front ++ (mid ++ plain back))) = fill bodies mid ++ back ∧
      Text.trimEnd (fill bodies mid ++ back) = fill bodies mid := by
    intro bodies
    have hstart : Text.trimStart (fill bodies (plain front ++ (mid ++ plain back))) =
        fill bodies (mid ++ plain back) := (hspan bodies).2
    have hend : Text.trimEnd (fill bodies (mid ++ plain back)) = fill bodies mid := hspan' bodies
    have hback : fill bodies (mid ++ plain back) = fill bodies mid ++ back := by simp
    rw [hback] at hstart hend
    exact ⟨by simp, hstart, hend⟩
  exact ⟨front, back, _, _, ⟨mid, rfl, rfl⟩, hone x.old, hone x.new⟩

theorem toLower_iff (h : x.Texts t t') (hu : '$' ∉ u) : t.map Char.toLower = u ↔ t'.map Char.toLower = u := by
  have hone : ∀ {y : Refill} {s s' : Text}, y.Texts s s' → s.map Char.toLower = u → s'.map Char.toLower = u := by
    rintro y s s' h rfl
    rw [h.eq_of_not_mem fun hmem => hu (List.mem_map.2 ⟨'$', hmem, by decide⟩)]
  exact ⟨hone h, hone h.swap⟩

end Texts

/-- A text that holds a word character when it is filled the first way and none when it is filled the second. -/
def Doubtful (x : Refill) (t : Text) : Prop :=
  ∃ p : Outline, t = p.fill x.old ∧ t.any Run.isWordCharacter = true ∧
    (p.fill x.new).any Run.isWordCharacter = false

theorem Doubtful.any (h : x.Doubtful t) : t.any Run.isWordCharacter = true := by
  obtain ⟨p, -, hany, -⟩ := h
  exact hany

theorem Texts.any_cases (h : x.Texts t t') :
    t'.any Run.isWordCharacter = t.any Run.isWordCharacter ∨ x.Doubtful t ∨ x.swap.Doubtful t' := by
  obtain ⟨p, rfl, rfl⟩ := h
  cases hold : (p.fill x.old).any Run.isWordCharacter with
  | true =>
    cases hnew : (p.fill x.new).any Run.isWordCharacter with
    | true => exact .inl rfl
    | false => exact .inr (.inl ⟨p, rfl, hold, hnew⟩)
  | false =>
    cases hnew : (p.fill x.new).any Run.isWordCharacter with
    | true => exact .inr (.inr ⟨p, rfl, hnew, hold⟩)
    | false => exact .inl rfl

theorem not_doubtful (h : ∀ n, (x.old n).any Run.isWordCharacter = (x.new n).any Run.isWordCharacter) :
    ¬ x.Doubtful t := by
  rintro ⟨p, rfl, hold, hnew⟩
  have hsame : (p.fill x.old).any Run.isWordCharacter = (p.fill x.new).any Run.isWordCharacter := by
    clear hold hnew
    induction p with
    | nil => rfl
    | cons y p ih =>
      cases y with
      | char c => rw [fill_char, fill_char, List.any_cons, List.any_cons, ih]
      | hole n => simp only [fill_hole, Hole.written, List.cons_append, List.any_cons, List.any_append, ih, h n]
  rw [hold, hnew] at hsame
  cases hsame

/-! ## Tokens -/

/-- Two tokens of one kind in one place. -/
structure Tokens (x : Refill) (t t' : Token) : Prop where
  kind : t'.kind = t.kind
  text : x.Texts t.text t'.text
  hole : t'.isHole x.newHoles = t.isHole x.oldHoles
  spells : Lexeme.Spells t.kind t.text
  spells' : Lexeme.Spells t.kind t'.text
  spaces : t.kind = .space → t'.text = t.text

/-- What went wrong is the same, up to the bodies in an unknown word. -/
inductive Causes (x : Refill) : Cause → Cause → Prop
  | same {cause : Cause} : Causes x cause cause
  | word {w w' : Text} : x.Texts w w' → Causes x (.unknownWord w) (.unknownWord w')

inductive Faults (x : Refill) : Fault → Fault → Prop
  | style {error error' : StyleError} : x.Causes error.cause error'.cause → Faults x (.style error) (.style error')

/-- The outline of a whole hole. -/
def isHole : Outline → Bool
  | [.hole _] => true
  | _ => false

theorem isHole_tokenOf {bodies : Nat → Text} {holes : List Hole} {i : Nat} {p : Outline} (hp : p ≠ [])
    (hplaces : Places bodies holes i p) (kind : Token.Kind) :
    (Reader.tokenOf ⟨kind, fill bodies p, []⟩ i).isHole holes = (decide (kind = .word) && isHole p) := by
  by_cases hk : kind = .word
  · subst hk
    unfold Token.isHole
    simp only [Reader.tokenOf, Token.ranged, decide_true, Bool.true_and, Option.bind_some]
    cases p with
    | nil => exact absurd rfl hp
    | cons y p =>
      cases y with
      | char c =>
        rw [hplaces.1 i (Nat.le_refl i) (Nat.lt_add_of_pos_right c.utf8Size_pos)]
        rfl
      | hole n =>
        simp only [hplaces.1, Option.some.injEq]
        cases p with
        | nil =>
          have hsize : Text.size (fill bodies [.hole n]).dropLast = (bodies n).size + 2 := by
            have hwritten : (fill bodies [.hole n]).dropLast = '$' :: '\x7b' :: bodies n := by
              rw [fill_hole, fill_nil, List.append_nil, Hole.written, ← List.cons_append, ← List.cons_append,
                List.dropLast_concat]
            have hdollar : ('$' : Char).utf8Size = 1 := by decide
            have hopen : ('\x7b' : Char).utf8Size = 1 := by decide
            rw [hwritten, Text.size_cons, Text.size_cons, hdollar, hopen]
            omega
          rw [hsize]
          simp [isHole, Nat.add_assoc]
        | cons y p =>
          -- Behind the hole there is more, so its last character is not that of the token.
          have hne : fill bodies (y :: p) ≠ [] := fun h => by simp [fill_eq_nil] at h
          have hsize : (bodies n).size + 3 ≤ Text.size (fill bodies (.hole n :: y :: p)).dropLast := by
            rw [fill_hole, List.dropLast_append_of_ne_nil hne, Text.size_append, Hole.size_written]
            omega
          have hfalse : ¬ i + Text.size (fill bodies (.hole n :: y :: p)).dropLast = i + (bodies n).size + 2 := by
            omega
          simpa only [isHole, Bool.and_false, decide_eq_false_iff_not] using hfalse
  · unfold Token.isHole
    rw [Reader.tokenOf_kind]
    simp [hk]

/-- What is known of a token wherever it is read. -/
structure Read (t : Token) : Prop where
  text_ne_nil : t.text ≠ []
  spells : Lexeme.Spells t.kind t.text
  spaces : t.kind = .space → '$' ∉ t.text

theorem read_of_mem_drain {e : Excerpt} {holes : List Hole} {t : Token} (h : t ∈ (Reader.start e holes).drain.1) :
    Read t := by
  obtain ⟨i, cs, l, hreads, rfl⟩ := Reader.of_mem_take rfl h
  refine ⟨?_, ?_, fun hk hmem => ?_⟩
  · rw [Reader.tokenOf_text]
    exact hreads.text_ne_nil
  · rw [Reader.tokenOf_kind, Reader.tokenOf_text]
    exact hreads.spells
  · rw [Reader.tokenOf_kind] at hk
    rw [Reader.tokenOf_text] at hmem
    exact absurd (hreads.text_of_space hk '$' hmem) (by decide)

theorem tokensFrom_refill {i i' : Nat} {ts : List (Token.Kind × Outline)} {rest : Outline}
    (hplaces : Places x.old x.oldHoles i (ts.flatMap (·.2) ++ rest))
    (hplaces' : Places x.new x.newHoles i' (ts.flatMap (·.2) ++ rest))
    (hread : ∀ t ∈ Reader.tokensFrom x.old i ts, Read t) (hread' : ∀ t ∈ Reader.tokensFrom x.new i' ts, Read t) :
    List.Forall₂ x.Tokens (Reader.tokensFrom x.old i ts) (Reader.tokensFrom x.new i' ts) := by
  induction ts generalizing i i' with
  | nil => exact .nil
  | cons t ts ih =>
    obtain ⟨kind, p⟩ := t
    rw [List.flatMap_cons, List.append_assoc, places_append] at hplaces hplaces'
    obtain ⟨hhere, hmore⟩ := List.forall_mem_cons.1 hread
    obtain ⟨hhere', hmore'⟩ := List.forall_mem_cons.1 hread'
    refine .cons ?_ (ih hplaces.2 hplaces'.2 hmore hmore')
    have htext : x.Texts (fill x.old p) (fill x.new p) := ⟨p, rfl, rfl⟩
    have hne : p ≠ [] := by
      rintro rfl
      exact hhere.text_ne_nil (Reader.tokenOf_text _ _)
    obtain ⟨-, hspells, hspaces⟩ := hhere
    have hspells' := hhere'.spells
    simp only [Reader.tokenOf_kind, Reader.tokenOf_text] at hspells hspaces hspells'
    refine ⟨?_, ?_, ?_, ?_, ?_, fun hk => ?_⟩
    · rw [Reader.tokenOf_kind, Reader.tokenOf_kind]
    · rwa [Reader.tokenOf_text, Reader.tokenOf_text]
    · rw [isHole_tokenOf hne hplaces'.1, isHole_tokenOf hne hplaces.1]
    · rwa [Reader.tokenOf_kind, Reader.tokenOf_text]
    · rwa [Reader.tokenOf_kind, Reader.tokenOf_text]
    · rw [Reader.tokenOf_kind] at hk
      rw [Reader.tokenOf_text, Reader.tokenOf_text]
      exact htext.eq_of_not_mem (hspaces hk)

/-- Two excerpts are the fillings of an outline, and the holes are where they put them. -/
structure Fills (x : Refill) (o : Outline) (e e' : Excerpt) : Prop where
  text : e.text = o.fill x.old
  text' : e'.text = o.fill x.new
  holes : ∀ h, h ∈ x.oldHoles ↔ h ∈ o.holesFrom x.old 0
  holes' : ∀ h, h ∈ x.newHoles ↔ h ∈ o.holesFrom x.new 0

theorem start_holes {bodies : Nat → Text} {o : Outline} {e : Excerpt} {holes : List Hole}
    (htext : e.text = o.fill bodies) (hholes : ∀ h, h ∈ holes ↔ h ∈ o.holesFrom bodies 0) :
    (Reader.start e holes).holes = holes := by
  refine List.filter_eq_self.2 fun h hmem => ?_
  obtain ⟨-, horder, hlast⟩ := bounds_of_mem_holesFrom ((hholes h).1 hmem)
  rw [Hole.fits, Bool.and_eq_true, decide_eq_true_eq, decide_eq_true_eq, htext]
  omega

theorem exists_drain {o : Outline} (hu : o.Unescaped) :
    ∃ (tokens : List (Token.Kind × Outline)) (cause : Option Cause) (rest : Outline),
      o = tokens.flatMap (·.2) ++ rest ∧
      ∀ {bodies : Nat → Text} {e : Excerpt} {holes : List Hole}, e.text = o.fill bodies →
        (∀ h, h ∈ holes ↔ h ∈ o.holesFrom bodies 0) →
        Places bodies holes 0 o ∧ (Reader.start e holes).drain.1 = Reader.tokensFrom bodies 0 tokens ∧
          ∃ offset, (Reader.start e holes).drain.2.1 = cause.map fun cause => .style (e.error cause offset) := by
  obtain ⟨tokens, cause, ⟨rest, hsplit, -⟩, hrun⟩ := Reader.exists_run [] (unescaped_iff.1 hu)
  refine ⟨tokens, cause, rest, hsplit, fun {bodies e holes} htext hholes => ?_⟩
  have hplaces : Places bodies holes 0 o := places_of_mem_iff [] hholes fun _ hh => absurd hh List.not_mem_nil
  have hfills : (Reader.start e holes).Fills bodies o [] :=
    ⟨htext, rfl, rfl, rfl, (start_holes htext hholes).symm ▸ hplaces⟩
  obtain ⟨htokens, hfault⟩ := hrun hfills (Nat.lt_succ_of_le (Nat.le_add_left _ (Reader.start e holes).returned.length))
  exact ⟨hplaces, htokens, _, hfault⟩

/-- The two texts are read as tokens that stand for each other, up to the same fault. -/
theorem drain_refill {o : Outline} {e e' : Excerpt} (hu : o.Unescaped) (h : x.Fills o e e') :
    List.Forall₂ x.Tokens (Reader.start e x.oldHoles).drain.1 (Reader.start e' x.newHoles).drain.1 ∧
      Option.Rel x.Faults (Reader.start e x.oldHoles).drain.2.1 (Reader.start e' x.newHoles).drain.2.1 := by
  obtain ⟨tokens, cause, rest, rfl, hdrain⟩ := exists_drain hu
  obtain ⟨hplaces, htokens, offset, hfault⟩ := hdrain h.text h.holes
  obtain ⟨hplaces', htokens', offset', hfault'⟩ := hdrain h.text' h.holes'
  constructor
  · have hread : ∀ t ∈ (Reader.start e x.oldHoles).drain.1, Read t := fun t => read_of_mem_drain
    have hread' : ∀ t ∈ (Reader.start e' x.newHoles).drain.1, Read t := fun t => read_of_mem_drain
    rw [htokens] at hread ⊢
    rw [htokens'] at hread' ⊢
    exact tokensFrom_refill hplaces hplaces' hread hread'
  · rw [hfault, hfault']
    cases cause with
    | none => exact .none
    | some cause => exact .some (.style .same)

end Refill
end TaggedStyles
