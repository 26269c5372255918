import Mathlib.Logic.Relation
import TaggedStyles.Proofs.Token.PushBack
import TaggedStyles.Proofs.Tree.Scan

/-! Parsing from a reader. One turn of the loop reads the tokens of one construct, up to the one that ends it, and pushes
back what the construct leaves. Though a turn may push back many tokens, some are read for good, so the text that is
unread shrinks (`Reader.Rereads.shrinks`); the loop ends after at most as many turns as the text has bytes, and builds
what parsing all tokens builds. -/
namespace TaggedStyles
set_option autoImplicit false

/-! ## Reading a construct -/

namespace Reader

/-- The bytes that are still to be read: those of the tokens pushed back, and those behind the place of the reader. -/
def unread (r : Reader) : Nat := (Token.joined r.returned).size + (r.excerpt.text.size - r.position)

/-- Push some tokens back, the last one first. -/
def giveBack (ts : List Token) (r : Reader) : Reader := ts.foldr (fun t r => r.back t) r

/-- One turn of a loop inside a construct: a token is read, and with it what the loop goes on with, unless the token ends
it. At the end of the text there is none. -/
def readTurn (goesOn : Scan → Token → Option Scan) (s : Scan) (r : Reader) :
    Except Fault (Option (Token × Option Scan × Reader)) :=
  match r.next with
  | (.error fault, _) => .error fault
  | (.ok none, _) => .ok none
  | (.ok (some t), r') => .ok (some (t, goesOn s t, r'))

variable {goesOn : Scan → Token → Option Scan} {s : Scan} {o : Option Scan} {r r' r₀ : Reader} {t : Token}
  {us read longest : List Token} {fault : Fault}

theorem readTurn_eq_some (h : r.readTurn goesOn s = .ok (some (t, o, r'))) :
    r.next = (.ok (some t), r') ∧ goesOn s t = o := by
  unfold readTurn at h
  split at h
  · cases h
  · cases h
  · rename_i hnext
    obtain ⟨rfl, he⟩ := Prod.mk.inj (Option.some.inj (Except.ok.inj h))
    obtain ⟨hgoes, rfl⟩ := Prod.mk.inj he
    exact ⟨hnext, hgoes⟩

theorem readTurn_eq_none (h : r.readTurn goesOn s = .ok none) : r.drain.1 = [] ∧ r.drain.2.1 = none := by
  unfold readTurn at h
  split at h
  · cases h
  · rename_i hnext
    exact atEnd_iff_drain.1 (atEnd_iff_next.2 (congrArg Prod.fst hnext))
  · cases h

theorem readTurn_eq_error (h : r.readTurn goesOn s = .error fault) : r.drain.1 = [] ∧ r.drain.2.1 = some fault := by
  unfold readTurn at h
  split at h
  · rename_i hnext
    obtain rfl := Except.error.inj h
    rw [drain_eq, hnext]
    exact ⟨rfl, rfl⟩
  · cases h
  · cases h

/-- Read tokens up to one that ends the loop, or to the end of the text. Each turn takes a token. -/
def readWhile (goesOn : Scan → Token → Option Scan) (s : Scan) (r : Reader) : Except Fault (List Token × Reader) :=
  match _h : r.readTurn goesOn s with
  | .error fault => .error fault
  | .ok none => .ok ([], r)
  | .ok (some (t, none, r')) => .ok ([t], r')
  | .ok (some (t, some s', r')) => do
    let (ts, last) ← readWhile goesOn s' r'
    return (t :: ts, last)
termination_by r.returned.length + r.rest.length
decreasing_by exact (next_shortens (readTurn_eq_some _h).1).2

/-- Read the tokens that belong to the construct of a token just read. -/
def readConstruct (t : Token) (r : Reader) : Except Fault (List Token × Reader) :=
  if t.isAlone then .ok ([], r) else r.readWhile t.goesOn t.scan

/-- The loop goes on behind one turn. -/
def Goes (goesOn : Scan → Token → Option Scan) (x y : Scan × Reader) : Prop :=
  ∃ t, x.2.readTurn goesOn x.1 = .ok (some (t, some y.1, y.2))

/-- The tokens that are read, and that the loop was ended by the last of them or by the end of the text. -/
theorem readWhile_ok (h : r.readWhile goesOn s = .ok (us, r')) : r.drain = (us ++ r'.drain.1, r'.drain.2) ∧
    (us.foldlM goesOn s = none ∨ r'.drain.1 = [] ∧ r.drain.2.1 = none) := by
  fun_induction readWhile goesOn s r generalizing us with
  | case1 s r fault hturn => cases h
  | case2 s r hturn =>
    obtain ⟨rfl, rfl⟩ := Prod.mk.inj (Except.ok.inj h)
    exact ⟨rfl, .inr (readTurn_eq_none hturn)⟩
  | case3 s r t r'' hturn =>
    obtain ⟨rfl, rfl⟩ := Prod.mk.inj (Except.ok.inj h)
    obtain ⟨hnext, hs⟩ := readTurn_eq_some hturn
    exact ⟨drain_next hnext, .inl (by rw [List.foldlM_cons, hs]; rfl)⟩
  | case4 s r t s' r'' hturn ih =>
    obtain ⟨⟨vs, last⟩, hmore, he⟩ := bind_eq_ok.1 h
    obtain ⟨rfl, rfl⟩ := Prod.mk.inj (Except.ok.inj he)
    obtain ⟨hnext, hs⟩ := readTurn_eq_some hturn
    obtain ⟨hdrain, hends⟩ := ih hmore
    rw [drain_next hnext, hdrain, List.foldlM_cons, hs]
    rw [hdrain] at hends
    exact ⟨rfl, hends⟩

theorem readWhile_error (h : r.readWhile goesOn s = .error fault) :
    (r.drain.1.foldlM goesOn s).isSome = true ∧ r.drain.2.1 = some fault := by
  fun_induction readWhile goesOn s r with
  | case1 s r fault' hturn =>
    obtain rfl := Except.error.inj h
    obtain ⟨hnil, hfault⟩ := readTurn_eq_error hturn
    rw [hnil]
    exact ⟨rfl, hfault⟩
  | case2 s r hturn => cases h
  | case3 s r t r'' hturn => cases h
  | case4 s r t s' r'' hturn ih =>
    obtain ⟨hnext, hs⟩ := readTurn_eq_some hturn
    rw [drain_next hnext, List.foldlM_cons, hs]
    refine ih ?_
    cases hmore : r''.readWhile goesOn s' with
    | error fault' =>
      rw [hmore] at h
      exact h
    | ok x =>
      rw [hmore] at h
      cases h

theorem readConstruct_drain (h : r.readConstruct t = .ok (us, r')) : r.drain = (us ++ r'.drain.1, r'.drain.2) := by
  unfold readConstruct at h
  split at h
  · obtain ⟨rfl, rfl⟩ := Prod.mk.inj (Except.ok.inj h)
    rfl
  · exact (readWhile_ok h).1

theorem giveBack_drain (ts : List Token) (r : Reader) : (r.giveBack ts).drain = (ts ++ r.drain.1, r.drain.2) := by
  induction ts with
  | nil => rfl
  | cons t ts ih => rw [giveBack, List.foldr_cons, ← giveBack, drain_back, ih, List.cons_append]

/-! ## Tokens read and not returned -/

namespace Rereads

theorem readWhile (h : Rereads r₀ read longest r) (hread : r.readWhile goesOn s = .ok (us, r')) :
    ∃ longest', Rereads r₀ (read ++ us) longest' r' := by
  fun_induction Reader.readWhile goesOn s r generalizing read longest us with
  | case1 s r fault hturn => cases hread
  | case2 s r hturn =>
    obtain ⟨rfl, rfl⟩ := Prod.mk.inj (Except.ok.inj hread)
    exact ⟨longest, by rwa [List.append_nil]⟩
  | case3 s r t r'' hturn =>
    obtain ⟨rfl, rfl⟩ := Prod.mk.inj (Except.ok.inj hread)
    exact ⟨_, h.next (readTurn_eq_some hturn).1⟩
  | case4 s r t s' r'' hturn ih =>
    obtain ⟨⟨vs, last⟩, hmore, he⟩ := bind_eq_ok.1 hread
    obtain ⟨rfl, rfl⟩ := Prod.mk.inj (Except.ok.inj he)
    obtain ⟨longest', hlast⟩ := ih (h.next (readTurn_eq_some hturn).1) hmore
    rw [List.append_assoc] at hlast
    exact ⟨longest', hlast⟩

theorem readConstruct (h : Rereads r₀ read longest r) (hread : r.readConstruct t = .ok (us, r')) :
    ∃ longest', Rereads r₀ (read ++ us) longest' r' := by
  unfold Reader.readConstruct at hread
  split at hread
  · obtain ⟨rfl, rfl⟩ := Prod.mk.inj (Except.ok.inj hread)
    exact ⟨longest, by rwa [List.append_nil]⟩
  · exact h.readWhile hread

theorem giveBack (h : Rereads r₀ (read ++ us) longest r) : Rereads r₀ read longest (r.giveBack us) := by
  induction us generalizing read with
  | nil => rwa [List.append_nil] at h
  | cons u us ih =>
    rw [← List.singleton_append, ← List.append_assoc] at h
    exact (ih h).back

theorem goes {x y : Scan × Reader} (h : Rereads r₀ read longest x.2)
    (hgoes : Relation.ReflTransGen (Goes goesOn) x y) : ∃ us longest', Rereads r₀ (read ++ us) longest' y.2 := by
  induction hgoes with
  | refl => exact ⟨[], longest, by rwa [List.append_nil]⟩
  | tail _ hlast ih =>
    obtain ⟨us, longest', h⟩ := ih
    obtain ⟨t, hturn⟩ := hlast
    exact ⟨us ++ [t], _, by rw [← List.append_assoc]; exact h.next (readTurn_eq_some hturn).1⟩

theorem excerpt (h : Rereads r₀ read longest r) : r.excerpt = r₀.excerpt := by
  induction h with
  | start => rfl
  | @next read longest r r' t _ hnext ih =>
    have hkeeps := (r.next_keeps false).1
    rw [hnext] at hkeeps
    exact hkeeps.trans ih
  | nothing _ hnext ih => rw [eq_of_next_none hnext, ih]
  | back _ ih => exact ih

variable {e : Excerpt} {holes : List Hole} {longest' : List Token}

theorem unread (h : Rereads (Reader.start e holes) read longest r) : r.unread + (Token.joined read).size = e.text.size := by
  obtain ⟨hlongest, -⟩ := h.drain rfl
  obtain ⟨-, -, htext, hposition⟩ := h.behind
  have hposition : (Token.joined longest).size = r.position := hposition
  have hsize := congrArg Text.size htext
  rw [Text.size_append, hposition] at hsize
  rw [hlongest, Token.joined_append, Text.size_append] at hposition
  rw [Reader.unread, h.excerpt]
  show _ + (e.text.size - r.position) + _ = e.text.size
  omega

theorem shrinks (h : Rereads (Reader.start e holes) read longest r) (ht : t ∈ r.drain.1)
    (h' : Rereads (Reader.start e holes) (read ++ t :: us) longest' r') : r'.unread < r.unread := by
  obtain ⟨-, hdrain⟩ := h.drain rfl
  have hmem : t ∈ (Reader.start e holes).drain.1 := by
    rw [hdrain]
    exact List.mem_append_right _ ht
  have hpos := Text.size_pos ((drain_tiled (Cuts.trivial e.text _)).1.text_ne_nil t hmem)
  have hbefore := h.unread
  have hbehind := h'.unread
  rw [Token.joined_append, Token.joined_cons, Text.size_append, Text.size_append] at hbehind
  omega

theorem next_shrinks (h : Rereads (Reader.start e holes) read longest r) (hnext : r.next = (.ok (some t), r')) :
    r'.unread < r.unread := by
  have ht : t ∈ r.drain.1 := by
    rw [drain_next hnext]
    exact List.mem_cons_self
  exact h.shrinks ht (h.next hnext)

theorem atEnd_of_unread (h : Rereads (Reader.start e holes) read longest r) (hr : r.unread = 0) : r.atEnd = true := by
  obtain ⟨-, -, htext, hposition⟩ := h.behind
  have hposition : (Token.joined longest).size = r.position := hposition
  have hsize := congrArg Text.size htext
  rw [Text.size_append, hposition] at hsize
  have hrest : r.rest = [] := by
    rw [Reader.unread, h.excerpt] at hr
    have hr : _ + (e.text.size - r.position) = 0 := hr
    exact Text.size_eq_zero.1 (by change e.text.size = _ + Text.size r.rest at hsize; omega)
  cases hreturned : r.returned with
  | nil => rw [atEnd, hreturned, hrest]; rfl
  | cons t ts =>
    have hless := h.next_shrinks (next_of_returned hreturned)
    omega

end Rereads
end Reader

/-! ## Turns -/

namespace Builder

/-- One turn of parsing from a reader: a token and those of its construct are read, and what the construct leaves is
pushed back. At the end there is none. -/
def turn (b : Builder) (r : Reader) : Except Fault (Option (Builder × Reader)) :=
  match r.next with
  | (.error fault, _) => .error fault
  | (.ok none, _) => .ok none
  | (.ok (some t), r') => do
    let (us, last) ← r'.readConstruct t
    let (b', left) ← b.step none t us
    return some (b', last.giveBack left)

/-- Parse in at most `n` turns. If the reader is not at its end by then, there is no answer. -/
def loop : Nat → Builder → Reader → Option (Except Fault Builder)
  | 0, b, r => if r.atEnd then some (.ok b) else none
  | n + 1, b, r =>
    if r.atEnd then some (.ok b)
    else
      match b.turn r with
      | .error fault => some (.error fault)
      | .ok none => some (.ok b)
      | .ok (some (b', r')) => loop n b' r'

variable {b b' : Builder} {r r' r₀ : Reader} {t : Token} {us read longest : List Token}

theorem step_drain (b : Builder) (t : Token) (r : Reader) : b.step r.drain.2.1 t r.drain.1 =
    match r.readConstruct t with
    | .error fault => .error fault
    | .ok (us, last) => withMore last.drain.1 (b.step none t us) := by
  unfold Reader.readConstruct
  cases ht : t.isAlone with
  | true => exact step_alone ht b _ _
  | false =>
    rw [if_neg Bool.false_ne_true]
    cases hread : r.readWhile t.goesOn t.scan with
    | error fault =>
      obtain ⟨hgoes, hfault⟩ := Reader.readWhile_error hread
      rw [hfault]
      exact step_exhausted ht hgoes b fault
    | ok x =>
      obtain ⟨us, last⟩ := x
      obtain ⟨hdrain, hends⟩ := Reader.readWhile_ok hread
      rw [hdrain] at hends ⊢
      rcases hends with hends | ⟨hnil, hfault⟩
      · exact step_append ht hends b _ _
      · simp only at hfault
        simp only [hfault, hnil, List.append_nil]
        cases b.step none t us with
        | error fault => rfl
        | ok x => simp only [withMore, Except.map, List.append_nil]

theorem steps_turn (m : Nat) (b : Builder) (r : Reader) : steps r.drain.2.1 (m + 1) b r.drain.1 =
    match b.turn r with
    | .error fault => .error fault
    | .ok none => .ok b
    | .ok (some (b', r')) => steps r'.drain.2.1 m b' r'.drain.1 := by
  unfold turn
  rcases hnext : r.next with ⟨fault | _ | t, r'⟩
  · rw [Reader.drain_eq, hnext]
    rfl
  · rw [Reader.drain_eq, hnext]
    rfl
  · rw [Reader.drain_next hnext, steps, step_drain]
    rcases hread : r'.readConstruct t with fault | ⟨us, last⟩
    · simp only [hread]
      rfl
    · rw [Reader.readConstruct_drain hread]
      rcases hstep : b.step none t us with fault | ⟨b', left⟩
      · simp only [hread, bind, Except.bind, hstep]
        rfl
      · simp only [hread, bind, Except.bind, hstep]
        show _ = steps (last.giveBack left).drain.2.1 m b' (last.giveBack left).drain.1
        rw [Reader.giveBack_drain]
        rfl

/-- A turn reads the first token for good, and those that it does not push back. -/
theorem turn_rereads (h : r₀.Rereads read longest r) (hturn : b.turn r = .ok (some (b', r'))) :
    ∃ t us longest', t ∈ r.drain.1 ∧ r₀.Rereads (read ++ t :: us) longest' r' := by
  unfold turn at hturn
  split at hturn
  · cases hturn
  · cases hturn
  · rename_i t r₁ hnext
    obtain ⟨⟨us, last⟩, hread, hturn⟩ := bind_eq_ok.1 hturn
    obtain ⟨⟨b₁, left⟩, hstep, he⟩ := bind_eq_ok.1 hturn
    obtain ⟨rfl, rfl⟩ := Prod.mk.inj (Option.some.inj (Except.ok.inj he))
    -- What a step leaves is the end of what it was given, but not all of it.
    obtain ⟨vs, hvs, hne, -⟩ := Weighs.step hstep
    obtain ⟨longest', hlast⟩ := (h.next hnext).readConstruct hread
    rw [List.append_assoc, List.singleton_append, hvs, ← List.append_assoc] at hlast
    obtain ⟨v, ws, rfl⟩ := List.exists_cons_of_ne_nil hne
    obtain rfl : t = v := (List.cons.inj hvs).1
    refine ⟨t, ws, longest', ?_, hlast.giveBack⟩
    rw [Reader.drain_next hnext]
    exact List.mem_cons_self

theorem steps_of_atEnd (h : r.atEnd = true) (m : Nat) (b : Builder) : steps r.drain.2.1 m b r.drain.1 = .ok b := by
  obtain ⟨htokens, hfault⟩ := Reader.atEnd_iff_drain.1 h
  rw [htokens, hfault]
  cases m <;> rfl

theorem exists_steps_succ {ts : List Token} {m : Nat} (hm : ts.length ≤ m) (fault : Option Fault) (b : Builder) :
    ∃ k, ts.length ≤ k + 1 ∧ steps fault m b ts = steps fault (k + 1) b ts := by
  cases m with
  | succ k => exact ⟨k, hm, rfl⟩
  | zero =>
    rw [List.eq_nil_of_length_eq_zero (Nat.le_zero.1 hm)]
    exact ⟨0, Nat.zero_le 1, rfl⟩

/-- With as many turns as there are bytes unread the loop comes to an end, and builds what all steps build. -/
theorem loop_eq {e : Excerpt} {holes : List Hole} {n m : Nat} (h : (Reader.start e holes).Rereads read longest r)
    (hn : r.unread ≤ n) (hm : r.drain.1.length ≤ m) : loop n b r = some (steps r.drain.2.1 m b r.drain.1) := by
  -- By induction on the turns that are left: there are as many as bytes, so one that is made leaves enough.
  induction n generalizing b r read longest m with
  | zero =>
    have hend := h.atEnd_of_unread (Nat.le_zero.1 hn)
    rw [loop, if_pos hend, steps_of_atEnd hend]
  | succ n ih =>
    rw [loop]
    split
    · rw [steps_of_atEnd ‹_›]
    · obtain ⟨k, hk, hsteps⟩ := exists_steps_succ hm r.drain.2.1 b
      rw [hsteps, steps_turn]
      rcases hturn : b.turn r with fault | _ | ⟨b', r'⟩
      · rfl
      · rfl
      · obtain ⟨t, us, longest', ht, h'⟩ := turn_rereads h hturn
        have hless := h.shrinks ht h'
        have hsplit := congrArg (List.length ∘ Prod.fst) ((h.drain rfl).2.symm.trans (h'.drain rfl).2)
        simp only [Function.comp_apply, List.length_append, List.length_cons] at hsplit
        exact ih h' (by omega) (by omega)

end Builder

/-- The builders and readers that the turns of parsing come to. -/
inductive Excerpt.Turns (e : Excerpt) (holes : List Hole) : Builder → Reader → Prop
  | start : Turns e holes { excerpt := e, holes := (Reader.start e holes).holes } (Reader.start e holes)
  | turn {b b' : Builder} {r r' : Reader} : Turns e holes b r → b.turn r = .ok (some (b', r')) → Turns e holes b' r'

theorem Excerpt.Turns.rereads {e : Excerpt} {holes : List Hole} {b : Builder} {r : Reader} (h : e.Turns holes b r) :
    ∃ read longest, (Reader.start e holes).Rereads read longest r := by
  induction h with
  | start => exact ⟨[], [], .start⟩
  | turn _ hturn ih =>
    obtain ⟨read, longest, h⟩ := ih
    obtain ⟨t, us, longest', -, h'⟩ := Builder.turn_rereads h hturn
    exact ⟨_, longest', h'⟩

/-- Parsing ends. Each turn that does not fail leaves less to be read than there was, although it may push back what ended
a construct and the spaces and comments in front of it; inside of a construct each token that is read does so, too. So
with as many turns as the text has bytes the loop comes to an end, and parsing is what it builds. -/
theorem Root.parse_ends (e : Excerpt) (holes : List Hole) (role : Role) :
    (∀ b r b' r', e.Turns holes b r → b.turn r = .ok (some (b', r')) → r'.unread < r.unread) ∧
    (∀ b r t inner x u o behind, e.Turns holes b r → r.next = (.ok (some t), inner) →
      Relation.ReflTransGen (Reader.Goes t.goesOn) (t.scan, inner) x →
      x.2.readTurn t.goesOn x.1 = .ok (some (u, o, behind)) → behind.unread < x.2.unread) ∧
    ∃ built, Builder.loop e.text.size { excerpt := e, holes := (Reader.start e holes).holes } (Reader.start e holes) =
      some built ∧ Root.parse e holes role = built >>= (·.finish role) := by
  refine ⟨fun b r b' r' hreached hturn => ?_, fun b r t inner x u o behind hreached hnext hgoes hturn => ?_, ?_⟩
  · obtain ⟨read, longest, h⟩ := hreached.rereads
    obtain ⟨t, us, longest', ht, h'⟩ := Builder.turn_rereads h hturn
    exact h.shrinks ht h'
  · obtain ⟨read, longest, h⟩ := hreached.rereads
    obtain ⟨us, longest', hx⟩ := (h.next hnext).goes (x := (t.scan, inner)) hgoes
    exact hx.next_shrinks (Reader.readTurn_eq_some hturn).1
  · have hstart : (Reader.start e holes).Rereads [] [] (Reader.start e holes) := .start
    have hunread : (Reader.start e holes).unread ≤ e.text.size := by
      have hsize := hstart.unread
      omega
    exact ⟨_, Builder.loop_eq hstart hunread (Nat.le_refl _), rfl⟩

/-- A declaration that an at-word ends: of seven tokens that the first turn reads four are pushed back. -/
theorem Root.parse_ends_pushed_back :
    let e : Excerpt := ⟨"a:b /*é*/ @m;".toList, Position.front, none⟩
    ∃ b r, Builder.turn { excerpt := e, holes := (Reader.start e []).holes } (Reader.start e []) = .ok (some (b, r)) ∧
      r.position = 13 ∧ r.returned.length = 4 ∧ r.unread < (Reader.start e []).unread := by
  intro e
  obtain ⟨x, hx⟩ : ∃ x, x = Builder.turn { excerpt := e, holes := (Reader.start e []).holes } (Reader.start e []) :=
    ⟨_, rfl⟩
  have hturn : x.toOption.join.map (fun y => (y.2.position, y.2.returned.length)) = some (13, 4) :=
    hx ▸ by decide +kernel
  rcases x with fault | _ | ⟨b, r⟩
  · cases hturn
  · cases hturn
  · obtain ⟨hposition, hreturned⟩ := Prod.mk.inj (Option.some.inj hturn)
    have hless := (parse_ends e [] (.component [] none)).1 _ _ b r .start hx.symm
    exact ⟨b, r, hx.symm, hposition, hreturned, hless⟩

end TaggedStyles
