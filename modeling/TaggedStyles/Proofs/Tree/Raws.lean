import TaggedStyles.Proofs.Tree.Moves

/-! Where the raws of a parsed tree stand in the text it was read from. Each raw is recorded together with
the place where it ends (`Raws.Ended`, kept by every operation on a builder), and the text that was read
has it right in front of that place. -/
namespace TaggedStyles
set_option autoImplicit false

/-! ## Raws with ends -/

/-- What stands before a node has an end, and any other raw has one if it is set. -/
structure Raws.Ended (r : Raws) : Prop where
  before : r.before.isSome = true ∧ r.ends.before.isSome = true
  after : r.after.isSome = r.ends.after.isSome
  ownSemicolon : r.ownSemicolon.isSome = r.ends.ownSemicolon.isSome

theorem Raws.Begun.ended {r : Raws} (h : r.Begun) : r.Ended :=
  ⟨h.before, by rw [h.after.1, h.after.2]; rfl, by rw [h.ownSemicolon.1, h.ownSemicolon.2]; rfl⟩

mutual

/-- A node and all nodes below it have ends for their raws. -/
def Node.Ended : Node → Prop
  | .leaf _ raws _ => raws.Ended
  | .block _ ns raws _ => raws.Ended ∧ EndedAll ns

def EndedAll : List Node → Prop
  | [] => True
  | n :: ns => n.Ended ∧ EndedAll ns

end

theorem endedAll_iff {ns : List Node} : EndedAll ns ↔ ∀ n ∈ ns, n.Ended := by
  induction ns with
  | nil => simp [EndedAll]
  | cons n ns ih => simp [EndedAll, ih]

theorem endedAll_append {ns ms : List Node} : EndedAll (ns ++ ms) ↔ EndedAll ns ∧ EndedAll ms := by
  simp only [endedAll_iff, List.mem_append, or_imp, forall_and]

mutual

theorem Node.Ended.preorder {n : Node} (h : n.Ended) (depth index : Nat) :
    ∀ x ∈ n.preorder depth index, x.node.raws.Ended := by
  intro x hx
  cases n with
  | leaf content raws source =>
    rw [Node.preorder, List.mem_singleton] at hx
    rw [hx]
    exact h
  | block header ns raws source =>
    rw [Node.preorder, List.mem_cons] at hx
    cases hx with
    | inl hx =>
      rw [hx]
      exact h.1
    | inr hx => exact EndedAll.preorder h.2 (depth + 1) 0 x hx

theorem EndedAll.preorder {ns : List Node} (h : EndedAll ns) (depth index : Nat) :
    ∀ x ∈ preorder depth index ns, x.node.raws.Ended := by
  intro x hx
  cases ns with
  | nil => cases hx
  | cons n ns =>
    rw [TaggedStyles.preorder, List.mem_append] at hx
    cases hx with
    | inl hx => exact Node.Ended.preorder h.1 depth index x hx
    | inr hx => exact EndedAll.preorder h.2 depth (index + 1) x hx

end

/-! ## Builders -/

structure Frame.Ended (f : Frame) : Prop where
  raws : f.raws.Ended
  nodes : EndedAll f.nodes

namespace Builder

/-- All raws in a builder have ends, those of open blocks included. -/
structure Ended (b : Builder) : Prop where
  nodes : EndedAll b.nodes
  frames : ∀ f ∈ b.frames, f.Ended

variable {b b' : Builder} {t : Token} {ts : List Token}

theorem Ended.mapNodes (h : b.Ended) {f : List Node → List Node} (hf : ∀ ns, EndedAll ns → EndedAll (f ns)) :
    (b.mapNodes f).Ended := by
  obtain ⟨hnodes, hframes⟩ := h
  unfold Builder.mapNodes
  split
  · exact ⟨hf _ hnodes, hframes⟩
  · rename_i frame frames he
    rw [he] at hframes
    refine ⟨hnodes, fun g hg => ?_⟩
    cases List.mem_cons.1 hg with
    | inl hg =>
      have hframe := hframes frame List.mem_cons_self
      rw [hg]
      exact ⟨hframe.raws, hf _ hframe.nodes⟩
    | inr hg => exact hframes g (List.mem_cons_of_mem _ hg)

theorem Ended.add (h : b.Ended) {n : Node} (hn : n.Ended) : (b.add n).Ended :=
  h.mapNodes fun _ hns => endedAll_append.2 ⟨hns, hn, trivial⟩

theorem Ended.openBlock (h : b.Ended) {f : Frame} (hf : f.Ended) : (b.openBlock f).Ended := by
  refine ⟨h.nodes, fun g hg => ?_⟩
  cases List.mem_cons.1 hg with
  | inl hg => exact hg ▸ hf
  | inr hg => exact h.frames g hg

theorem Ended.lastNode (h : b.Ended) {n : Node} (hlast : b.lastNode? = some n) : n.Ended := by
  unfold lastNode? at hlast
  split at hlast
  · exact endedAll_iff.1 h.nodes n (List.mem_of_getLast? hlast)
  · rename_i f fs he
    have hf := h.frames f (by rw [he]; exact List.mem_cons_self)
    exact endedAll_iff.1 hf.nodes n (List.mem_of_getLast? hlast)

theorem Ended.comment (h : b.Ended) (t : Token) : (b.comment t).Ended := by
  refine Ended.add (b := { b with pending := [] }) ⟨h.nodes, h.frames⟩ ?_
  exact ⟨⟨rfl, rfl⟩, rfl, rfl⟩

theorem Ended.freeSemicolon (h : b.Ended) (t : Token) : (b.freeSemicolon t).Ended := by
  unfold Builder.freeSemicolon
  split
  · rename_i selector nodes raws source hlast
    split
    · exact ⟨h.nodes, h.frames⟩
    · have hrule := h.lastNode hlast
      refine Ended.mapNodes (b := { b with pending := [] }) ⟨h.nodes, h.frames⟩ fun ns hns => ?_
      refine endedAll_append.2
        ⟨endedAll_iff.2 fun n hn => ?_, ⟨⟨hrule.1.before, hrule.1.after, rfl⟩, hrule.2⟩, trivial⟩
      exact endedAll_iff.1 hns n ((List.dropLast_prefix ns).subset hn)
  · exact ⟨h.nodes, h.frames⟩

theorem Ended.close (h : b.Ended) (hb : b.close t = .ok b') : b'.Ended := by
  obtain ⟨hnodes, hframes⟩ := h
  unfold Builder.close at hb
  split at hb
  · cases hb
  · rename_i f fs he
    obtain rfl := Except.ok.inj hb
    rw [he] at hframes
    have hf := hframes f List.mem_cons_self
    refine Ended.add (b := { b with frames := fs, pending := [], semicolon := false }) ?_ ?_
    · exact ⟨hnodes, fun g hg => hframes g (List.mem_cons_of_mem f hg)⟩
    · exact ⟨⟨hf.raws.before, rfl, hf.raws.ownSemicolon⟩, hf.nodes⟩

theorem Ended.move (h : b.Ended) (hmove : Move ts b b') : b'.Ended := by
  cases hmove with
  | wait => exact ⟨h.nodes, h.frames⟩
  | @leaf content raws source semicolon hleaf =>
    refine Ended.add (b := { b with semicolon := semicolon }) ⟨h.nodes, h.frames⟩ ?_
    exact hleaf.begun.ended
  | comment => exact h.comment _
  | openBlock hf => exact h.openBlock ⟨hf.raws.ended, hf.nodes ▸ trivial⟩
  | close _ _ hb => exact h.close hb
  | freeSemicolon => exact h.freeSemicolon _

end Builder

/-! ## Raws in the text -/

/-- A raw of the text in front of the place in the source that is said to be its end; a raw that is not set
has no end. -/
def Excerpt.Holds (e : Excerpt) : (raw : Option Text) → (stop : Option Nat) → Prop
  | none, none => True
  | some t, some stop =>
    e.origin.offset + t.size ≤ stop ∧
      e.text.slice? (stop - e.origin.offset - t.size) (stop - e.origin.offset) = some t
  | _, _ => False

namespace Root
variable {e : Excerpt} {holes : List Hole} {role : Role} {r : Root}

theorem ended_of_parse (h : Root.parse e holes role = .ok r) : EndedAll r.nodes := by
  obtain ⟨built, hnodes, hmoves⟩ := moves_of_parse h
  have hstart : Builder.Ended { excerpt := e, holes := (Reader.start e holes).holes } := ⟨trivial, by simp⟩
  exact hnodes ▸ (hmoves.keep (fun b b' hmove hb => hb.move hmove) hstart).nodes

theorem ReadFrom.holds {cut : Nat → Prop} (h : r.ReadFrom cut e holes role) {t : Text} {stop : Nat}
    (hmem : (t, stop) ∈ r.placedRaws) : e.Holds (some t) (some stop) := by
  obtain ⟨front, back, htext, rfl⟩ := h.lays.raw_mem ((raw_mem_pieces_iff h.complete).2 hmem)
  rw [Nat.zero_add]
  refine ⟨by omega, ?_⟩
  rw [Text.slice?_eq_some]
  exact ⟨front, back, htext, by omega, by omega⟩

theorem ReadFrom.holds_of_mem {cut : Nat → Prop} (h : r.ReadFrom cut e holes role) {x : Entry}
    (hx : x ∈ preorder 1 0 r.nodes) {raw : Option Text} {stop : Option Nat}
    (hmem : (raw, stop) ∈ [(x.node.raws.before, x.node.beforeEnd?), (x.node.raws.after, x.node.raws.ends.after),
      (x.node.raws.ownSemicolon, x.node.raws.ends.ownSemicolon)])
    (hset : raw.isSome = stop.isSome) : e.Holds raw stop := by
  cases raw with
  | none =>
    cases stop with
    | none => trivial
    | some stop => cases hset
  | some t =>
    cases stop with
    | none => cases hset
    | some stop =>
      have hplaced : (t, stop) ∈ x.node.placedRaws := List.mem_filterMap.2 ⟨_, hmem, rfl⟩
      exact h.holds (List.mem_append_left _ (List.mem_flatMap.2 ⟨x, hx, hplaced⟩))

/-- Wherever a node stands in a parsed tree, the text that was read has the raw before the node, the raw
before its closing mark and its own semicolon right in front of their ends. What stands behind the last
node of all is the end of the text. -/
theorem raws_of_parse (h : Root.parse e holes role = .ok r) :
    (∀ x ∈ preorder 1 0 r.nodes, x.node.raws.before.isSome = true ∧
      e.Holds x.node.raws.before x.node.raws.ends.before ∧
      e.Holds x.node.raws.after x.node.raws.ends.after ∧
      e.Holds x.node.raws.ownSemicolon x.node.raws.ends.ownSemicolon) ∧
    (∃ front, e.text = front ++ r.after) ∧ r.rangeEnd = e.origin.offset + e.text.size := by
  obtain ⟨hread, -, -⟩ := parse_spec (Cuts.trivial _ _) h
  refine ⟨fun x hx => ?_, ?_, hread.rangeEnd⟩
  · obtain ⟨⟨hbefore, hend⟩, hafter, hown⟩ := (ended_of_parse h).preorder 1 0 x hx
    have hplace : x.node.beforeEnd? = x.node.raws.ends.before := by
      obtain ⟨stop, hstop⟩ := Option.isSome_iff_exists.1 hend
      rw [Node.beforeEnd?, hstop]
      rfl
    refine ⟨hbefore, ?_, hread.holds_of_mem hx (by simp) hafter, hread.holds_of_mem hx (by simp) hown⟩
    exact hread.holds_of_mem hx (by simp [hplace]) (hbefore.trans hend.symm)
  · obtain ⟨hsize, hslice⟩ := hread.holds (List.mem_append_right _ (List.mem_singleton.2 rfl))
    obtain ⟨front, back, htext, hfront, hback⟩ := Text.slice?_eq_some.1 hslice
    have hrange := hread.rangeEnd
    have hnil : back = [] := by
      have htotal := congrArg Text.size htext
      rw [Text.size_append, Text.size_append] at htotal
      exact Text.size_eq_zero.1 (by omega)
    refine ⟨front, ?_⟩
    rw [htext, hnil, List.append_nil]

/-- A hole waits for the rule behind it, and the semicolon of the rule with the space in front of it ends
where the raw before the last declaration starts. -/
theorem raws_of_parse_own_semicolon :
    ∃ r, Root.parse ⟨"$\x7bx\x7d\na\x7bb:c\x7d ; *e:f".toList, ⟨7, 1, 8⟩, none⟩ [⟨0, 3⟩] = .ok r ∧
      r.placedRaws = [("$\x7bx\x7d\n".toList, 12), ([], 17), (" ;".toList, 20), ([], 14), (" *".toList, 22),
        ([], 25)] ∧
      r.rangeEnd = 25 := by
  have hraws : (Root.parse ⟨"$\x7bx\x7d\na\x7bb:c\x7d ; *e:f".toList, ⟨7, 1, 8⟩, none⟩ [⟨0, 3⟩]).toOption.map
      Root.placedRaws = some [("$\x7bx\x7d\n".toList, 12), ([], 17), (" ;".toList, 20), ([], 14),
        (" *".toList, 22), ([], 25)] := by decide +kernel
  obtain ⟨r, hr⟩ : ∃ r, Root.parse
      ⟨"$\x7bx\x7d\na\x7bb:c\x7d ; *e:f".toList, ⟨7, 1, 8⟩, none⟩ [⟨0, 3⟩] = .ok r :=
    exists_ok_of_isOk (by decide +kernel)
  rw [hr] at hraws
  exact ⟨r, hr, Option.some.inj hraws, (raws_of_parse hr).2.2.trans (by decide)⟩

end Root
end TaggedStyles
