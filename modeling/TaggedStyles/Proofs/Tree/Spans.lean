import TaggedStyles.Proofs.Tree.Parser
import TaggedStyles.Proofs.Token.Lossless

/-! The spans of a parsed tree nest. What a builder holds lies in order in front of the next token
(`Builder.InOrder`): siblings one behind the other, and the nodes of an open block behind its start. Each operation
moves that bound on over the tokens it takes. -/
namespace TaggedStyles
set_option autoImplicit false

/-! ## Tokens in a row -/

/-- Where a token says that its last character stands, it does stand. -/
def Token.Anchored (t : Token) : Prop := ∀ a ∈ t.last, ∃ i ∈ t.start, i ≤ a ∧ a < i + t.text.size

/-- Tokens as they are read from an offset on, with their offsets. -/
structure Lined (i : Nat) (ts : List Token) : Prop where
  tiled : Tiled (fun _ => True) i ts
  anchored : ∀ t ∈ ts, t.Anchored

namespace Lined
variable {i a : Nat} {t : Token} {ts us : List Token}

theorem left (h : Lined i (ts ++ us)) : Lined i ts :=
  ⟨h.tiled.left, fun t ht => h.anchored t (List.mem_append_left us ht)⟩

theorem right (h : Lined i (ts ++ us)) : Lined (i + (Token.joined ts).size) us :=
  ⟨h.tiled.right, fun t ht => h.anchored t (List.mem_append_right ts ht)⟩

theorem tail (h : Lined i (t :: ts)) : Lined (i + t.text.size) ts :=
  ⟨h.tiled.tail, fun u hu => h.anchored u (List.mem_cons_of_mem t hu)⟩

theorem size_pos (h : Lined i (t :: ts)) : 0 < t.text.size := Text.size_pos h.tiled.fits.text_ne_nil

theorem start (h : Lined i (t :: ts)) (ht : t.kind ≠ .space) : t.start = some i := by
  rw [h.tiled.fits.start, if_neg ht]

theorem anchor_head (h : Lined i (t :: ts)) (ha : t.anchor? = some a) : i ≤ a ∧ a < i + t.text.size := by
  have hpos := h.size_pos
  have hstart : ∀ j ∈ t.start, j = i := by
    intro j hj
    rw [h.tiled.fits.start] at hj
    split at hj
    · cases hj
    · exact (Option.some.inj hj).symm
  cases hlast : t.last with
  | none =>
    rw [Token.anchor?, hlast] at ha
    have hi := hstart a ha
    omega
  | some last =>
    rw [Token.anchor?, hlast] at ha
    obtain rfl := Option.some.inj ha
    obtain ⟨j, hj, hin⟩ := h.anchored t List.mem_cons_self last hlast
    rwa [hstart j hj] at hin

theorem anchor (h : Lined i ts) (ht : t ∈ ts) (ha : t.anchor? = some a) :
    i ≤ a ∧ a < i + (Token.joined ts).size := by
  induction ts generalizing i with
  | nil => cases ht
  | cons u us ih =>
    rw [Token.joined_cons, Text.size_append]
    cases List.mem_cons.1 ht with
    | inl ht =>
      have hin := h.anchor_head (ht ▸ ha)
      omega
    | inr ht =>
      have hin := ih h.tail ht
      omega

theorem lastAnchor (h : Lined i ts) (ha : Run.lastAnchor? ts = some a) : i ≤ a ∧ a < i + (Token.joined ts).size := by
  obtain ⟨t, ht, hta⟩ := List.exists_of_findSome?_eq_some ha
  exact h.anchor (List.mem_reverse.1 ht) hta

end Lined

theorem Run.lastAnchor?_append {us : List Token} (ts : List Token) (h : (Run.lastAnchor? us).isSome = true) :
    Run.lastAnchor? (ts ++ us) = Run.lastAnchor? us := by
  rw [Run.lastAnchor?, List.reverse_append, List.findSome?_append]
  exact Option.or_of_isSome h

/-- What is taken for the end of a declaration lies between its property and the end of its run. -/
theorem Lined.stop {i a : Nat} {u last : Token} {dropped us tail : List Token}
    (h : Lined i (dropped ++ (u :: us ++ tail))) (hu : u.kind ≠ .space)
    (hlast : (dropped ++ (u :: us ++ tail)).getLast? = some last)
    (ha : (last.anchor? <|> Run.lastAnchor? (dropped ++ u :: us)) = some a) :
    i + (Token.joined dropped).size ≤ a ∧ a < i + (Token.joined (dropped ++ (u :: us ++ tail))).size := by
  have hright := h.right
  rw [Token.joined_append, Text.size_append, ← Nat.add_assoc]
  cases hanchor : last.anchor? with
  | some b =>
    rw [hanchor] at ha
    obtain rfl := Option.some.inj ha
    rw [List.getLast?_append, Option.or_of_isSome (by simp)] at hlast
    exact hright.anchor (List.mem_of_getLast? hlast) hanchor
  | none =>
    have hfirst : (Run.lastAnchor? (u :: us)).isSome = true := by
      rw [Run.lastAnchor?, List.findSome?_isSome_iff]
      refine ⟨u, List.mem_reverse.2 List.mem_cons_self, ?_⟩
      rw [Token.anchor?, hright.start hu]
      cases u.last <;> rfl
    rw [hanchor, Run.lastAnchor?_append dropped hfirst] at ha
    have hin := hright.left.lastAnchor ha
    rw [Token.joined_append, Text.size_append]
    omega

namespace Reader

theorem tokenOf_anchored {l : Lexeme} (i : Nat) (hl : l.text ≠ []) : (tokenOf l i).Anchored := by
  intro a ha
  have hsplit := congrArg Text.size (List.dropLast_concat_getLast hl)
  have hpos := Char.utf8Size_pos (l.text.getLast hl)
  rw [Text.size_append, Text.size_cons, Text.size_nil] at hsplit
  have hstart : (tokenOf l i).start = some i := by
    rw [tokenOf_start, if_neg]
    intro hk
    rw [tokenOf, hk] at ha
    cases ha
  refine ⟨i, hstart, ?_⟩
  rw [tokenOf_last ha, tokenOf_text]
  omega

theorem drain_lined (e : Excerpt) (holes : List Hole) : Lined 0 (start e holes).drain.1 := by
  refine ⟨(drain_tiled (Cuts.trivial _ _)).1, fun t ht => ?_⟩
  obtain ⟨i, cs, l, hreads, rfl⟩ := of_mem_take rfl ht
  exact tokenOf_anchored i hreads.text_ne_nil

end Reader

/-! ## Nodes in order -/

mutual

/-- A node between two offsets, with a known end if it is a block, and in order with all nodes below it. -/
def Node.LiesIn (lo hi : Nat) : Node → Prop
  | .leaf _ _ source => ∃ s, source = some s ∧ lo ≤ s.start.offset ∧ s.start.offset < hi ∧
      ∀ stop ∈ s.stop, s.start.offset ≤ stop.offset ∧ stop.offset ≤ hi
  | .block _ ns _ source => ∃ start stop, source = some ⟨start, some stop⟩ ∧ lo ≤ start.offset ∧
      start.offset < stop.offset ∧ stop.offset ≤ hi ∧ Row (start.offset + 1) stop.offset ns

/-- Siblings between two offsets, each behind the one before it. -/
def Row (lo hi : Nat) : List Node → Prop
  | [] => lo ≤ hi
  | n :: ns => ∃ mid, n.LiesIn lo mid ∧ Row mid hi ns

end

theorem Node.LiesIn.lt {lo hi : Nat} {n : Node} (h : n.LiesIn lo hi) : lo < hi := by
  cases n with
  | leaf =>
    obtain ⟨s, -, hlo, hhi, -⟩ := h
    omega
  | block =>
    obtain ⟨start, stop, -, hlo, hlt, hhi, -⟩ := h
    omega

theorem Node.LiesIn.mono {lo lo' hi hi' : Nat} {n : Node} (h : n.LiesIn lo hi) (hlo : lo' ≤ lo) (hhi : hi ≤ hi') :
    n.LiesIn lo' hi' := by
  cases n with
  | leaf =>
    obtain ⟨s, hs, hstart, hlt, hstop⟩ := h
    refine ⟨s, hs, by omega, by omega, fun stop hmem => ?_⟩
    have hin := hstop stop hmem
    omega
  | block =>
    obtain ⟨start, stop, hs, hstart, hlt, hstop, hrow⟩ := h
    exact ⟨start, stop, hs, by omega, hlt, by omega, hrow⟩

namespace Row
variable {lo lo' mid hi hi' : Nat} {n : Node} {ns ms : List Node}

theorem le (h : Row lo hi ns) : lo ≤ hi := by
  induction ns generalizing lo with
  | nil => exact h
  | cons n ns ih =>
    obtain ⟨mid, hn, hns⟩ := h
    have hlt := hn.lt
    have hle := ih hns
    omega

theorem mono (h : Row lo hi ns) (hlo : lo' ≤ lo) (hhi : hi ≤ hi') : Row lo' hi' ns := by
  induction ns generalizing lo lo' with
  | nil => exact Nat.le_trans (Nat.le_trans hlo h) hhi
  | cons n ns ih =>
    obtain ⟨mid, hn, hns⟩ := h
    exact ⟨mid, hn.mono hlo (Nat.le_refl mid), ih hns (Nat.le_refl mid)⟩

theorem append_iff : Row lo hi (ns ++ ms) ↔ ∃ mid, Row lo mid ns ∧ Row mid hi ms := by
  induction ns generalizing lo with
  | nil =>
    constructor
    · intro h
      exact ⟨lo, Nat.le_refl lo, h⟩
    · rintro ⟨mid, hle, h⟩
      exact h.mono hle (Nat.le_refl hi)
  | cons n ns ih =>
    constructor
    · rintro ⟨mid, hn, h⟩
      obtain ⟨mid', hns, hms⟩ := ih.1 h
      exact ⟨mid', ⟨mid, hn, hns⟩, hms⟩
    · rintro ⟨mid', ⟨mid, hn, hns⟩, hms⟩
      exact ⟨mid, hn, ih.2 ⟨mid', hns, hms⟩⟩

theorem add (h : Row lo mid ns) (hn : n.LiesIn mid hi) : Row lo hi (ns ++ [n]) :=
  append_iff.2 ⟨mid, h, hi, hn, Nat.le_refl hi⟩

end Row

/-- A node that starts behind the start of another and not in front of its end. -/
def Node.Follows (m n : Node) : Prop :=
  ∀ t ∈ m.source, ∀ s ∈ n.source, s.start.offset < t.start.offset ∧ ∀ stop ∈ s.stop, stop.offset ≤ t.start.offset

theorem Node.LiesIn.span {lo hi : Nat} {n : Node} (h : n.LiesIn lo hi) :
    ∃ s, n.source = some s ∧ lo ≤ s.start.offset ∧ s.start.offset < hi ∧
      ∀ stop ∈ s.stop, s.start.offset ≤ stop.offset ∧ stop.offset ≤ hi := by
  cases n with
  | leaf content raws source => exact h
  | block header ns raws source =>
    obtain ⟨start, stop, hs, hlo, hlt, hhi, -⟩ := h
    refine ⟨_, hs, hlo, Nat.lt_of_lt_of_le hlt hhi, fun p hp => ?_⟩
    obtain rfl := Option.some.inj hp
    exact ⟨Nat.le_of_lt hlt, hhi⟩

namespace Row
variable {lo hi : Nat} {ns : List Node}

theorem spans (h : Row lo hi ns) : (∀ n ∈ ns, n.LiesIn lo hi) ∧ ns.Pairwise fun n m => m.Follows n := by
  induction ns generalizing lo with
  | nil => exact ⟨by simp, .nil⟩
  | cons n ns ih =>
    obtain ⟨mid, hn, hns⟩ := h
    obtain ⟨hlies, hfollows⟩ := ih hns
    have hlt := hn.lt
    have hle := hns.le
    refine ⟨List.forall_mem_cons.2 ⟨hn.mono (Nat.le_refl lo) hle, fun m hm => ?_⟩,
      List.pairwise_cons.2 ⟨fun m hm => ?_, hfollows⟩⟩
    · exact (hlies m hm).mono (by omega) (Nat.le_refl hi)
    · obtain ⟨t, ht, hstart, -⟩ := (hlies m hm).span
      obtain ⟨s, hs, -, hmid, hstop⟩ := hn.span
      intro t' ht' s' hs'
      obtain rfl := Option.some.inj (ht.symm.trans ht')
      obtain rfl := Option.some.inj (hs.symm.trans hs')
      refine ⟨by omega, fun stop hmem => ?_⟩
      have hin := hstop stop hmem
      omega

end Row

mutual

theorem Node.LiesIn.preorder {lo hi : Nat} {n : Node} (h : n.LiesIn lo hi) (depth index : Nat) :
    ∀ x ∈ n.preorder depth index, x.node.LiesIn lo hi := by
  intro x hx
  cases n with
  | leaf content raws source =>
    rw [Node.preorder, List.mem_singleton] at hx
    rw [hx]
    exact h
  | block header ns raws source =>
    rw [Node.preorder, List.mem_cons] at hx
    cases hx with
    | inl hx =>
      rw [hx]
      exact h
    | inr hx =>
      obtain ⟨start, stop, -, hlo, -, hhi, hns⟩ := h
      exact (Row.preorder hns (depth + 1) 0 x hx).mono (by omega) hhi

theorem Row.preorder {lo hi : Nat} {ns : List Node} (h : Row lo hi ns) (depth index : Nat) :
    ∀ x ∈ preorder depth index ns, x.node.LiesIn lo hi := by
  intro x hx
  cases ns with
  | nil => cases hx
  | cons n ns =>
    obtain ⟨mid, hn, hns⟩ := h
    rw [TaggedStyles.preorder, List.mem_append] at hx
    cases hx with
    | inl hx => exact (Node.LiesIn.preorder hn depth index x hx).mono (Nat.le_refl lo) hns.le
    | inr hx => exact (Row.preorder hns depth (index + 1) x hx).mono (Nat.le_of_lt hn.lt) (Nat.le_refl hi)

end

/-! ## Builders -/

/-- The nodes of a root and of the blocks that are open in it, innermost first, up to an offset. Each block starts
behind the nodes in front of it. -/
def OpenRow (lo hi : Nat) (nodes : List Node) : List Frame → Prop
  | [] => Row lo hi nodes
  | f :: fs => Row (f.source.start.offset + 1) hi f.nodes ∧ OpenRow lo f.source.start.offset nodes fs

theorem OpenRow.mono {lo hi hi' : Nat} {nodes : List Node} {fs : List Frame} (h : OpenRow lo hi nodes fs)
    (hhi : hi ≤ hi') : OpenRow lo hi' nodes fs := by
  cases fs with
  | nil => exact Row.mono h (Nat.le_refl lo) hhi
  | cons f fs => exact ⟨h.1.mono (Nat.le_refl _) hhi, h.2⟩

namespace Builder

/-- All that a builder holds is in order and lies in front of an offset of the source. -/
structure InOrder (e : Excerpt) (hi : Nat) (b : Builder) : Prop where
  excerpt : b.excerpt = e
  nodes : OpenRow e.origin.offset hi b.nodes b.frames

namespace InOrder
variable {e : Excerpt} {b b' : Builder} {i j hi hi' : Nat} {n : Node} {t : Token} {ts us rest : List Token}
  {fault : Option Fault}

theorem mono (h : b.InOrder e hi) (hhi : hi ≤ hi') : b.InOrder e hi' := ⟨h.excerpt, h.nodes.mono hhi⟩

theorem position (h : b.InOrder e hi) (i : Nat) : (b.position i).offset = e.origin.offset + i := by
  rw [position_offset, h.excerpt]

theorem positionBehind (h : b.InOrder e hi) (i : Nat) : (b.positionBehind i).offset = e.origin.offset + i + 1 := by
  rw [positionBehind_offset, h.excerpt]

/-! ## Nodes -/

theorem mapNodes {f : List Node → List Node} (h : b.InOrder e hi)
    (hf : ∀ lo ns, b.lastNode? = ns.getLast? → Row lo hi ns → Row lo hi' (f ns)) :
    (b.mapNodes f).InOrder e hi' := by
  obtain ⟨hexcerpt, hnodes⟩ := h
  refine ⟨(mapNodes_excerpt f b).trans hexcerpt, ?_⟩
  unfold lastNode? at hf
  unfold Builder.mapNodes
  split
  · rename_i he
    rw [he] at hf hnodes ⊢
    exact hf _ _ rfl hnodes
  · rename_i frame frames he
    rw [he] at hf hnodes
    exact ⟨hf _ _ rfl hnodes.1, hnodes.2⟩

theorem add (h : b.InOrder e hi) (hn : n.LiesIn hi hi') : (b.add n).InOrder e hi' :=
  h.mapNodes fun _ _ _ hns => hns.add hn

theorem addLeaf {content : Leaf} {raws : Raws} {source : Span} (h : b.InOrder e (e.origin.offset + i)) {s : Nat}
    (hs : i ≤ s ∧ s < j) (hstart : source.start.offset = e.origin.offset + s)
    (hstop : ∀ stop ∈ source.stop, e.origin.offset + s ≤ stop.offset ∧ stop.offset ≤ e.origin.offset + j) :
    (b.add (.leaf content raws (some source))).InOrder e (e.origin.offset + j) := by
  refine h.add ⟨source, rfl, by omega, by omega, fun stop hmem => ?_⟩
  have hin := hstop stop hmem
  omega

theorem openBlock {f : Frame} (h : b.InOrder e hi) (hf : f.nodes = [])
    (hstart : hi ≤ f.source.start.offset ∧ f.source.start.offset < hi') : (b.openBlock f).InOrder e hi' := by
  refine ⟨h.excerpt, ?_, h.nodes.mono hstart.1⟩
  rw [hf]
  exact hstart.2

theorem comment (h : b.InOrder e (e.origin.offset + i)) (ht : Lined i (t :: ts)) (hk : t.kind = .comment) :
    (b.comment t).InOrder e (e.origin.offset + (i + t.text.size)) := by
  have hstart := ht.start (by rw [hk]; decide)
  have hpos := ht.size_pos
  have hlast : i ≤ t.last.getD i ∧ t.last.getD i < i + t.text.size := by
    cases hlast : t.last with
    | none =>
      rw [Option.getD_none]
      omega
    | some a => exact ht.anchor_head (by rw [Token.anchor?, hlast]; rfl)
  have hb : Builder.InOrder e (e.origin.offset + i) { b with pending := [] } := ⟨h.excerpt, h.nodes⟩
  unfold Builder.comment
  simp only [hstart, Option.getD_some]
  refine hb.addLeaf (s := i) (by omega) (h.position i) fun stop hstop => ?_
  obtain rfl := Option.some.inj hstop
  rw [h.positionBehind]
  omega

theorem openRule (h : b.InOrder e (e.origin.offset + i)) (hts : Lined i (t :: ts)) (ht : t.kind ≠ .space) :
    (b.openRule (t :: ts)).InOrder e (e.origin.offset + (i + (Token.joined (t :: ts)).size)) := by
  obtain ⟨u, us, hrun, hu⟩ := Run.splitHoleLines_head b.holes hts.tiled ht
  have hlines := Run.splitHoleLines_append b.holes (t :: ts)
  have hb : Builder.InOrder e (e.origin.offset + i) b.taken := ⟨h.excerpt, h.nodes⟩
  unfold Builder.openRule
  generalize Run.splitHoleLines b.holes (t :: ts) = split at hrun hlines ⊢
  obtain ⟨lines, run⟩ := split
  simp only at hrun hlines ⊢
  subst hrun
  rw [← hlines] at hts ⊢
  have hpos := hts.right.size_pos
  refine hb.openBlock rfl ?_
  rw [List.head?_cons, Option.bind_some, hts.right.start hu, Option.getD_some, h.position, Token.joined_append,
    Token.joined_cons, Text.size_append, Text.size_append]
  omega

theorem openBareRule (h : b.InOrder e (e.origin.offset + i)) (ht : Lined i (t :: ts)) (hk : t.kind = .openCurly) :
    (b.openBareRule t).InOrder e (e.origin.offset + (i + t.text.size)) := by
  have hstart := ht.start (by rw [hk]; decide)
  have hpos := ht.size_pos
  have hb : Builder.InOrder e (e.origin.offset + i) b.taken := ⟨h.excerpt, h.nodes⟩
  unfold Builder.openBareRule
  simp only [hstart, Option.getD_some]
  refine hb.openBlock rfl ?_
  rw [h.position]
  omega

theorem declare {run : List Token} {custom : Bool} {reached : Nat} (h : b.InOrder e (e.origin.offset + i))
    (hrun : Lined i run) (hhead : ∀ t ∈ run.head?, t.kind ≠ .semicolon)
    (hb : b.declare run custom reached = .ok b') : b'.InOrder e (e.origin.offset + (i + (Token.joined run).size)) := by
  unfold Builder.declare at hb
  split at hb
  · rename_i last hlast
    obtain ⟨ts, tail, hts, hrun', htail⟩ : ∃ ts tail,
        (if last.kind = .semicolon then run.dropLast else run) = ts ∧ run = ts ++ tail ∧ ts ≠ [] := by
      obtain ⟨init, rfl⟩ := List.getLast?_eq_some_iff.1 hlast
      split
      · rename_i hk
        refine ⟨init, [last], List.dropLast_concat, rfl, ?_⟩
        rintro rfl
        exact hhead last rfl hk
      · exact ⟨_, [], rfl, (List.append_nil _).symm, by simp⟩
    simp only [hts] at hb
    obtain ⟨⟨before, kept⟩, hproperty, hb⟩ := bind_eq_ok.1 hb
    obtain ⟨⟨between, value⟩, -, hb⟩ := bind_eq_ok.1 hb
    obtain ⟨dropped, rfl, -, hword⟩ := Run.splitProperty_eq_ok (mapError_eq_ok.1 hproperty)
    obtain ⟨u, us, rfl, hu⟩ : ∃ u us, kept = u :: us ∧ u.kind = .word := by
      obtain ⟨t, more, hmore⟩ := List.exists_cons_of_ne_nil htail
      exact hword t (by rw [hmore]; rfl)
    obtain rfl := eq_of_guard hb
    rw [List.append_assoc] at hrun'
    subst hrun'
    have hspace : u.kind ≠ .space := by rw [hu]; decide
    have hpos := hrun.right.size_pos
    have hplace : b.position (((u :: us).head?.bind (·.start)).getD 0) =
        b.position (i + (Token.joined dropped).size) := by
      rw [List.head?_cons, Option.bind_some, hrun.right.start hspace, Option.getD_some]
    have hb : Builder.InOrder e (e.origin.offset + i)
        { b.taken with semicolon := decide (last.kind = .semicolon) } := ⟨h.excerpt, h.nodes⟩
    refine hb.addLeaf (s := i + (Token.joined dropped).size) ?_ ?_ fun stop hstop => ?_
    · rw [Token.joined_append, List.cons_append, Token.joined_cons, Text.size_append, Text.size_append]
      omega
    · rw [hplace, h.position]
    · obtain ⟨a, ha, rfl⟩ := Option.map_eq_some_iff.1 hstop
      have hin := hrun.stop hspace hlast ha
      rw [h.position]
      omega
  · obtain rfl := Except.ok.inj hb
    exact mono ⟨h.excerpt, h.nodes⟩ (by omega)

theorem fill (h : b.InOrder e (e.origin.offset + i)) (hts : Lined i ts) (hb : b.fill ts = .ok b') :
    b'.InOrder e (e.origin.offset + (i + (Token.joined ts).size)) := by
  induction ts generalizing b i with
  | nil =>
    obtain rfl := Except.ok.inj hb
    exact h
  | cons t ts ih =>
    rw [Token.joined_cons, Text.size_append, ← Nat.add_assoc i]
    rw [Builder.fill] at hb
    split at hb
    · exact ih (b := b.wait t.text) (mono ⟨h.excerpt, h.nodes⟩ (by omega)) hts.tail hb
    · split at hb
      · exact ih (h.comment hts ‹_›) hts.tail hb
      · cases hb

theorem freeSemicolon (h : b.InOrder e (e.origin.offset + i)) (ht : Lined i (t :: ts)) (hk : t.kind = .semicolon) :
    (b.freeSemicolon t).InOrder e (e.origin.offset + (i + t.text.size)) := by
  have hstart := ht.start (by rw [hk]; decide)
  have hpos := ht.size_pos
  have hwait : (b.wait t.text).InOrder e (e.origin.offset + (i + t.text.size)) :=
    mono ⟨h.excerpt, h.nodes⟩ (by omega)
  unfold Builder.freeSemicolon
  split
  · rename_i selector nodes raws source hlast
    split
    · exact hwait
    · have hb : Builder.InOrder e (e.origin.offset + i) { b with pending := [] } := ⟨h.excerpt, h.nodes⟩
      refine hb.mapNodes fun lo ns hns hrow => ?_
      obtain ⟨init, rfl⟩ := List.getLast?_eq_some_iff.1 (hns.symm.trans hlast)
      obtain ⟨mid, hinit, last, ⟨start, stop, rfl, hlo, hlt, hstop, hnodes⟩, (hle : last ≤ _)⟩ :=
        Row.append_iff.1 hrow
      rw [List.dropLast_concat]
      -- The rule goes on to the semicolon; its nodes end where they did.
      refine hinit.add ⟨start, _, rfl, hlo, ?_, ?_, hnodes.mono (Nat.le_refl _) ?_⟩
      all_goals rw [h.positionBehind, hstart, Option.getD_some]
      all_goals omega
  · exact hwait

theorem close (h : b.InOrder e (e.origin.offset + i)) (ht : Lined i (t :: ts)) (hk : t.kind = .closeCurly)
    (hb : b.close t = .ok b') : b'.InOrder e (e.origin.offset + (i + t.text.size)) := by
  have hstart := ht.start (by rw [hk]; decide)
  have hpos := ht.size_pos
  have hbehind := h.positionBehind i
  obtain ⟨hexcerpt, hnodes⟩ := h
  unfold Builder.close at hb
  split at hb
  · cases hb
  · rename_i f fs he
    obtain rfl := Except.ok.inj hb
    rw [he] at hnodes
    have hle := hnodes.1.le
    have hb : Builder.InOrder e f.source.start.offset { b with frames := fs, pending := [], semicolon := false } :=
      ⟨hexcerpt, hnodes.2⟩
    refine hb.add ⟨f.source.start, _, rfl, Nat.le_refl _, ?_, ?_, hnodes.1.mono (Nat.le_refl _) ?_⟩
    all_goals rw [hstart, Option.getD_some, hbehind]
    all_goals omega

/-! ## Steps -/

theorem stopBehind (h : b.InOrder e hi) (hts : Lined i ts) (hus : us ⊆ ts) :
    ∀ stop ∈ b.stopBehind us, e.origin.offset + i < stop.offset ∧
      stop.offset ≤ e.origin.offset + (i + (Token.joined ts).size) := by
  intro stop hstop
  obtain ⟨a, ha, rfl⟩ := Option.map_eq_some_iff.1 hstop
  obtain ⟨u, hu, hua⟩ := Option.bind_eq_some_iff.1 ha
  have hin := hts.anchor (hus (List.mem_of_getLast? hu)) hua
  rw [h.positionBehind]
  omega

theorem atRule (h : b.InOrder e (e.origin.offset + i)) (hts : Lined i (t :: ts)) (hk : t.kind = .atWord)
    (hb : b.atRule fault t ts = .ok (b', rest)) : ∃ us, t :: ts = us ++ rest ∧
      b'.InOrder e (e.origin.offset + (i + (Token.joined us).size)) := by
  have hstart := hts.start (by rw [hk]; decide)
  have hpos := hts.size_pos
  have hsplits := collectParams_splits [] ts
  unfold Builder.atRule at hb
  generalize collectParams [] ts = run at hb hsplits
  obtain ⟨ps, ending, unread⟩ := run
  have hsize : (Token.joined (t :: ps)).size = t.text.size + (Token.joined ps).size := Text.size_append ..
  have hwhole : ∀ s : Token, (Token.joined (t :: ps ++ [s])).size = (Token.joined (t :: ps)).size + s.text.size := by
    intro s
    rw [Token.joined_append, Text.size_append, Token.joined_cons s, Token.joined_nil, List.append_nil]
  simp only [hstart, Option.getD_some] at hb
  split at hb
  · cases hb
  · cases ending with
    | semicolon =>
      obtain ⟨s, us, rfl, hs, rfl⟩ := hsplits
      obtain ⟨rfl, rfl⟩ := Prod.mk.inj (Except.ok.inj hb)
      have hts : Lined i (t :: ps ++ s :: us) := hts
      have hmark := hts.right.start (by rw [hs]; decide)
      have hpos' := hts.right.size_pos
      have hnext : Builder.InOrder e (e.origin.offset + i) { b.taken with semicolon := true } :=
        ⟨h.excerpt, h.nodes⟩
      refine ⟨t :: ps ++ [s], by simp, ?_⟩
      rw [hwhole]
      refine hnext.addLeaf (s := i) (by omega) (h.position i) fun stop hstop => ?_
      obtain rfl := Option.some.inj hstop
      rw [h.positionBehind, hmark, Option.getD_some]
      omega
    | block =>
      obtain ⟨s, -, rfl⟩ := hsplits
      obtain ⟨rfl, rfl⟩ := Prod.mk.inj (Except.ok.inj hb)
      have hnext : Builder.InOrder e (e.origin.offset + i) b.taken := ⟨h.excerpt, h.nodes⟩
      refine ⟨t :: ps ++ [s], by simp, hnext.openBlock rfl ?_⟩
      rw [hwhole, h.position]
      omega
    | boundary s =>
      obtain ⟨hs, rfl⟩ := hsplits
      obtain ⟨built, hclose, hb⟩ := bind_eq_ok.1 hb
      obtain ⟨rfl, rfl⟩ := Prod.mk.inj (Except.ok.inj hb)
      have hts : Lined i (t :: ps ++ s :: unread) := hts
      have hnext : Builder.InOrder e (e.origin.offset + i) b.taken := ⟨h.excerpt, h.nodes⟩
      refine ⟨t :: ps ++ [s], by simp, ?_⟩
      rw [hwhole, ← Nat.add_assoc i]
      refine close (hnext.addLeaf (s := i) (by omega) (h.position i) fun stop hstop => ?_) hts.right hs hclose
      have hin := h.stopBehind hts.left (List.subset_cons_of_subset t List.filter_sublist.subset) stop hstop
      omega
    | exhausted =>
      obtain ⟨rfl, rfl⟩ := hsplits
      have hmem : (Run.splitEnd Token.isTrivia ts).1.dropWhile Token.isTrivia ⊆ t :: ts := by
        intro u hu
        refine List.mem_cons_of_mem t ?_
        rw [← Run.splitEnd_append Token.isTrivia ts]
        exact List.mem_append_left _ ((List.dropWhile_suffix _).subset hu)
      simp only [if_true] at hb
      split at hb
      · cases hb
      · obtain ⟨rfl, rfl⟩ := Prod.mk.inj (Except.ok.inj hb)
        refine ⟨t :: ts, (List.append_nil _).symm, ?_⟩
        refine addLeaf (b := { b.taken with pending := _ }) ⟨h.excerpt, h.nodes⟩ (s := i) (by omega) (h.position i)
          fun stop hstop => ?_
        have hin := h.stopBehind hts hmem stop hstop
        omega

theorem run (h : b.InOrder e (e.origin.offset + i)) (hts : Lined i (t :: ts)) (hkind : t.StartsRun)
    (hb : b.run fault t ts = .ok (b', rest)) : ∃ us, t :: ts = us ++ rest ∧
      b'.InOrder e (e.origin.offset + (i + (Token.joined us).size)) := by
  have hfound := Run.collects t.isCustom false [] none (t :: ts)
  generalize he : Run.collect t.isCustom false [] none (t :: ts) = found at hfound
  obtain ⟨-, hrest, hdone⟩ := run_spec he hb
  simp only [Token.StartsRun, List.mem_cons, List.not_mem_nil, or_false, not_or] at hkind
  obtain ⟨hspace, hsemi, hclose, -, hopen, hat⟩ := hkind
  have happ := hfound.append
  have hends := hfound.endsAsSaid
  obtain ⟨us, hus⟩ := hfound.head ⟨hclose, hat⟩
  obtain ⟨tokens, colon, opener, ending, unread⟩ := found
  simp only at hdone happ hus hrest
  subst hus
  unfold Run.Found.EndsAsSaid at hends
  rw [← happ] at hts ⊢
  have hhead : ∀ u ∈ (t :: us).head?, u.kind ≠ .semicolon := by
    intro u hu
    obtain rfl := Option.some.inj hu
    exact hsemi
  -- A declaration without a semicolon may leave the end of its run.
  have hdeclare : (∃ reached, b.declare (if t.isCustom then t :: us else (Run.splitEnd Token.isTrivia (t :: us)).1)
        t.isCustom reached = .ok b') →
      rest = (if t.isCustom then unread else (Run.splitEnd Token.isTrivia (t :: us)).2 ++ unread) →
      ∃ vs, t :: us ++ unread = vs ++ rest ∧ b'.InOrder e (e.origin.offset + (i + (Token.joined vs).size)) := by
    rintro ⟨reached, hb⟩ hrest
    have hsplit := Run.splitEnd_append Token.isTrivia (t :: us)
    cases hcustom : t.isCustom with
    | true =>
      rw [hcustom] at hb hrest
      exact ⟨t :: us, by rw [hrest]; rfl, h.declare hts.left hhead hb⟩
    | false =>
      rw [hcustom] at hb hrest
      simp only [Bool.false_eq_true, if_false] at hb hrest
      generalize Run.splitEnd Token.isTrivia (t :: us) = split at hsplit hb hrest
      obtain ⟨kept, left⟩ := split
      simp only at hsplit hb hrest
      rw [← hsplit] at hts hhead
      refine ⟨kept, by rw [← hsplit, hrest, List.append_assoc], h.declare hts.left.left ?_ hb⟩
      cases kept with
      | nil => intro u hu; cases hu
      | cons v kept => exact hhead
  cases ending with
  | block =>
    obtain ⟨init, s, htokens, hs⟩ := hends
    obtain ⟨init, rfl⟩ := exists_init htokens (hs ▸ hopen)
    rw [← List.cons_append] at hts hdone
    rw [List.dropLast_concat] at hdone
    refine ⟨_, by rw [hrest]; rfl, ?_⟩
    rw [hdone]
    refine (h.openRule hts.left.left hspace).mono ?_
    rw [← List.cons_append, Token.joined_append, Text.size_append]
    omega
  | semicolon =>
    cases colon with
    | false => exact ⟨_, by rw [hrest]; rfl, h.fill hts.left hdone⟩
    | true =>
      obtain ⟨reached, hb⟩ := hdone
      exact ⟨_, by rw [hrest]; rfl, h.declare hts.left hhead hb⟩
  | boundary next =>
    cases colon with
    | false => exact ⟨_, by rw [hrest]; rfl, h.fill hts.left hdone⟩
    | true => exact hdeclare hdone hrest
  | exhausted =>
    cases colon with
    | false => exact ⟨_, by rw [hrest]; rfl, h.fill hts.left hdone⟩
    | true => exact hdeclare hdone hrest

theorem step (h : b.InOrder e (e.origin.offset + i)) (hts : Lined i (t :: ts))
    (hb : b.step fault t ts = .ok (b', rest)) : ∃ us, t :: ts = us ++ rest ∧
      b'.InOrder e (e.origin.offset + (i + (Token.joined us).size)) := by
  have hone : (Token.joined [t]).size = t.text.size := by rw [Token.joined_cons, Token.joined_nil, List.append_nil]
  unfold Builder.step at hb
  split at hb
  · obtain ⟨rfl, rfl⟩ := Prod.mk.inj (Except.ok.inj hb)
    exact ⟨[t], rfl, mono ⟨h.excerpt, h.nodes⟩ (by omega)⟩
  · rename_i hk
    obtain ⟨rfl, rfl⟩ := Prod.mk.inj (Except.ok.inj hb)
    exact ⟨[t], rfl, hone ▸ h.freeSemicolon hts hk⟩
  · rename_i hk
    obtain ⟨built, hclose, he⟩ := map_eq_ok.1 hb
    obtain ⟨rfl, rfl⟩ := Prod.mk.inj he
    exact ⟨[t], rfl, hone ▸ h.close hts hk hclose⟩
  · rename_i hk
    obtain ⟨rfl, rfl⟩ := Prod.mk.inj (Except.ok.inj hb)
    exact ⟨[t], rfl, hone ▸ h.comment hts hk⟩
  · rename_i hk
    exact h.atRule hts hk hb
  · rename_i hk
    obtain ⟨rfl, rfl⟩ := Prod.mk.inj (Except.ok.inj hb)
    exact ⟨[t], rfl, hone ▸ h.openBareRule hts hk⟩
  · exact h.run hts (by simp_all [Token.StartsRun]) hb

theorem steps {m : Nat} (h : b.InOrder e (e.origin.offset + i)) (hts : Lined i ts)
    (hb : steps fault m b ts = .ok b') : b'.InOrder e (e.origin.offset + (i + (Token.joined ts).size)) := by
  induction m generalizing b i ts with
  | zero =>
    cases ts with
    | nil =>
      obtain ⟨-, rfl⟩ := steps_nil hb
      exact h
    | cons t ts =>
      obtain rfl := Except.ok.inj hb
      exact h.mono (by omega)
  | succ m ih =>
    cases ts with
    | nil =>
      obtain ⟨-, rfl⟩ := steps_nil hb
      exact h
    | cons t ts =>
      obtain ⟨⟨b₁, rest⟩, hstep, hb⟩ := bind_eq_ok.1 hb
      obtain ⟨us, htokens, h₁⟩ := h.step hts hstep
      rw [htokens] at hts ⊢
      rw [Token.joined_append, Text.size_append, ← Nat.add_assoc i]
      exact ih h₁ hts.right hb

theorem finish {role : Role} {r : Root} (h : b.InOrder e hi) (hb : b.finish role = .ok r) :
    Row e.origin.offset hi r.nodes ∧ r.rangeStart = e.origin.offset ∧
      r.rangeEnd = e.origin.offset + e.text.size := by
  obtain ⟨hexcerpt, hnodes⟩ := h
  unfold Builder.finish at hb
  split at hb
  · cases hb
  · rename_i he
    obtain rfl := Except.ok.inj hb
    rw [he] at hnodes
    exact ⟨hnodes, by rw [hexcerpt], by rw [hexcerpt]⟩

end InOrder
end Builder

/-! ## Roots -/

namespace Root
variable {e : Excerpt} {holes : List Hole} {role : Role} {r : Root}

theorem row_of_parse (h : Root.parse e holes role = .ok r) : Row r.rangeStart r.rangeEnd r.nodes := by
  obtain ⟨-, rest, htext, -⟩ := Reader.drain_tiled (Cuts.trivial e.text (holes.filter (Hole.fits e.text.size)))
  have hlined := Reader.drain_lined e holes
  unfold Root.parse at h
  rcases hdrain : (Reader.start e holes).drain with ⟨tokens, fault, last⟩
  simp only [hdrain] at h hlined htext
  obtain ⟨built, hsteps, hfinish⟩ := bind_eq_ok.1 h
  have hstart : Builder.InOrder e (e.origin.offset + 0) { excerpt := e, holes := (Reader.start e holes).holes } :=
    ⟨rfl, Nat.le_refl _⟩
  obtain ⟨hrow, hrangeStart, hrangeEnd⟩ := (hstart.steps hlined hsteps).finish hfinish
  have hsize := congrArg Text.size htext
  rw [Text.size_append] at hsize
  rw [hrangeStart, hrangeEnd]
  exact hrow.mono (Nat.le_refl _) (by omega)

/-- Every node of a parsed tree has a span within the range of the root, siblings follow each other, and the end of
a block is known, with all its nodes behind its start and not behind its end. -/
theorem spans_of_parse (h : Root.parse e holes role = .ok r) :
    (∀ x ∈ preorder 1 0 r.nodes, ∃ s, x.node.source = some s ∧ r.rangeStart ≤ s.start.offset ∧
      s.start.offset ≤ r.rangeEnd ∧ ∀ stop ∈ s.stop, s.start.offset ≤ stop.offset ∧ stop.offset ≤ r.rangeEnd) ∧
    (r.nodes.Pairwise fun n m => m.Follows n) ∧
    ∀ x ∈ preorder 1 0 r.nodes, ∀ ns, x.node.nodes? = some ns →
      (ns.Pairwise fun n m => m.Follows n) ∧
      ∃ start stop, x.node.source = some ⟨start, some stop⟩ ∧ ∀ n ∈ ns, ∃ s, n.source = some s ∧
        start.offset < s.start.offset ∧ s.start.offset < stop.offset ∧ ∀ p ∈ s.stop, p.offset ≤ stop.offset := by
  have hrow := row_of_parse h
  refine ⟨fun x hx => ?_, hrow.spans.2, fun x hx ns hns => ?_⟩
  · obtain ⟨s, hs, hstart, hlt, hstop⟩ := (hrow.preorder 1 0 x hx).span
    exact ⟨s, hs, hstart, Nat.le_of_lt hlt, hstop⟩
  · have hlies := hrow.preorder 1 0 x hx
    obtain ⟨node, depth, index⟩ := x
    cases node with
    | leaf => cases hns
    | block header nodes raws source =>
      obtain rfl := Option.some.inj hns
      obtain ⟨start, stop, hsource, -, -, -, hnodes⟩ := hlies
      refine ⟨hnodes.spans.2, start, stop, hsource, fun n hn => ?_⟩
      obtain ⟨s, hs, hstart, hlt, hin⟩ := (hnodes.spans.1 n hn).span
      exact ⟨s, hs, hstart, hlt, fun p hp => (hin p hp).2⟩

/-- A rule ends with its own semicolon, and an at-rule without parameters that the end of its block ends has no end. -/
theorem spans_of_parse_own_semicolon :
    ∃ r, Root.parse ⟨"é\x7bb:c\x7d ; /*d*/ @m $\x7bx\x7d\x7b@i \x7d e: f".toList, ⟨7, 1, 8⟩, none⟩ [⟨19, 22⟩] = .ok r ∧
      ((preorder 1 0 r.nodes).map fun x => x.node.source.map fun s => (s.start.offset, s.stop.map (·.offset))) =
        [some (7, some 16), some (10, some 12), some (17, some 22), some (23, some 35), some (31, none),
          some (36, some 39)] ∧
      r.nodes.Pairwise fun n m => m.Follows n := by
  have hspans : (Root.parse ⟨"é\x7bb:c\x7d ; /*d*/ @m $\x7bx\x7d\x7b@i \x7d e: f".toList, ⟨7, 1, 8⟩, none⟩
      [⟨19, 22⟩]).toOption.map (fun r => (preorder 1 0 r.nodes).map fun x => x.node.source.map fun s =>
        (s.start.offset, s.stop.map (·.offset))) =
      some [some (7, some 16), some (10, some 12), some (17, some 22), some (23, some 35), some (31, none),
        some (36, some 39)] := by decide +kernel
  obtain ⟨r, hr⟩ : ∃ r, Root.parse ⟨"é\x7bb:c\x7d ; /*d*/ @m $\x7bx\x7d\x7b@i \x7d e: f".toList, ⟨7, 1, 8⟩, none⟩
      [⟨19, 22⟩] = .ok r := exists_ok_of_isOk (by decide +kernel)
  rw [hr] at hspans
  exact ⟨r, hr, Option.some.inj hspans, (spans_of_parse hr).2.1⟩

end Root
end TaggedStyles
