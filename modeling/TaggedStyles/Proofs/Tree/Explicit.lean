import TaggedStyles.Proofs.Tree.Moves

/-! A parsed tree leaves nothing to be inferred. Every node has the raws of its kind (`Node.Explicit`). Whether a
semicolon follows the last child is said of a block exactly if it has children, and it is said to follow only if that
semicolon ended the last of them that is no comment. One bit of the builder tells it for all levels: while a block is
open nothing is known of the levels around it, and what is said of the children of the innermost one is true
(`Builder.Explicit`, kept by every move). -/
namespace TaggedStyles
set_option autoImplicit false

/-- The last child that is no comment. -/
def lastSolid? (ns : List Node) : Option Node := (ns.filter Node.isSolid).getLast?

theorem lastSolid?_concat (ns : List Node) (n : Node) :
    lastSolid? (ns ++ [n]) = if n.isSolid then some n else lastSolid? ns := by
  rw [lastSolid?, List.filter_append, List.filter_singleton]
  cases n.isSolid with
  | true => exact List.getLast?_concat
  | false => rw [cond_false, List.append_nil, if_neg Bool.false_ne_true, lastSolid?]

/-- A declaration, or an at-rule without a block, that one of the semicolons among some tokens ended: its span stops in
front of the mark or behind it. -/
def Node.Closed (e : Excerpt) (ts : List Token) : Node → Prop
  | .leaf content _ source => content.isSolid = true ∧ ∃ i, .punctuation .semicolon ';' i ∈ ts ∧
      source.map (·.stop) = some (content.stopAt? e i)
  | .block .. => False

/-- The last child that is no comment is one that a semicolon ended. -/
def ClosedLast (e : Excerpt) (ts : List Token) (ns : List Node) : Prop := ∃ n, lastSolid? ns = some n ∧ n.Closed e ts

/-- No raw of a node has to be inferred, and what it says of a semicolon behind its last child is true. -/
structure Node.Explicit (e : Excerpt) (ts : List Token) (n : Node) : Prop where
  before : n.raws.before.isSome = true ∧ n.raws.ends.before.isSome = true
  source : n.source.isSome = true
  between : n.isComment = false → n.raws.between.isSome = true
  afterName : n.isAtRule = true → n.raws.afterName.isSome = true
  sides : n.isComment = true → n.raws.left.isSome = true ∧ n.raws.right.isSome = true
  after : n.nodes?.isSome = true → n.raws.after.isSome = true ∧ n.raws.ends.after.isSome = true
  semicolon : ∀ ns, n.nodes? = some ns → (n.raws.semicolon.isSome = true ↔ ns ≠ [])
  ownSemicolon : n.raws.ownSemicolon.isSome = n.raws.ends.ownSemicolon.isSome ∧
    (n.raws.ownSemicolon.isSome = true → n.isRule = true)
  closed : n.raws.semicolon = some true → ∃ ns, n.nodes? = some ns ∧ ClosedLast e ts ns

/-- A declaration or an at-rule without a block has begun with all of its raws. -/
theorem Leaf.Begun.explicit {ts : List Token} {content : Leaf} {raws : Raws} (h : content.Begun ts raws) (e : Excerpt)
    (source : Span) : (Node.leaf content raws (some source)).Explicit e ts where
  before := h.begun.before
  source := rfl
  between _ := h.between
  afterName hat := by
    cases content with
    | declaration | comment => cases hat
    | atRule name params => exact (h.atRule name params rfl).2
  sides hcomment := by
    cases content with
    | declaration | atRule => cases hcomment
    | comment text => cases h.solid
  after := nofun
  semicolon := nofun
  ownSemicolon := by
    obtain ⟨hown, hend⟩ := h.begun.ownSemicolon
    simp [Node.raws, hown, hend]
  closed hs := by
    have hnone := h.begun.semicolon
    rw [Node.raws, hnone] at hs
    cases hs

theorem Node.Explicit.ofBlock {e : Excerpt} {ts : List Token} {f : Frame} {semicolon : Bool} {after : Text}
    {stop : Nat} {source : Span} (hraws : f.raws.Begun) (hbetween : f.raws.between.isSome = true)
    (hname : ∀ name params, f.header = .atRule name params → f.raws.afterName.isSome = true)
    (hclosed : semicolon = true → ClosedLast e ts f.nodes) : Node.Explicit e ts (.block f.header f.nodes
      { f.raws with
        semicolon := if f.nodes.isEmpty then f.raws.semicolon else some semicolon
        after := some after
        ends := { f.raws.ends with after := some stop } } (some source)) where
  before := hraws.before
  source := rfl
  between _ := hbetween
  afterName hat := by
    cases hheader : f.header with
    | rule selector => simp [Node.isAtRule, hheader] at hat
    | atRule name params => exact hname name params hheader
  sides := nofun
  after _ := ⟨rfl, rfl⟩
  semicolon ns hns := by
    obtain rfl := Option.some.inj hns
    rw [Node.raws, hraws.semicolon]
    cases f.nodes <;> simp
  ownSemicolon := by
    obtain ⟨hown, hend⟩ := hraws.ownSemicolon
    simp [Node.raws, hown, hend]
  closed hs := by
    refine ⟨f.nodes, rfl, hclosed ?_⟩
    rw [Node.raws, hraws.semicolon] at hs
    split at hs
    · cases hs
    · exact Option.some.inj hs

/-! ## Tokens -/

theorem Reader.semicolon_of_mem {e : Excerpt} {holes : List Hole} {t : Token} (ht : t ∈ (start e holes).drain.1)
    (hk : t.kind = .semicolon) : ∃ i, t = .punctuation .semicolon ';' i := by
  obtain ⟨i, cs, l, hreads, rfl⟩ := of_mem_take rfl ht
  rw [tokenOf_kind] at hk
  have htext : l.text = [';'] := (hk ▸ hreads.spells : Lexeme.Spells .semicolon l.text).text_of_mark
    (by simp [Lexeme.IsMark])
  exact ⟨i, by rw [tokenOf, hk, htext]; rfl⟩

/-! ## Builders -/

namespace Builder
variable {e : Excerpt} {b b' : Builder} {t : Token} {ts : List Token} {n : Node}

/-- The children of the innermost open block, or of the root. -/
def children (b : Builder) : List Node :=
  match b.frames with
  | [] => b.nodes
  | f :: _ => f.nodes

theorem children_mapNodes (f : List Node → List Node) (b : Builder) : (b.mapNodes f).children = f b.children := by
  unfold mapNodes children
  cases he : b.frames with
  | nil => simp only
  | cons f fs => rfl

theorem children_add (b : Builder) (n : Node) : (b.add n).children = b.children ++ [n] := children_mapNodes _ b

theorem lastNode?_eq (b : Builder) : b.lastNode? = b.children.getLast? := by
  unfold lastNode? children
  cases b.frames <;> rfl

/-- All nodes of a builder are explicit, its open blocks have begun, and if a semicolon is said to follow the children
of the innermost one, it does. -/
structure Explicit (e : Excerpt) (ts : List Token) (b : Builder) : Prop where
  excerpt : b.excerpt = e
  every : b.Every (Node.Explicit e ts) fun header raws _ => raws.Begun ∧ raws.between.isSome = true ∧
    ∀ name params, header = .atRule name params → raws.afterName.isSome = true
  closed : b.semicolon = true → ClosedLast e ts b.children

theorem comment_explicit (e : Excerpt) (ts : List Token) (b : Builder) (t : Token) : ∃ text raws source,
    b.comment t = { b with pending := [] }.add (.leaf (.comment text) raws source) ∧
      (Node.leaf (.comment text) raws source).Explicit e ts := by
  unfold comment
  generalize (t.text.drop 2).take (t.text.length - 4) = inner
  simp only
  split <;>
    exact ⟨_, _, _, rfl, ⟨⟨rfl, rfl⟩, rfl, nofun, nofun, fun _ => ⟨rfl, rfl⟩, nofun, nofun, ⟨rfl, nofun⟩, nofun⟩⟩

namespace Explicit

theorem comment (h : b.Explicit e ts) (t : Token) : (b.comment t).Explicit e ts := by
  obtain ⟨text, raws, source, he, hnode⟩ := comment_explicit e ts b t
  rw [he]
  refine ⟨(mapNodes_excerpt _ _).trans h.excerpt, ?_, fun hs => ?_⟩
  · exact Every.add (b := { b with pending := [] }) ⟨h.every.nodes, h.every.frames⟩ hnode
  · rw [add, mapNodes_semicolon] at hs
    obtain ⟨n, hlast, hclosed⟩ := h.closed hs
    refine ⟨n, ?_, hclosed⟩
    rw [children_add, lastSolid?_concat]
    exact hlast

theorem freeSemicolon (h : b.Explicit e ts) (t : Token) : (b.freeSemicolon t).Explicit e ts := by
  have hwait : (b.wait t.text).Explicit e ts := ⟨h.excerpt, ⟨h.every.nodes, h.every.frames⟩, h.closed⟩
  unfold Builder.freeSemicolon
  split
  · rename_i selector nodes raws source hlast
    split
    · exact hwait
    · obtain ⟨hnode, hnodes⟩ := h.every.lastNode hlast
      refine ⟨(mapNodes_excerpt _ _).trans h.excerpt, ?_, fun hs => ?_⟩
      · refine Every.replaceLast (b := { b with pending := [] }) ⟨h.every.nodes, h.every.frames⟩ ⟨?_, hnodes⟩
        exact ⟨hnode.before, Option.isSome_map.trans hnode.source, hnode.between, hnode.afterName, hnode.sides,
          hnode.after, hnode.semicolon, ⟨rfl, fun _ => rfl⟩, hnode.closed⟩
      · -- A rule stands last, and no semicolon ends a rule.
        rw [mapNodes_semicolon] at hs
        obtain ⟨n, hn, hclosed⟩ := h.closed hs
        obtain ⟨init, hinit⟩ := List.getLast?_eq_some_iff.1 (b.lastNode?_eq ▸ hlast)
        rw [hinit, lastSolid?_concat] at hn
        obtain rfl := Option.some.inj hn
        exact hclosed.elim
  · exact hwait

theorem close (h : b.Explicit e ts) (hb : b.close t = .ok b') : b'.Explicit e ts := by
  have hclosed := h.closed
  unfold Builder.close at hb
  unfold children at hclosed
  split at hb
  · cases hb
  · rename_i f fs he
    obtain rfl := Except.ok.inj hb
    simp only [he] at hclosed
    have hframes := h.every.frames
    rw [he] at hframes
    obtain ⟨⟨⟨hraws, hbetween, hname⟩, hinner⟩, hothers⟩ := List.forall_mem_cons.1 hframes
    refine ⟨(mapNodes_excerpt _ _).trans h.excerpt, ?_, fun hs => ?_⟩
    · exact Every.add (b := { b with frames := fs, pending := [], semicolon := false }) ⟨h.every.nodes, hothers⟩
        ⟨.ofBlock hraws hbetween hname hclosed, hinner⟩
    · rw [add, mapNodes_semicolon] at hs
      cases hs

theorem move (h : b.Explicit e ts) (hts : ∀ t ∈ ts, t.kind = .semicolon → ∃ i, t = .punctuation .semicolon ';' i)
    (hmove : Move ts b b') : b'.Explicit e ts := by
  cases hmove with
  | wait semicolon _ hsemicolon => exact ⟨h.excerpt, ⟨h.every.nodes, h.every.frames⟩, fun hs => h.closed (hsemicolon hs)⟩
  | @leaf content raws source semicolon hleaf hmark =>
    refine ⟨(mapNodes_excerpt _ _).trans h.excerpt, ?_, fun hs => ?_⟩
    · exact Every.add (b := { b with semicolon := semicolon }) ⟨h.every.nodes, h.every.frames⟩ (hleaf.explicit e source)
    · rw [add, mapNodes_semicolon] at hs
      obtain ⟨t, ht, hk, hstop⟩ := hmark hs
      obtain ⟨i, rfl⟩ := hts t ht hk
      have hsolid : (Node.leaf content raws (some source)).isSolid = true := by
        cases content with
        | comment => cases hleaf.solid
        | declaration | atRule => rfl
      refine ⟨.leaf content raws (some source), ?_, hleaf.solid, i, ht, ?_⟩
      · rw [children_add, lastSolid?_concat, if_pos hsolid]
      · rw [← h.excerpt, ← hstop i rfl rfl]
        rfl
  | comment => exact h.comment _
  | openBlock hf hs =>
    refine ⟨h.excerpt, ?_, fun h' => ?_⟩
    · refine Every.openBlock h.every ⟨hf.raws, ?_, hf.afterName⟩ hf.nodes
      obtain ⟨text, hset, -⟩ := hf.between
      exact Option.isSome_of_eq_some hset
    · rw [show (b.openBlock _).semicolon = b.semicolon from rfl, hs] at h'
      cases h'
  | close _ _ hb => exact h.close hb
  | freeSemicolon => exact h.freeSemicolon _

end Explicit
end Builder

/-! ## Roots -/

namespace Root
variable {e : Excerpt} {holes : List Hole} {role : Role} {r : Root}

/-- Wherever a node stands in a parsed tree, all raws of its kind are set and those that have an end know it. Of a block,
and of the root, it is known whether a semicolon follows the last child exactly if there are children; if one does, the
last child that is no comment is a declaration or an at-rule without a block, and stops at a semicolon of the text. -/
theorem explicit_of_parse (h : Root.parse e holes role = .ok r) :
    (∀ x ∈ preorder 1 0 r.nodes, x.node.Explicit e (Reader.start e holes).drain.1) ∧
    (r.semicolon.isSome = true ↔ r.nodes ≠ []) ∧
    (r.semicolon = some true → ClosedLast e (Reader.start e holes).drain.1 r.nodes) := by
  obtain ⟨built, hfinish, hmoves⟩ := finish_of_parse h
  have hstart : Builder.Explicit e (Reader.start e holes).drain.1
      { excerpt := e, holes := (Reader.start e holes).holes } := ⟨rfl, ⟨trivial, by simp⟩, nofun⟩
  obtain ⟨-, hevery, hclosed⟩ :=
    hmoves.keep (fun b b' hmove hb => hb.move (fun t ht => Reader.semicolon_of_mem ht) hmove) hstart
  unfold Builder.finish at hfinish
  unfold Builder.children at hclosed
  split at hfinish
  · cases hfinish
  · rename_i he
    obtain rfl := Except.ok.inj hfinish
    rw [he] at hclosed
    refine ⟨EveryIn.preorder hevery.nodes 1 0, ?_, fun hs => hclosed ?_⟩
    · cases built.nodes <;> simp
    · simp only at hs
      split at hs
      · cases hs
      · exact Option.some.inj hs

/-- A rule with its own semicolon, a block whose last declaration has none in front of the comment, and a declaration with
a hole that a semicolon ends before the last comment of the root. -/
theorem explicit_of_parse_last_comment :
    let e : Excerpt := ⟨"a\x7bb:é;c:d/*k*/\x7d ;@m x\x7b@n y;\x7du:$\x7bv\x7d;/**/".toList, ⟨7, 1, 8⟩, none⟩
    ∃ r, Root.parse e [⟨31, 34⟩] = .ok r ∧
      (preorder 1 0 r.nodes).map (·.node.raws.semicolon) =
        [some false, none, none, none, some true, none, none, none] ∧
      (∀ x ∈ preorder 1 0 r.nodes, x.node.Explicit e (Reader.start e [⟨31, 34⟩]).drain.1) ∧
      r.semicolon = some true ∧ ClosedLast e (Reader.start e [⟨31, 34⟩]).drain.1 r.nodes := by
  intro e
  obtain ⟨r, hr⟩ : ∃ r, Root.parse e [⟨31, 34⟩] = .ok r := exists_ok_of_isOk (by decide +kernel)
  have hraws : (Root.parse e [⟨31, 34⟩]).toOption.map (fun r =>
      ((preorder 1 0 r.nodes).map (·.node.raws.semicolon), r.semicolon)) =
      some ([some false, none, none, none, some true, none, none, none], some true) := by decide +kernel
  rw [hr] at hraws
  obtain ⟨hnodes, hroot⟩ := Prod.mk.inj (Option.some.inj hraws)
  obtain ⟨hexplicit, -, hclosed⟩ := explicit_of_parse hr
  exact ⟨r, hr, hnodes, hexplicit, hroot, hclosed hroot⟩

end Root
end TaggedStyles
