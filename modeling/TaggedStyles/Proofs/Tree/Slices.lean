import TaggedStyles.Proofs.Token.Lossless
import TaggedStyles.Proofs.Tree.Moves

/-! Spans delimit what is printed. A comment and a block start where the raw before them ends, and end where their own
pieces end (`Node.Delimited`, kept by every move of a builder). So what such a node prints on its own is the text of its
span, if no semicolon is added inside of it. -/
namespace TaggedStyles
set_option autoImplicit false

/-! ## Nodes with their ends -/

/-- Where a block ends: behind its own semicolon, or else behind its closing mark. -/
def Raws.blockEnd? (r : Raws) : Option Nat :=
  match r.ownSemicolon with
  | some _ => r.ends.ownSemicolon
  | none => r.ends.after.map (· + 1)

/-- A comment or a block starts where the raw before it ends, and ends behind its last piece. -/
def Node.Delimited : Node → Prop
  | .leaf (.comment text) raws source => ∃ start stop, source = some ⟨start, some stop⟩ ∧
      raws.ends.before = some start.offset ∧ stop.offset = start.offset + ((Leaf.comment text).text raws).size
  | .leaf _ _ _ => True
  | .block _ _ raws source => ∃ start stop, source = some ⟨start, some stop⟩ ∧
      raws.ends.before = some start.offset ∧ raws.blockEnd? = some stop.offset

/-- A token knows where it ends. -/
def Token.Ends (t : Token) : Prop :=
  ∃ i, t.Fits (fun _ => True) i ∧ t.last.map (· + 1) = some (i + t.text.size)

theorem Reader.comment_ends {e : Excerpt} {holes : List Hole} {t : Token} (ht : t ∈ (start e holes).drain.1)
    (hk : t.kind = .comment) : t.Ends := by
  obtain ⟨us, vs, hsplit⟩ := List.append_of_mem ht
  have htiled := (drain_tiled (Cuts.trivial e.text (holes.filter (Hole.fits e.text.size)))).1
  rw [hsplit] at htiled
  have hfits := htiled.right.fits
  obtain ⟨i, cs, l, hreads, hl⟩ := of_mem_take rfl ht
  have hstart := hfits.start
  have hspells := hfits.spells
  rw [hk] at hspells
  obtain ⟨inner, htext⟩ := hspells
  have hkind : l.kind = .comment := by rw [← hk, hl, tokenOf_kind]
  rw [hk, if_neg (by decide), hl, tokenOf_start, hkind, if_neg (by decide)] at hstart
  have hlast : t.last = some (i + Text.size l.text.dropLast) := by
    rw [hl, tokenOf, hkind]
    rfl
  refine ⟨_, hfits, ?_⟩
  rw [← Option.some.inj hstart, hlast]
  have htext' : l.text = '/' :: '*' :: (inner ++ ['*']) ++ ['/'] := by
    rw [← tokenOf_text l i, ← hl, htext]
    simp
  have hc : ('/' : Char).utf8Size = 1 := by decide
  rw [hl, tokenOf_text, htext', List.dropLast_concat, Text.size_append, Text.size_cons '/' [], Text.size_nil, hc]
  rfl

/-! ## Builders -/

namespace Builder
variable {b b' : Builder} {t : Token} {ts : List Token}

/-- All comments and blocks of a builder know their ends, and each open block starts where the raw before it ends. -/
def Delimited (b : Builder) : Prop :=
  b.Every Node.Delimited fun _ raws source => raws.ends.before = some source.start.offset ∧ raws.ownSemicolon = none

theorem Delimited.comment (h : b.Delimited) (ht : t.Ends) (hk : t.kind = .comment) : (b.comment t).Delimited := by
  obtain ⟨i, hfits, hlast⟩ := ht
  obtain ⟨raws, source, text, he, rfl, -, -, hend, htext⟩ := comment_spec hfits hk b
  obtain ⟨last, hlast, hsize⟩ := Option.map_eq_some_iff.1 hlast
  rw [he]
  refine Every.add (b := { b with pending := [] }) ⟨h.nodes, h.frames⟩ ⟨_, _, rfl, hend, ?_⟩
  rw [htext, hlast, Option.getD_some, positionBehind_offset, position_offset]
  omega

theorem Delimited.freeSemicolon (h : b.Delimited) (t : Token) : (b.freeSemicolon t).Delimited := by
  unfold Builder.freeSemicolon
  split
  · rename_i selector nodes raws source hlast
    split
    · exact ⟨h.nodes, h.frames⟩
    · obtain ⟨⟨start, stop, rfl, hstart, -⟩, hnodes⟩ := h.lastNode hlast
      refine Every.replaceLast (b := { b with pending := [] }) ⟨h.nodes, h.frames⟩ ⟨?_, hnodes⟩
      exact ⟨start, _, rfl, hstart, rfl⟩
  · exact ⟨h.nodes, h.frames⟩

theorem Delimited.close (h : b.Delimited) (hb : b.close t = .ok b') : b'.Delimited := by
  unfold Builder.close at hb
  split at hb
  · cases hb
  · rename_i f fs he
    obtain rfl := Except.ok.inj hb
    obtain ⟨hnodes, hframes⟩ := h
    rw [he] at hframes
    obtain ⟨⟨⟨hstart, hown⟩, hinner⟩, hothers⟩ := List.forall_mem_cons.1 hframes
    refine Every.add (b := { b with frames := fs, pending := [], semicolon := false }) ⟨hnodes, hothers⟩ ⟨?_, hinner⟩
    refine ⟨f.source.start, _, rfl, hstart, ?_⟩
    simp only [Raws.blockEnd?, hown]
    rfl

theorem Delimited.move (h : b.Delimited) (hts : ∀ t ∈ ts, t.kind = .comment → t.Ends) (hmove : Move ts b b') :
    b'.Delimited := by
  cases hmove with
  | wait => exact ⟨h.nodes, h.frames⟩
  | @leaf content raws source semicolon hleaf =>
    refine Every.add (b := { b with semicolon := semicolon }) ⟨h.nodes, h.frames⟩ ?_
    cases content with
    | comment => exact absurd hleaf.solid Bool.false_ne_true
    | declaration | atRule => trivial
  | comment ht hk => exact h.comment (hts _ ht hk) hk
  | openBlock hf => exact Every.openBlock h ⟨hf.start, hf.raws.ownSemicolon.1⟩ hf.nodes
  | close _ _ hb => exact h.close hb
  | freeSemicolon => exact h.freeSemicolon _

end Builder

/-! ## Pieces of a node -/

/-- What a node prints among its siblings, the raw before it included. -/
def Node.ownPieces (semicolon : Bool) (n : Node) : List Piece :=
  .raw (n.raws.before.getD []) n.beforeEnd? :: n.pieces semicolon

mutual

theorem Node.infix_of_preorder {n : Node} {depth index : Nat} {x : Entry} (hx : x ∈ n.preorder depth index)
    (semicolon : Bool) : ∃ s, x.node.ownPieces s <:+: n.ownPieces semicolon := by
  cases n with
  | leaf content raws source =>
    rw [Node.preorder, List.mem_singleton] at hx
    rw [hx]
    exact ⟨semicolon, List.infix_refl _⟩
  | block header ns raws source =>
    rw [Node.preorder, List.mem_cons] at hx
    cases hx with
    | inl hx =>
      rw [hx]
      exact ⟨semicolon, List.infix_refl _⟩
    | inr hx =>
      obtain ⟨s, hinfix⟩ := infix_of_preorder hx (raws.semicolon.getD false)
      refine ⟨s, hinfix.trans ?_⟩
      rw [Node.ownPieces, Node.pieces]
      exact ⟨[_, _], _, rfl⟩

theorem infix_of_preorder {ns : List Node} {depth index : Nat} {x : Entry} (hx : x ∈ preorder depth index ns)
    (semicolon : Bool) : ∃ s, x.node.ownPieces s <:+: piecesOf semicolon ns := by
  cases ns with
  | nil => cases hx
  | cons n ns =>
    rw [preorder, List.mem_append] at hx
    rw [piecesOf, ← List.cons_append]
    cases hx with
    | inl hx =>
      obtain ⟨s, hinfix⟩ := Node.infix_of_preorder hx (semicolon || ns.any Node.isSolid)
      exact ⟨s, hinfix.trans (List.prefix_append _ _).isInfix⟩
    | inr hx =>
      obtain ⟨s, hinfix⟩ := infix_of_preorder hx semicolon
      exact ⟨s, hinfix.trans (List.suffix_append _ _).isInfix⟩

end

/-! ## Nodes in the text -/

section
variable {cut seam : Nat → Prop} {o i : Nat} {w p : Text}

theorem Lays.blockEnd {header : Header} {raws : Raws} {stop : Nat}
    (h : Lays cut seam o i (.raw (raws.after.getD []) raws.ends.after :: .plain ['\x7d'] :: header.ownPieces raws) w p)
    (hown : (∃ name params, header = .atRule name params) → raws.ownSemicolon = none)
    (hstop : raws.blockEnd? = some stop) : w = p ∧ 0 < w.size ∧ stop = o + (i + w.size) := by
  have hc : Text.size ['\x7d'] = 1 := by decide
  generalize hafter : raws.ends.after = after at h
  cases h with
  | raw _ _ h =>
    cases h with
    | plain h =>
      cases hsemicolon : raws.ownSemicolon with
      | none =>
        rw [Header.ownPieces_none hsemicolon] at h
        cases h
        rw [Raws.blockEnd?, hsemicolon, hafter] at hstop
        have hstop : o + (i + (raws.after.getD []).size) + 1 = stop := Option.some.inj hstop
        refine ⟨rfl, ?_, ?_⟩
        all_goals
          simp only [Text.size_append, Text.size_nil, hc]
          omega
      | some own =>
        cases header with
        | atRule name params => simp [hown ⟨name, params, rfl⟩] at hsemicolon
        | rule selector =>
          rw [Raws.blockEnd?, hsemicolon] at hstop
          simp only [Header.ownPieces, hsemicolon, hstop, Option.map_some, Option.toList_some] at h
          cases h with
          | raw _ _ h =>
            cases h
            refine ⟨rfl, ?_, ?_⟩
            all_goals
              simp only [Text.size_append, Text.size_nil, hc]
              omega

/-- A comment or a block reaches over its own pieces. They lose nothing, and without a seam inside nothing is added. -/
theorem Node.Delimited.lays {n : Node} {s : Bool} (h : n.Delimited) (hcomplete : n.Complete)
    (hn : n.isComment = true ∨ n.nodes?.isSome = true) (hlays : Lays cut seam o i (n.ownPieces s) w p) :
    ∃ start stop before own, n.source = some ⟨start, some stop⟩ ∧ w = before ++ own ∧
      start.offset = o + (i + before.size) ∧ stop.offset = o + (i + before.size + own.size) ∧ own.Sublist n.css ∧
      ((∀ j, i + before.size < j → j < i + before.size + own.size → ¬seam j) → own = n.css) := by
  have hbefore : ∀ start : Position, n.raws.ends.before = some start.offset → n.beforeEnd? = some start.offset := by
    intro start hstart
    rw [Node.beforeEnd?, hstart]
    rfl
  rw [Node.css_complete hcomplete]
  cases n with
  | leaf content raws source =>
    cases content with
    | declaration | atRule => simp [Node.isComment, Node.nodes?] at hn
    | comment text =>
      obtain ⟨start, stop, rfl, hstart, hstop⟩ := h
      rw [Node.ownPieces, hbefore start hstart, Node.pieces, Leaf.isSolid, Bool.and_false, if_neg Bool.false_ne_true]
        at hlays
      generalize hoffset : start.offset = offset at hlays
      cases hlays with
      | raw _ _ hown =>
        cases hown with
        | plain hown =>
          cases hown
          refine ⟨start, stop, _, _, rfl, rfl, hoffset, ?_, .refl _, fun _ => rfl⟩
          rw [hstop, hoffset, List.append_nil, Nat.add_assoc o]
  | block header ns raws source =>
    obtain ⟨start, stop, rfl, hstart, hstop⟩ := h
    obtain ⟨-, -, -, -, hown, -⟩ := hcomplete
    rw [Node.ownPieces, hbefore start hstart] at hlays
    generalize hoffset : start.offset = offset at hlays
    cases hlays with
    | raw _ _ hlays =>
      have hprinted := hlays.texts
      have hsublist := hlays.sublist
      rw [← hprinted] at hsublist
      rw [Node.pieces] at hlays hprinted
      cases hlays with
      | plain hinner =>
        obtain ⟨w₁, w₂, p₁, p₂, rfl, rfl, hnodes, hend⟩ := hinner.split
        obtain ⟨hsame, hpos, hstop⟩ := hend.blockEnd hown hstop
        have hopening : Text.size ['\x7b'] = 1 := by decide
        refine ⟨start, stop, _, _, rfl, rfl, hoffset, ?_, hsublist, fun hno => ?_⟩
        · rw [hstop]
          simp only [Text.size_append]
          omega
        · rw [Node.pieces, hprinted, hsame, hnodes.eq_of_no_seam fun j hfrom hto => hno j ?_ ?_]
          all_goals
            simp only [Text.size_append, hopening] at hfrom hto ⊢
            omega

end

/-! ## Roots -/

namespace Root
variable {e : Excerpt} {holes : List Hole} {role : Role} {r : Root}

theorem delimited_of_parse (h : Root.parse e holes role = .ok r) : EveryIn Node.Delimited r.nodes := by
  obtain ⟨built, hnodes, hmoves⟩ := moves_of_parse h
  have hstart : Builder.Delimited { excerpt := e, holes := (Reader.start e holes).holes } := ⟨trivial, by simp⟩
  have hbuilt := hmoves.keep (fun b b' hmove hb => hb.move (fun t ht => Reader.comment_ends ht) hmove) hstart
  exact hnodes ▸ hbuilt.nodes

/-- Wherever a comment or a block stands in a parsed tree, its span starts and ends between characters of the text. The
node prints on its own all that the text has there, and no more, unless an at-word ended a declaration inside of it. -/
theorem slices_of_parse (h : Root.parse e holes role = .ok r) {x : Entry} (hx : x ∈ preorder 1 0 r.nodes)
    (hnode : x.node.isComment = true ∨ x.node.nodes?.isSome = true) :
    ∃ start stop i j written, x.node.source = some ⟨start, some stop⟩ ∧ start.offset = e.origin.offset + i ∧
      stop.offset = e.origin.offset + j ∧ e.text.slice? i j = some written ∧ written.Sublist x.node.css ∧
      ((∀ k ∈ e.seams holes, ¬(i < k ∧ k < j)) → x.node.css = written) := by
  obtain ⟨hread, -, -⟩ := parse_spec (Cuts.trivial _ _) h
  obtain ⟨s, before, behind, hpieces⟩ := infix_of_preorder hx (r.semicolon.getD false)
  have hlays := hread.lays
  rw [Root.pieces, ← hpieces, List.append_assoc, List.append_assoc] at hlays
  obtain ⟨w₁, w, p₁, p, htext, -, -, hlays⟩ := hlays.split
  obtain ⟨w₂, w₃, p₂, p₃, rfl, -, hown, -⟩ := hlays.split
  rw [Nat.zero_add] at hown
  have hdelimited := (delimited_of_parse h).preorder 1 0 x hx
  have hcomplete := CompleteAll.preorder hread.complete.1 1 0 x hx
  obtain ⟨start, stop, front, own, hsource, rfl, hstart, hstop, hsublist, hsame⟩ :=
    hdelimited.lays hcomplete hnode hown
  have hslice : e.text.slice? (w₁.size + front.size) (w₁.size + front.size + own.size) = some own := by
    refine Text.slice?_eq_some.2 ⟨w₁ ++ front, w₃, ?_, Text.size_append .., rfl⟩
    rw [htext]
    simp only [List.append_assoc]
  refine ⟨start, stop, _, _, own, hsource, hstart, hstop, hslice, hsublist, fun hno => (hsame ?_).symm⟩
  exact fun k hfrom hto hk => hno k hk ⟨hfrom, hto⟩

/-- A rule with its own semicolon, in an at-rule in which another at-word ends a declaration: the rule is its part of the
text, and the at-rule prints a semicolon more than its own. -/
theorem slices_of_parse_own_semicolon :
    let e : Excerpt :=
      ⟨"/*é*/@m x\x7bq\x7ba:b\x7d ;/*c*/r:$\x7by\x7d @n\x7bs:t\x7d\x7du\x7bv:w\x7d".toList, ⟨7, 1, 8⟩, none⟩
    ∃ r x, Root.parse e [⟨26, 29⟩] = .ok r ∧ x ∈ preorder 1 0 r.nodes ∧ x.node.isRule = true ∧
      e.seams [⟨26, 29⟩] = [30] ∧ e.text.slice? 11 19 = some x.node.css ∧
      ∃ y ∈ preorder 1 0 r.nodes, y.node.css = "@m x\x7bq\x7ba:b\x7d ;/*c*/r:$\x7by\x7d; @n\x7bs:t\x7d\x7d".toList := by
  intro e
  have hrule : (Root.parse e [⟨26, 29⟩]).toOption.bind (fun r => (preorder 1 0 r.nodes)[2]?.map fun x =>
      (x.node.source.map fun s => (s.start.offset, s.stop.map (·.offset)), x.node.isRule)) =
      some (some (18, some 26), true) := by decide +kernel
  have hatRule : (Root.parse e [⟨26, 29⟩]).toOption.bind (fun r => (preorder 1 0 r.nodes)[1]?.map fun x => x.node.css) =
      some "@m x\x7bq\x7ba:b\x7d ;/*c*/r:$\x7by\x7d; @n\x7bs:t\x7d\x7d".toList := by decide +kernel
  have hseams : e.seams [⟨26, 29⟩] = [30] := by decide +kernel
  obtain ⟨r, hr⟩ : ∃ r, Root.parse e [⟨26, 29⟩] = .ok r := exists_ok_of_isOk (by decide +kernel)
  rw [hr] at hrule hatRule
  obtain ⟨x, hx, hentry⟩ := Option.map_eq_some_iff.1 hrule
  obtain ⟨y, hy, hcss⟩ := Option.map_eq_some_iff.1 hatRule
  obtain ⟨hspan, hisRule⟩ := Prod.mk.inj hentry
  have hblock : x.node.nodes?.isSome = true := by
    cases hnode : x.node with
    | leaf => rw [hnode] at hisRule; cases hisRule
    | block => rfl
  obtain ⟨start, stop, i, j, written, hsource, hi, hj, hslice, -, hsame⟩ :=
    slices_of_parse hr (List.mem_of_getElem? hx) (.inr hblock)
  rw [hsource] at hspan
  have hstart : start.offset = 18 := (Prod.mk.inj (Option.some.inj hspan)).1
  have hstop : stop.offset = 26 := Option.some.inj (Prod.mk.inj (Option.some.inj hspan)).2
  have horigin : e.origin.offset = 7 := rfl
  obtain rfl : i = 11 := by omega
  obtain rfl : j = 19 := by omega
  have hcss' : x.node.css = written := hsame fun k hk => by
    rw [hseams, List.mem_singleton] at hk
    omega
  exact ⟨r, x, hr, List.mem_of_getElem? hx, hisRule, hseams, hcss' ▸ hslice, y, List.mem_of_getElem? hy, hcss⟩

end Root
end TaggedStyles
