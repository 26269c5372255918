import TaggedStyles.Proofs.Tree.Layout
import TaggedStyles.Proofs.Tree.Run

/-! What a builder has been given stands in its pieces. `Builder.Stands` says that the pieces of a builder,
with what waits behind them, are the text read so far, but for the semicolons that printing adds; each
operation on a builder keeps it. -/
namespace TaggedStyles
set_option autoImplicit false

/-! ## Results -/

theorem bind_eq_ok {α β ε : Type} {x : Except ε α} {f : α → Except ε β} {r : β} :
    x >>= f = .ok r ↔ ∃ a, x = .ok a ∧ f a = .ok r := by
  cases x with
  | error e => simp [bind, Except.bind]
  | ok a => simp [bind, Except.bind]

theorem exists_ok_of_isOk {α ε : Type} {x : Except ε α} (h : x.isOk = true) : ∃ a, x = .ok a := by
  cases x with
  | error e => cases h
  | ok a => exact ⟨a, rfl⟩

theorem map_eq_ok {α β ε : Type} {x : Except ε α} {f : α → β} {r : β} :
    x.map f = .ok r ↔ ∃ a, x = .ok a ∧ f a = r := by
  cases x <;> simp [Except.map]

theorem mapError_eq_ok {α ε ε' : Type} {x : Except ε α} {f : ε → ε'} {r : α} :
    x.mapError f = .ok r ↔ x = .ok r := by
  cases x with
  | error e => exact ⟨nofun, nofun⟩
  | ok a =>
    constructor
    · intro h
      cases h
      rfl
    · intro h
      cases h
      rfl

/-! ## Pieces of a comment -/

theorem Text.trim_parts (t : Text) :
    t.take (t.length - t.trimStart.length) ++ t.trimStart.trimEnd ++
      t.trimStart.drop t.trimStart.trimEnd.length = t := by
  have hdrop : ∀ a b : Text, a <+: b → a ++ b.drop a.length = b := by
    rintro a b ⟨c, rfl⟩
    rw [List.drop_left]
  have hend : t.trimStart.trimEnd <+: t.trimStart := by
    have h := List.reverse_prefix.2 (List.dropWhile_suffix isBlank (l := t.trimStart.reverse))
    rwa [List.reverse_reverse] at h
  have hstart : t.takeWhile isBlank ++ t.trimStart = t := List.takeWhile_append_dropWhile
  have hlen : t.length - t.trimStart.length = (t.takeWhile isBlank).length := by
    have h := congrArg List.length hstart
    rw [List.length_append] at h
    omega
  rw [hlen, ← List.prefix_iff_eq_take.1 (List.takeWhile_prefix isBlank), List.append_assoc, hdrop _ _ hend, hstart]

theorem Token.Fits.text_of_mark {cut : Nat → Prop} {i : Nat} {t : Token} (h : t.Fits cut i) {c : Char}
    (hc : Lexeme.IsMark t.kind c) : t.text = [c] := h.spells.text_of_mark hc

/-! ## Invariant -/

/-- An open block has all raws that are known by then. -/
structure Frame.Complete (f : Frame) : Prop where
  before : f.raws.before.isSome = true
  between : f.raws.between.isSome = true
  after : f.raws.after = none
  ownSemicolon : f.raws.ownSemicolon = none
  nodes : CompleteAll f.nodes

namespace Builder

/-- What is written and what is printed of a builder; `more` says that a solid node comes next. -/
structure Stands (cut seam : Nat → Prop) (e : Excerpt) (b : Builder) (more : Bool) (written printed : Text) :
    Prop where
  excerpt : b.excerpt = e
  nodes : CompleteAll b.nodes
  frames : ∀ f ∈ b.frames, f.Complete
  laid : Laid cut seam b.excerpt.origin.offset (b.pieces (b.semicolon || more)) b.pending written printed

/-- A solid node behind the last one does not add a semicolon to it. -/
def Settled (b : Builder) : Prop := b.semicolon = true ∨ b.pieces true = b.pieces false

theorem Settled.pieces_eq {b : Builder} (h : b.Settled) (more : Bool) :
    b.pieces (b.semicolon || more) = b.pieces true := by
  rcases h with h | h
  · rw [h, Bool.true_or]
  · cases b.semicolon <;> cases more <;> simp [h]

variable {cut seam : Nat → Prop} {e : Excerpt} {b b' : Builder} {more : Bool} {w p : Text} {t : Token}

theorem Stands.of_settled (h : b.Stands cut seam e more w p) (hs : b.Settled) (more' : Bool) :
    b.Stands cut seam e more' w p :=
  ⟨h.excerpt, h.nodes, h.frames, by rw [hs.pieces_eq more', ← hs.pieces_eq more]; exact h.laid⟩

theorem position_offset (b : Builder) (i : Nat) : (b.position i).offset = b.excerpt.origin.offset + i := rfl

theorem positionBehind_offset (b : Builder) (i : Nat) :
    (b.positionBehind i).offset = b.excerpt.origin.offset + i + 1 := rfl

/-! ## Adding nodes -/

theorem mapNodes_excerpt (f : List Node → List Node) (b : Builder) : (b.mapNodes f).excerpt = b.excerpt := by
  unfold mapNodes
  split <;> rfl

theorem mapNodes_holes (f : List Node → List Node) (b : Builder) : (b.mapNodes f).holes = b.holes := by
  unfold mapNodes
  split <;> rfl

theorem mapNodes_pending (f : List Node → List Node) (b : Builder) : (b.mapNodes f).pending = b.pending := by
  unfold mapNodes
  split <;> rfl

theorem mapNodes_semicolon (f : List Node → List Node) (b : Builder) :
    (b.mapNodes f).semicolon = b.semicolon := by
  unfold mapNodes
  split <;> rfl

/-- A change of the innermost children keeps a tree complete if it keeps them complete. -/
theorem mapNodes_complete {f : List Node → List Node} (hf : ∀ ns, CompleteAll ns → CompleteAll (f ns))
    (hnodes : CompleteAll b.nodes) (hframes : ∀ g ∈ b.frames, g.Complete) :
    CompleteAll (b.mapNodes f).nodes ∧ ∀ g ∈ (b.mapNodes f).frames, g.Complete := by
  unfold mapNodes
  split
  · exact ⟨hf _ hnodes, hframes⟩
  · rename_i frame frames he
    rw [he] at hframes
    refine ⟨hnodes, fun g hg => ?_⟩
    rcases List.mem_cons.1 hg with rfl | hg
    · have h := hframes frame List.mem_cons_self
      exact ⟨h.before, h.between, h.after, h.ownSemicolon, hf _ h.nodes⟩
    · exact hframes g (List.mem_cons_of_mem _ hg)

theorem add_complete {n : Node} (hn : n.Complete) (hnodes : CompleteAll b.nodes)
    (hframes : ∀ g ∈ b.frames, g.Complete) :
    CompleteAll (b.add n).nodes ∧ ∀ g ∈ (b.add n).frames, g.Complete :=
  mapNodes_complete (fun _ h => completeAll_append.2 ⟨h, hn, trivial⟩) hnodes hframes

theorem lastNode_complete {n : Node} (hnodes : CompleteAll b.nodes) (hframes : ∀ g ∈ b.frames, g.Complete)
    (h : b.lastNode? = some n) : n.Complete := by
  unfold lastNode? at h
  split at h
  · exact completeAll_iff.1 hnodes n (List.mem_of_getLast? h)
  · rename_i f fs he
    have hf := hframes f (by rw [he]; exact List.mem_cons_self)
    exact completeAll_iff.1 hf.nodes n (List.mem_of_getLast? h)

/-! ## Text that waits -/

theorem Stands.wait (h : b.Stands cut seam e more w p) (t : Text) :
    (b.wait t).Stands cut seam e more (w ++ t) (p ++ t) :=
  ⟨h.excerpt, h.nodes, h.frames, h.laid.wait t⟩

/-! ## Comments -/

theorem comment_spec {i : Nat} (ht : t.Fits cut i) (hk : t.kind = .comment) (b : Builder) :
    ∃ raws source text, b.comment t = { b with pending := [] }.add (.leaf (.comment text) raws source) ∧
      source = some ⟨b.position i, some (b.positionBehind (t.last.getD i))⟩ ∧
      Node.Complete (.leaf (.comment text) raws source) ∧ raws.before = some b.pending ∧
      raws.ends.before = some (b.excerpt.origin.offset + i) ∧ (Leaf.comment text).text raws = t.text := by
  have hspells := ht.spells
  have hstart : t.start = some i := by rw [ht.start, hk, if_neg (by decide)]
  rw [hk] at hspells
  obtain ⟨inner, htext⟩ := hspells
  have hinner : (t.text.drop 2).take (t.text.length - 4) = inner := by
    rw [htext]
    simp
  unfold comment
  simp only [hinner, hstart, Option.getD_some]
  refine ⟨_, _, _, rfl, rfl, ⟨rfl, rfl, rfl, rfl, rfl⟩, rfl, rfl, ?_⟩
  split
  · rename_i hempty
    simp only [Leaf.text, Option.getD_some, List.isEmpty_iff.1 hempty, htext, List.append_nil]
    rfl
  · have hparts := Text.trim_parts inner
    simp only [Leaf.text, Option.getD_some, List.append_assoc] at hparts ⊢
    rw [← List.append_assoc (Text.trimEnd _), ← List.append_assoc (List.take _ _), hparts, htext]
    rfl

theorem Stands.comment (h : b.Stands cut seam e more w p) (ht : t.Fits cut w.size) (hk : t.kind = .comment)
    (hcut : cut w.size) (hcut' : cut (w ++ t.text).size) :
    (b.comment t).Stands cut seam e more (w ++ t.text) (p ++ t.text) ∧ (b.Settled → (b.comment t).Settled) := by
  obtain ⟨raws, source, text, he, -, hcomplete, hbefore, hend, htext⟩ := comment_spec ht hk b
  rw [he]
  have hpieces : ∀ s, ({ b with pending := [] }.add (.leaf (.comment text) raws source)).pieces s =
      b.pieces s ++
        [.raw (b.pending ++ []) (some (b.excerpt.origin.offset + (w ++ []).size)), .plain t.text] := by
    intro s
    rw [pieces_add]
    simp [Node.isSolid, Node.isComment, Node.pieces, Node.raws, Node.beforeEnd?, hbefore, hend, htext,
      Leaf.isSolid, pieces]
  have hall := add_complete (b := { b with pending := [] }) hcomplete h.nodes h.frames
  refine ⟨⟨(mapNodes_excerpt _ _).trans h.excerpt, hall.1, hall.2, ?_⟩, ?_⟩
  · have hlays : Lays cut seam b.excerpt.origin.offset (w ++ []).size [.plain t.text] (t.text ++ []) (t.text ++ []) :=
      .plain .nil
    have hgive := h.laid.give (by simpa using hcut) hlays (by simpa using hcut') []
    rw [hpieces]
    unfold add
    rw [mapNodes_semicolon, mapNodes_excerpt, mapNodes_pending]
    simpa using hgive
  · rintro (hs | hs)
    · refine .inl ?_
      unfold add
      rw [mapNodes_semicolon]
      exact hs
    · exact .inr (by rw [hpieces, hpieces, hs])

/-! ## Semicolons on their own -/

theorem pieces_mapNodes_last {header : Header} {nodes : List Node} {raws raws' : Raws}
    {source source' : Option Span} (hlast : b.lastNode? = some (.block header nodes raws source))
    {qs : List Piece}
    (hqs : ∀ s, piecesOf s [.block header nodes raws' source'] =
      piecesOf s [.block header nodes raws source] ++ qs)
    (s s' : Bool) :
    (b.mapNodes (·.dropLast ++ [.block header nodes raws' source'])).pieces s = b.pieces s' ++ qs := by
  have hns : ∀ ns : List Node, ns.getLast? = some (.block header nodes raws source) →
      piecesOf s (ns.dropLast ++ [.block header nodes raws' source']) = piecesOf s' ns ++ qs := by
    intro ns hns
    obtain ⟨init, rfl⟩ := List.getLast?_eq_some_iff.1 hns
    rw [List.dropLast_concat, piecesOf_append, hqs, piecesOf_append, List.append_assoc]
    simp [Node.isSolid, Node.isComment, piecesOf, Node.pieces]
  unfold lastNode? at hlast
  unfold mapNodes pieces
  cases hframes : b.frames with
  | nil =>
    rw [hframes] at hlast
    exact hns _ hlast
  | cons f fs =>
    rw [hframes] at hlast
    simp only [openPieces, hns _ hlast, List.append_assoc]
    rfl

theorem piecesOf_own {selector : Text} {nodes : List Node} {raws : Raws} {source source' : Option Span}
    (hone : raws.ownSemicolon = none) (hsource : source'.map (·.start.offset) = source.map (·.start.offset))
    (own : Text) (stop : Nat) (s : Bool) :
    piecesOf s [.block (.rule selector) nodes { raws with
      ownSemicolon := some own, ends := { raws.ends with ownSemicolon := some stop } } source'] =
      piecesOf s [.block (.rule selector) nodes raws source] ++ [.raw own (some stop)] := by
  simp [piecesOf, Node.pieces, Node.raws, Node.source, Node.beforeEnd?, Header.ownPieces, Header.text, hone, hsource]

theorem Stands.freeSemicolon (h : b.Stands cut seam e more w p) (ht : t.Fits cut w.size) (hk : t.kind = .semicolon)
    (hcut' : cut (w ++ t.text).size) (hs : b.Settled) :
    (b.freeSemicolon t).Stands cut seam e more (w ++ t.text) (p ++ t.text) ∧ (b.freeSemicolon t).Settled := by
  have htext := ht.text_of_mark (c := ';') (by rw [hk]; simp [Lexeme.IsMark])
  have hstart : t.start = some w.size := by rw [ht.start, hk, if_neg (by decide)]
  unfold Builder.freeSemicolon
  split
  · rename_i selector nodes raws source hlast
    split
    · exact ⟨h.wait _, hs⟩
    · rename_i hown
      have hone : raws.ownSemicolon = none := by simpa using hown
      obtain ⟨hbefore, hbetween, hafter, hsemicolon, -, hnodes⟩ := lastNode_complete h.nodes h.frames hlast
      have hstop : (b.positionBehind w.size).offset = b.excerpt.origin.offset + (w ++ t.text).size := by
        rw [positionBehind_offset, htext, Text.size_append]
        rfl
      simp only [hstart, Option.getD_some, hstop]
      generalize hrule : Node.block (.rule selector) nodes _ _ = rule
      have hpieces : ∀ s s', ({ b with pending := [] }.mapNodes (·.dropLast ++ [rule])).pieces s =
          b.pieces s' ++ [.raw (b.pending ++ t.text) (some (b.excerpt.origin.offset + (w ++ t.text).size))] := by
        intro s s'
        rw [← hrule]
        refine pieces_mapNodes_last (b := { b with pending := [] }) hlast (fun s => ?_) s s'
        exact piecesOf_own hone (by cases source <;> rfl) _ _ s
      have hcomplete : rule.Complete := by
        rw [← hrule]
        exact ⟨hbefore, hbetween, hafter, hsemicolon, by simp, hnodes⟩
      have hall := mapNodes_complete (b := { b with pending := [] }) (f := (·.dropLast ++ [rule]))
        (fun ns hns => completeAll_append.2
          ⟨completeAll_iff.2 fun n hn => completeAll_iff.1 hns n ((List.dropLast_prefix ns).subset hn),
            hcomplete, trivial⟩)
        h.nodes h.frames
      refine ⟨⟨(mapNodes_excerpt _ _).trans h.excerpt, hall.1, hall.2, ?_⟩,
        .inr (by rw [hpieces true true, hpieces false true])⟩
      have hgive := h.laid.give hcut' .nil (by simpa using hcut') []
      rw [hpieces _ (b.semicolon || more), mapNodes_excerpt, mapNodes_pending]
      simpa using hgive
  · exact ⟨h.wait _, hs⟩

/-! ## Closing marks -/

theorem Stands.close (h : b.Stands cut seam e false w p) (ht : t.Fits cut w.size) (hk : t.kind = .closeCurly)
    (hcut : cut w.size) (hcut' : cut (w ++ t.text).size) (hb : b.close t = .ok b') (more : Bool) :
    b'.Stands cut seam e more (w ++ t.text) (p ++ t.text) ∧ b'.Settled := by
  have htext := ht.text_of_mark (c := '\x7d') (by rw [hk]; simp [Lexeme.IsMark])
  have hstart : t.start = some w.size := by rw [ht.start, hk, if_neg (by decide)]
  obtain ⟨hexcerpt, hnodes, hframes, hlaid⟩ := h
  unfold Builder.close at hb
  simp only [hstart, Option.getD_some] at hb
  split at hb
  · simp at hb
  · rename_i f fs he
    obtain rfl := Except.ok.inj hb
    rw [he] at hframes
    have hf := hframes f List.mem_cons_self
    generalize hblock : Node.block f.header f.nodes _ _ = block
    have hsemicolon :
        piecesOf ((if f.nodes.isEmpty then f.raws.semicolon else some b.semicolon).getD false) f.nodes =
        piecesOf b.semicolon f.nodes := by
      cases f.nodes <;> rfl
    have hpieces : ∀ s, ({ b with frames := fs, pending := [], semicolon := false }.add block).pieces s =
        b.pieces (b.semicolon || false) ++
          [.raw (b.pending ++ []) (some (b.excerpt.origin.offset + (w ++ []).size)), .plain t.text] := by
      intro s
      rw [pieces_add, ← hblock]
      simp only [Node.pieces, Header.ownPieces_none, hf.ownSemicolon, hsemicolon, pieces, he, openPieces,
        Frame.pieces, Node.raws, Node.beforeEnd?, Node.source, Node.isSolid, Node.isComment, Bool.not_false,
        Bool.or_true, Bool.or_false, htext, hf.after, position_offset, List.append_assoc, List.append_nil,
        Option.getD_some, Option.getD_none, Option.map_some, List.nil_append, List.cons_append]
      cases f.header <;> rfl
    have hcomplete : block.Complete := by
      rw [← hblock]
      refine ⟨hf.before, hf.between, rfl, fun hne => ?_, fun _ => hf.ownSemicolon, hf.nodes⟩
      simp [hne]
    have hall := add_complete (b := { b with frames := fs, pending := [], semicolon := false }) hcomplete hnodes
      fun g hg => hframes g (List.mem_cons_of_mem f hg)
    have hlays : Lays cut seam b.excerpt.origin.offset (w ++ []).size [.plain t.text] (t.text ++ []) (t.text ++ []) :=
      .plain .nil
    have hgive := hlaid.give (by simpa using hcut) hlays (by simpa using hcut') []
    refine ⟨⟨(mapNodes_excerpt _ _).trans hexcerpt, hall.1, hall.2, ?_⟩,
      .inr (by rw [hpieces true, hpieces false])⟩
    rw [hpieces]
    unfold add
    rw [mapNodes_excerpt, mapNodes_pending]
    simpa using hgive

/-! ## Leaves and open blocks -/

/-- A solid leaf takes what waits, and a semicolon if one is written or if a solid node comes next. -/
theorem Stands.addLeaf (h : b.Stands cut seam e true w p) {content : Leaf} {raws : Raws} {source : Option Span}
    {extra : Text} (hcomplete : Node.Complete (.leaf content raws source)) (hsolid : content.isSolid = true)
    (hbefore : raws.before = some (b.pending ++ extra))
    (hend : raws.ends.before = some (b.excerpt.origin.offset + (w ++ extra).size))
    (hcut : cut (w ++ extra).size) (semicolon : Bool) (rest : Text)
    (hcut' : cut (w ++ extra ++ (content.text raws ++ if semicolon then [';'] else [])).size) (more : Bool)
    (hseam : semicolon = false → more = true → seam (w ++ extra ++ content.text raws).size) :
    ({ b.taken with pending := rest, semicolon := semicolon }.add (.leaf content raws source)).Stands cut seam e more
      (w ++ extra ++ (content.text raws ++ if semicolon then [';'] else []) ++ rest)
      (p ++ extra ++ (content.text raws ++ if semicolon || more then [';'] else []) ++ rest) := by
  obtain ⟨hexcerpt, hnodes, hframes, hlaid⟩ := h
  have hpieces : ∀ s,
      ({ b.taken with pending := rest, semicolon := semicolon }.add (.leaf content raws source)).pieces s =
      b.pieces true ++ (.raw (b.pending ++ extra) (some (b.excerpt.origin.offset + (w ++ extra).size)) ::
        .plain (content.text raws) :: if s then [.semicolon] else []) := by
    intro s
    have hleaf : (Node.leaf content raws source).isSolid = true := by
      cases content with
      | comment text => exact absurd hsolid Bool.false_ne_true
      | _ => rfl
    rw [pieces_add, hleaf, Bool.or_true]
    simp only [Node.pieces, Node.raws, Node.beforeEnd?, hbefore, hend, hsolid, Bool.and_true, Option.getD_some]
    rfl
  have hlays : Lays cut seam b.excerpt.origin.offset (w ++ extra).size
      (.plain (content.text raws) :: if semicolon || more then [.semicolon] else [])
      (content.text raws ++ if semicolon then [';'] else [])
      (content.text raws ++ if semicolon || more then [';'] else []) := by
    refine .plain ?_
    cases semicolon with
    | true => exact .semicolon .nil
    | false =>
      cases more with
      | true =>
        have hadded := hseam rfl rfl
        rw [Text.size_append] at hadded
        exact .added hadded .nil
      | false => exact .nil
  have hall := add_complete (b := { b.taken with pending := rest, semicolon := semicolon }) hcomplete hnodes hframes
  refine ⟨(mapNodes_excerpt _ _).trans hexcerpt, hall.1, hall.2, ?_⟩
  rw [hpieces]
  unfold add
  rw [mapNodes_semicolon, mapNodes_excerpt, mapNodes_pending]
  exact (Bool.or_true b.semicolon ▸ hlaid).give hcut hlays hcut' rest

theorem Stands.openBlock (h : b.Stands cut seam e true w p) {f : Frame} {extra : Text} (hf : f.Complete)
    (hnil : f.nodes = []) (hbefore : f.raws.before = some (b.pending ++ extra))
    (hend : f.raws.ends.before = some (b.excerpt.origin.offset + (w ++ extra).size))
    (hcut : cut (w ++ extra).size) {body : Text}
    (hbody : f.header.text f.raws ++ f.raws.between.getD [] ++ ['\x7b'] = body)
    (hcut' : cut (w ++ extra ++ body).size) (more : Bool) :
    (b.taken.openBlock f).Stands cut seam e more (w ++ extra ++ body) (p ++ extra ++ body) ∧
      (b.taken.openBlock f).Settled := by
  obtain ⟨hexcerpt, hnodes, hframes, hlaid⟩ := h
  have hpieces : ∀ s, (b.taken.openBlock f).pieces s =
      b.pieces true ++
        [.raw (b.pending ++ extra) (some (b.excerpt.origin.offset + (w ++ extra).size)), .plain body] := by
    intro s
    simp only [pieces, Builder.openBlock, taken, openPieces, Frame.pieces, hbody, hbefore, hend, hnil, piecesOf,
      Option.getD_some, List.append_nil]
    rfl
  have hlays : Lays cut seam b.excerpt.origin.offset (w ++ extra).size [.plain body] (body ++ []) (body ++ []) :=
    .plain .nil
  have hgive := (Bool.or_true b.semicolon ▸ hlaid).give hcut hlays (by rwa [List.append_nil]) []
  refine ⟨⟨hexcerpt, hnodes, fun g hg => ?_, ?_⟩, .inr (by rw [hpieces true, hpieces false])⟩
  · rcases List.mem_cons.1 hg with rfl | hg
    · exact hf
    · exact hframes g hg
  · rw [hpieces]
    rw [List.append_nil, List.append_nil, List.append_nil] at hgive
    exact hgive

theorem Stands.openBareRule (h : b.Stands cut seam e true w p) (ht : t.Fits cut w.size) (hk : t.kind = .openCurly)
    (hcut : cut w.size) (hcut' : cut (w ++ t.text).size) (more : Bool) :
    (b.openBareRule t).Stands cut seam e more (w ++ t.text) (p ++ t.text) ∧ (b.openBareRule t).Settled := by
  have htext := ht.text_of_mark (c := '\x7b') (by rw [hk]; simp [Lexeme.IsMark])
  have hstart : t.start = some w.size := by rw [ht.start, hk, if_neg (by decide)]
  unfold Builder.openBareRule
  simp only [hstart, Option.getD_some]
  generalize hf : Frame.mk _ _ _ _ = f
  rw [← List.append_nil w] at hcut ⊢
  rw [← List.append_nil p]
  refine h.openBlock ?_ ?_ ?_ ?_ hcut ?_ (by rwa [List.append_nil]) more
  all_goals rw [← hf]
  · exact ⟨rfl, rfl, rfl, rfl, trivial⟩
  · exact (congrArg some (List.append_nil _)).symm
  · rw [List.append_nil]
    rfl
  · rw [htext]
    rfl

theorem Stands.openRule (h : b.Stands cut seam e true w p) {ts rest : List Token} {brace : Token}
    (htiled : Tiled cut w.size (t :: ts ++ [brace] ++ rest)) (ht : t.kind ≠ .space)
    (hbrace : brace.kind = .openCurly) (more : Bool) :
    (b.openRule (t :: ts)).Stands cut seam e more (w ++ Token.joined (t :: ts ++ [brace]))
        (p ++ Token.joined (t :: ts ++ [brace])) ∧
      (b.openRule (t :: ts)).Settled := by
  obtain ⟨u, us, hrun, hu⟩ := Run.splitHoleLines_head b.holes htiled.left.left ht
  have hlines := Run.splitHoleLines_append b.holes (t :: ts)
  unfold Builder.openRule
  generalize Run.splitHoleLines b.holes (t :: ts) = split at hrun hlines ⊢
  obtain ⟨lines, run⟩ := split
  simp only at hrun hlines ⊢
  subst hrun
  have hbetween := Run.joined_splitEnd Token.isTrivia (u :: us)
  have hselector := Run.text_clean false (Run.splitEnd Token.isTrivia (u :: us)).1
  have hopening : brace.text = ['\x7b'] :=
    htiled.left.right.fits.text_of_mark (by rw [hbrace]; simp [Lexeme.IsMark])
  have hend : cut (w ++ Token.joined lines ++ (Token.joined (u :: us) ++ brace.text)).size := by
    have hcut := htiled.right.cut_start
    rw [← hlines] at hcut
    simpa [Token.joined_append, Token.joined_cons, Nat.add_assoc] using hcut
  rw [← hlines, List.append_assoc, List.append_assoc] at htiled
  have hstart : ((u :: us).head?.bind (·.start)).getD 0 = (w ++ Token.joined lines).size := by
    rw [List.head?_cons, Option.bind_some, htiled.right.fits.start, if_neg hu, Option.getD_some, Text.size_append]
  have hjoined : Token.joined (t :: ts ++ [brace]) =
      Token.joined lines ++ (Token.joined (u :: us) ++ brace.text) := by
    rw [← hlines, List.append_assoc, Token.joined_append, Token.joined_append]
    simp [Token.joined]
  rw [hstart, hjoined, ← List.append_assoc w, ← List.append_assoc p]
  generalize hf : Frame.mk _ _ _ _ = f
  refine h.openBlock ?_ ?_ ?_ ?_ ?_ ?_ hend more
  · rw [← hf]
    exact ⟨rfl, rfl, rfl, rfl, trivial⟩
  · rw [← hf]
  · rw [← hf]
  · rw [← hf]
    rfl
  · rw [Text.size_append]
    exact htiled.right.cut_start
  · rw [← hf, hopening, ← hbetween, ← hselector]
    rfl

/-! ## Declarations -/

theorem joined_splitHack (t : Text) : (splitHack t).1 ++ (splitHack t).2 = t := by
  unfold splitHack
  split <;> rfl

theorem cut_splitHack {i : Nat} (ht : t.Fits cut i) (hcut : cut i) (more : Text) :
    cut (i + (splitHack (t.text ++ more)).1.size) := by
  have hhack := ht.hack
  obtain ⟨c, cs, htext⟩ := List.exists_cons_of_ne_nil ht.text_ne_nil
  rw [htext] at hhack ⊢
  rw [List.cons_append]
  have hhere := hhack c rfl
  by_cases hunder : c = '_'
  · subst hunder
    exact hhere (.inl rfl)
  · by_cases hstar : c = '*'
    · subst hstar
      exact hhere (.inr rfl)
    · have hnone : splitHack (c :: (cs ++ more)) = ([], c :: (cs ++ more)) := by
        unfold splitHack
        split
        · rename_i h
          exact absurd (List.cons.inj h).1 hunder
        · rename_i h
          exact absurd (List.cons.inj h).1 hstar
        · rfl
      rw [hnone]
      exact hcut

theorem eq_of_guard {c : Bool} {o : Option (Cause × Nat)} {fault : Cause → Nat → Fault} {x : Builder}
    (h : (if c = true then
        match o with
        | some (cause, offset) => do
          (throw (fault cause offset) : Except Fault PUnit)
          pure x
        | _ => pure x
      else pure x) = Except.ok b') : x = b' := by
  split at h
  · split at h
    · cases h
    · exact Except.ok.inj h
  · exact Except.ok.inj h

/-- The tokens of a declaration, but for its semicolon, are its texts and raws. -/
theorem declare_spec {run ts : List Token} {custom : Bool} {reached : Nat} {last : Token}
    (hlast : run.getLast? = some last) (hts : (if last.kind = .semicolon then run.dropLast else run) = ts)
    (htiled : Tiled cut w.size ts) (hne : ts ≠ []) (hb : b.declare run custom reached = .ok b') :
    ∃ extra prop value important raws source,
      b' = { b.taken with semicolon := decide (last.kind = Token.Kind.semicolon) }.add
        (.leaf (.declaration prop value important) raws source) ∧
      raws.before = some (b.pending ++ extra) ∧
      Node.Complete (.leaf (.declaration prop value important) raws source) ∧
      raws.ends.before = some (b.excerpt.origin.offset + (w ++ extra).size) ∧ cut (w ++ extra).size ∧
      extra ++ (Leaf.declaration prop value important).text raws = Token.joined ts := by
  unfold declare at hb
  rw [hlast] at hb
  simp only [hts] at hb
  obtain ⟨⟨before, rest⟩, hproperty, hb⟩ := bind_eq_ok.1 hb
  obtain ⟨⟨between, value⟩, hcolon, hb⟩ := bind_eq_ok.1 hb
  obtain ⟨dropped, rfl, rfl, hhead⟩ := Run.splitProperty_eq_ok (mapError_eq_ok.1 hproperty)
  obtain ⟨u, us, rfl, hword⟩ : ∃ u us, rest = u :: us ∧ u.kind = .word := by
    cases hts : dropped ++ rest with
    | nil => exact absurd hts hne
    | cons t ts => exact hhead t (by rw [hts]; rfl)
  have hvalue := Run.splitColon_eq_ok (mapError_eq_ok.1 hcolon)
  have hname := Run.joined_takeWhile (!Run.endsProperty ·) (u :: us)
  have hlead := Run.joined_takeWhile Token.isTrivia value
  have himportant := Run.joined_splitImportant (value.dropWhile Token.isTrivia)
  obtain rfl := eq_of_guard hb
  have hfits := htiled.right.fits
  have hstart : (b.position (((u :: us).head?.bind (·.start)).getD 0)).offset =
      b.excerpt.origin.offset + (w.size + (Token.joined dropped).size) := by
    rw [List.head?_cons, Option.bind_some, hfits.start, hword, if_neg (by decide)]
    rfl
  have hcut : cut (w.size + (Token.joined dropped).size +
      (splitHack (Token.joined ((u :: us).takeWhile (!Run.endsProperty ·)))).1.size) := by
    have hu : Run.endsProperty u = false := by simp [Run.endsProperty, hword]
    rw [List.takeWhile_cons_of_pos (by rw [hu]; rfl), Token.joined_cons]
    exact cut_splitHack hfits htiled.right.cut_start _
  have hhack := joined_splitHack (Token.joined ((u :: us).takeWhile (!Run.endsProperty ·)))
  refine ⟨Token.joined dropped ++ (splitHack (Token.joined ((u :: us).takeWhile (!Run.endsProperty ·)))).1,
    _, _, _, _, _, rfl, ?_, ⟨rfl, rfl, rfl, rfl⟩, ?_, ?_, ?_⟩
  · simp only [List.append_assoc]
  · simp only [hstart, Text.size_append, Nat.add_assoc]
  · simpa only [Text.size_append, Nat.add_assoc] using hcut
  · generalize splitHack (Token.joined ((u :: us).takeWhile (!Run.endsProperty ·))) = hack at hhack ⊢
    generalize Run.splitImportant (value.dropWhile Token.isTrivia) = mark at himportant ⊢
    have hclean := Run.text_clean custom
      (if mark.1.all Token.isTrivia then value.takeWhile Token.isTrivia ++ mark.1 else mark.1)
    show Token.joined dropped ++ hack.1 ++ (hack.2 ++
      (if mark.1.all Token.isTrivia then between else between ++ Token.joined (value.takeWhile Token.isTrivia)) ++
      RawValue.text (Run.clean custom _).2 (Run.clean custom _).1 ++ Run.markText mark.2.1 mark.2.2) = _
    have hsplit : (if mark.1.all Token.isTrivia then between
          else between ++ Token.joined (value.takeWhile Token.isTrivia)) ++
        Token.joined (if mark.1.all Token.isTrivia then value.takeWhile Token.isTrivia ++ mark.1 else mark.1) =
        between ++ Token.joined (value.takeWhile Token.isTrivia) ++ Token.joined mark.1 := by
      split
      · rw [Token.joined_append, List.append_assoc]
      · rfl
    rw [List.nil_append, ← hlead, ← himportant, ← List.append_assoc between, ← List.append_assoc, ← hsplit] at hvalue
    rw [hclean, Token.joined_append, ← hname, ← hhack, ← hvalue]
    simp only [List.append_assoc]

/-- A declaration ends with a semicolon that is written, or it gets one if a solid node comes next. -/
theorem Stands.declare (h : b.Stands cut seam e true w p) {run ts rest : List Token} {custom : Bool} {reached : Nat}
    {last : Token} (hlast : run.getLast? = some last)
    (hts : (if last.kind = .semicolon then run.dropLast else run) = ts) (hne : ts ≠ [])
    (htiled : Tiled cut w.size (run ++ rest)) (hb : b.declare run custom reached = .ok b') (more : Bool)
    (hseam : last.kind ≠ .semicolon → more = true → seam (w ++ Token.joined run).size) :
    b'.Stands cut seam e more (w ++ Token.joined run)
      (p ++ Token.joined run ++ if last.kind ≠ .semicolon ∧ more = true then [';'] else []) ∧
    (last.kind = .semicolon → b'.Settled) := by
  have hrun : run = ts ++ if last.kind = .semicolon then [last] else [] := by
    obtain ⟨init, rfl⟩ := List.getLast?_eq_some_iff.1 hlast
    rw [← hts]
    split <;> simp
  have htiled' : Tiled cut w.size ts := by
    rw [hrun, List.append_assoc] at htiled
    exact htiled.left
  have hjoined : Token.joined run = Token.joined ts ++ if last.kind = .semicolon then [';'] else [] := by
    rw [hrun, Token.joined_append]
    congr 1
    split
    · rename_i hk
      rw [hrun, if_pos hk, List.append_assoc] at htiled
      have htext : last.text = [';'] := htiled.right.fits.text_of_mark (by rw [hk]; simp [Lexeme.IsMark])
      simp [Token.joined, htext]
    · rfl
  obtain ⟨extra, prop, value, important, raws, source, rfl, hbefore, hcomplete, hend, hcut, htext⟩ :=
    declare_spec hlast hts htiled' hne hb
  have hcut' : cut (w ++ extra ++ ((Leaf.declaration prop value important).text raws ++
      if decide (last.kind = .semicolon) = true then [';'] else [])).size := by
    have hstop := htiled.right.cut_start
    rw [hjoined, ← htext] at hstop
    simpa [Nat.add_assoc] using hstop
  have hadded : decide (last.kind = .semicolon) = false → more = true →
      seam (w ++ extra ++ (Leaf.declaration prop value important).text raws).size := by
    intro hk hmore
    have hk := of_decide_eq_false hk
    have hseam := hseam hk hmore
    rwa [hjoined, if_neg hk, List.append_nil, ← htext, ← List.append_assoc] at hseam
  have hadd := h.addLeaf hcomplete rfl hbefore hend hcut (decide (last.kind = .semicolon)) [] hcut' more hadded
  refine ⟨?_, fun hk => .inl ?_⟩
  · rw [hjoined, ← htext]
    have htaken : b.taken.pending = [] := rfl
    by_cases hk : last.kind = .semicolon
    · simpa [hk, htaken] using hadd
    · cases more <;> simpa [hk, htaken] using hadd
  · unfold add
    rw [mapNodes_semicolon]
    exact decide_eq_true hk

/-! ## At-rules -/

theorem atRuleStart_spec {i : Nat} (ht : t.Fits cut i) (hk : t.kind = .atWord) {ps : List Token}
    (hps : ∀ u ∈ ps, u.text ≠ []) {raws : Raws}
    (hname : raws.afterName = some (if (Run.splitEnd Token.isTrivia ps).1.isEmpty then []
      else Token.joined ((Run.splitEnd Token.isTrivia ps).1.takeWhile Token.isTrivia)))
    (hparams : raws.params = (Run.clean false ((Run.splitEnd Token.isTrivia ps).1.dropWhile Token.isTrivia)).2) :
    atRuleStart (t.text.drop 1)
        (Run.clean false ((Run.splitEnd Token.isTrivia ps).1.dropWhile Token.isTrivia)).1 raws =
      t.text ++ Token.joined (Run.splitEnd Token.isTrivia ps).1 := by
  have hspells := ht.spells
  rw [hk] at hspells
  obtain ⟨name, htext⟩ := hspells
  have hlast : ∀ u, (Run.splitEnd Token.isTrivia ps).1.getLast? = some u → u.isTrivia = false := fun u hu =>
    Run.getLast?_splitEnd hu
  have hmem : ∀ u ∈ (Run.splitEnd Token.isTrivia ps).1, u.text ≠ [] := by
    intro u hu
    refine hps u ?_
    rw [← Run.splitEnd_append Token.isTrivia ps]
    exact List.mem_append_left _ hu
  generalize (Run.splitEnd Token.isTrivia ps).1 = kept at hname hparams hlast hmem ⊢
  have hsplit := Run.joined_takeWhile Token.isTrivia kept
  have hclean := Run.text_clean false (kept.dropWhile Token.isTrivia)
  unfold atRuleStart
  simp only [hname, hparams, Option.getD_some, htext, List.drop_succ_cons, List.drop_zero]
  cases hkept : kept with
  | nil => simp [Run.clean, Run.cleanFrom]
  | cons u us =>
    rw [hkept] at hsplit hclean hmem
    -- The last token that is kept is a parameter, so something is left behind the spaces in front.
    have hparam : ∃ v vs, (u :: us).dropWhile Token.isTrivia = v :: vs ∧ v.isTrivia = false := by
      have hhead := List.head?_dropWhile_not Token.isTrivia (u :: us)
      cases hdrop : (u :: us).dropWhile Token.isTrivia with
      | nil =>
        have happ := List.takeWhile_append_dropWhile (p := Token.isTrivia) (l := u :: us)
        rw [hdrop, List.append_nil] at happ
        have hall := List.all_eq_true.1 (List.all_takeWhile (p := Token.isTrivia) (l := u :: us))
        rw [happ] at hall
        rw [hkept] at hlast
        have hone := hlast _ (List.getLast?_eq_some_getLast (List.cons_ne_nil u us))
        rw [hall _ (List.getLast_mem (List.cons_ne_nil u us))] at hone
        cases hone
      | cons v vs =>
        rw [hdrop] at hhead
        exact ⟨v, vs, rfl, by simpa using hhead⟩
    obtain ⟨v, vs, hv, htrivia⟩ := hparam
    have hne : (Run.clean false ((u :: us).dropWhile Token.isTrivia)).1 ≠ [] := by
      rw [hv]
      refine Run.clean_ne_nil false htrivia (hmem v ?_)
      exact (List.dropWhile_suffix _).subset (hv ▸ List.mem_cons_self)
    have hempty : (Run.clean false ((u :: us).dropWhile Token.isTrivia)).1.isEmpty = false := by simpa using hne
    simp only [hempty, List.isEmpty_cons, Bool.false_eq_true, if_false, hclean, ← hsplit, List.append_assoc]

/-- What an at-rule becomes, by how it ends. Its raws spell it, and the rest of it waits. -/
theorem atRule_spec {ts rest : List Token} {fault : Option Fault} (ht : t.Fits cut w.size)
    (hk : t.kind = .atWord) (hps : ∀ u ∈ (collectParams [] ts).params, u.text ≠ [])
    (hb : b.atRule fault t ts = .ok (b', rest)) :
    ∃ name params raws source pending,
      raws.before = some b.pending ∧ raws.between.isSome = true ∧ raws.after = none ∧ raws.ownSemicolon = none ∧
      raws.ends.before = some (b.excerpt.origin.offset + w.size) ∧
      (pending = [] ∧ atRuleStart name params raws ++ raws.between.getD [] =
          t.text ++ Token.joined (collectParams [] ts).params ∨
        (collectParams [] ts).ending = .exhausted ∧
          pending = Token.joined (Run.splitEnd Token.isTrivia (collectParams [] ts).params).2 ∧
          atRuleStart name params raws ++ raws.between.getD [] =
            t.text ++ Token.joined (Run.splitEnd Token.isTrivia (collectParams [] ts).params).1) ∧
      match (collectParams [] ts).ending with
      | .semicolon => rest = (collectParams [] ts).unread.drop 1 ∧
          b' = { b.taken with semicolon := true }.add (.leaf (.atRule name params) raws source)
      | .block => rest = (collectParams [] ts).unread ∧
          ∃ place, b' = b.taken.openBlock ⟨.atRule name params, raws, place, []⟩
      | .boundary closing => rest = (collectParams [] ts).unread ∧
          (b.taken.add (.leaf (.atRule name params) raws source)).close closing = .ok b'
      | .exhausted => rest = (collectParams [] ts).unread ∧
          b' = { b.taken with pending := pending }.add (.leaf (.atRule name params) raws source) := by
  have hstart : t.start = some w.size := by rw [ht.start, hk, if_neg (by decide)]
  unfold Builder.atRule at hb
  generalize collectParams [] ts = run at hb hps
  obtain ⟨ps, ending, unread⟩ := run
  have hparams := Run.joined_splitEnd Token.isTrivia ps
  simp only [hstart, Option.getD_some] at hb
  split at hb
  · cases hb
  · cases ending with
    | semicolon =>
      obtain ⟨rfl, rfl⟩ := Prod.mk.inj (Except.ok.inj hb)
      refine ⟨_, _, _, _, [], rfl, rfl, rfl, rfl, rfl, .inl ⟨rfl, ?_⟩, rfl, rfl⟩
      rw [atRuleStart_spec ht hk hps rfl rfl, List.append_assoc, ← hparams]
      rfl
    | block =>
      obtain ⟨rfl, rfl⟩ := Prod.mk.inj (Except.ok.inj hb)
      refine ⟨_, _, _, none, [], rfl, rfl, rfl, rfl, rfl, .inl ⟨rfl, ?_⟩, rfl, _, rfl⟩
      rw [atRuleStart_spec ht hk hps rfl rfl, List.append_assoc, ← hparams]
      rfl
    | boundary closing =>
      obtain ⟨built, hclose, hb⟩ := bind_eq_ok.1 hb
      obtain ⟨rfl, rfl⟩ := Prod.mk.inj (Except.ok.inj hb)
      refine ⟨_, _, _, _, [], rfl, rfl, rfl, rfl, rfl, .inl ⟨rfl, ?_⟩, rfl, hclose⟩
      rw [atRuleStart_spec ht hk hps rfl rfl, List.append_assoc, ← hparams]
      rfl
    | exhausted =>
      simp only [if_true] at hb
      split at hb
      · cases hb
      · obtain ⟨rfl, rfl⟩ := Prod.mk.inj (Except.ok.inj hb)
        refine ⟨_, _, _, _, _, rfl, rfl, rfl, rfl, rfl, ?_, rfl, rfl⟩
        rw [atRuleStart_spec ht hk hps rfl rfl, ← hparams]
        cases hkept : (Run.splitEnd Token.isTrivia ps).1 with
        | nil => exact .inl ⟨rfl, by simp⟩
        | cons u us => exact .inr ⟨rfl, rfl, by simp⟩

theorem Stands.atRule {ts rest : List Token} {fault : Option Fault} (h : b.Stands cut seam e true w p)
    (htiled : Tiled cut w.size (t :: ts)) (hk : t.kind = .atWord) (hb : b.atRule fault t ts = .ok (b', rest)) :
    rest = (collectParams [] ts).rest ∧ ∃ us, t :: ts = t :: us ++ rest ∧
      b'.Stands cut seam e false (w ++ Token.joined (t :: us)) (p ++ Token.joined (t :: us)) ∧
        (b'.Settled ∨ rest = []) := by
  have hsplits := collectParams_splits [] ts
  have hps : ∀ u ∈ (collectParams [] ts).params, u.text ≠ [] := fun u hu =>
    htiled.tail.text_ne_nil u (hsplits.params_subset hu)
  obtain ⟨name, params, raws, source, pending, hbefore, hbetween, hafter, hown, hend, htext, hrest⟩ :=
    atRule_spec htiled.fits hk hps hb
  clear hps
  generalize collectParams [] ts = run at hsplits htext hrest
  obtain ⟨ps, ending, unread⟩ := run
  have hcut := htiled.cut_start
  rw [← List.append_nil b.pending] at hbefore
  rw [← List.append_nil w] at hend hcut
  have hcomplete : Node.Complete (.leaf (.atRule name params) raws source) :=
    ⟨by rw [hbefore]; rfl, hafter, hown, trivial⟩
  have htaken : b.taken.pending = [] := rfl
  have hbody : ∀ s : Token,
      pending = [] ∧ atRuleStart name params raws ++ raws.between.getD [] = t.text ++ Token.joined ps →
      Token.joined (t :: ps ++ [s]) = (Leaf.atRule name params).text raws ++ s.text := by
    rintro s ⟨-, hbody⟩
    rw [Token.joined_append, Token.joined_cons, ← hbody]
    simp [Token.joined, Leaf.text]
  cases ending with
  | semicolon =>
    obtain ⟨s, us, rfl, hs, rfl⟩ := hsplits
    obtain ⟨rfl, rfl⟩ := hrest
    specialize hbody s (htext.resolve_right (by simp))
    have htiled' : Tiled cut w.size (t :: ps ++ [s] ++ rest) := by simpa using htiled
    have hmark : s.text = [';'] := htiled'.left.right.fits.text_of_mark (by rw [hs]; simp [Lexeme.IsMark])
    have hcut' : cut (w ++ [] ++ ((Leaf.atRule name params).text raws ++ [';'])).size := by
      rw [List.append_nil, ← hmark, ← hbody, Text.size_append]
      exact htiled'.right.cut_start
    have hadd := h.addLeaf hcomplete rfl hbefore hend hcut true [] hcut' false (by simp)
    refine ⟨rfl, ps ++ [s], by simp, ?_, .inl (.inl ?_)⟩
    · rw [← List.cons_append, hbody, hmark]
      simpa [htaken] using hadd
    · unfold add
      rw [mapNodes_semicolon]
  | block =>
    obtain ⟨s, hs, rfl⟩ := hsplits
    obtain ⟨rfl, place, rfl⟩ := hrest
    specialize hbody s (htext.resolve_right (by simp))
    have htiled' : Tiled cut w.size (t :: ps ++ [s] ++ rest) := by simpa using htiled
    have hmark : s.text = ['\x7b'] := htiled'.left.right.fits.text_of_mark (by rw [hs]; simp [Lexeme.IsMark])
    have hframe : Frame.Complete ⟨.atRule name params, raws, place, []⟩ :=
      ⟨by rw [hbefore]; rfl, hbetween, hafter, hown, trivial⟩
    have hcut' : cut (w ++ [] ++ Token.joined (t :: ps ++ [s])).size := by
      rw [List.append_nil, Text.size_append]
      exact htiled'.right.cut_start
    have hopen := h.openBlock hframe rfl hbefore hend hcut (by rw [hbody, hmark]; rfl) hcut' false
    rw [List.append_nil, List.append_nil] at hopen
    exact ⟨rfl, ps ++ [s], by simp, hopen.1, .inl hopen.2⟩
  | boundary s =>
    obtain ⟨hs, rfl⟩ := hsplits
    obtain ⟨rfl, hclose⟩ := hrest
    specialize hbody s (htext.resolve_right (by simp))
    have htiled' : Tiled cut w.size (t :: ps ++ [s] ++ rest) := by simpa using htiled
    have hleaf : Token.joined (t :: ps) = (Leaf.atRule name params).text raws := by
      rw [Token.joined_append] at hbody
      exact List.append_cancel_right (hbody.trans (by simp [Token.joined]))
    have hmore : Tiled cut (w ++ (Leaf.atRule name params).text raws).size ([s] ++ rest) := by
      rw [List.append_assoc] at htiled'
      rw [← hleaf, Text.size_append]
      exact htiled'.right
    have hadd : (b.taken.add (.leaf (.atRule name params) raws source)).Stands cut seam e false
        (w ++ (Leaf.atRule name params).text raws) (p ++ (Leaf.atRule name params).text raws) := by
      have hadd := h.addLeaf hcomplete rfl hbefore hend hcut false [] (by simpa using hmore.cut_start) false (by simp)
      have hnext : { b.taken with pending := [], semicolon := false } = b.taken := rfl
      simpa [hnext] using hadd
    have hcut' : cut (w ++ (Leaf.atRule name params).text raws ++ s.text).size := by
      rw [Text.size_append]
      exact hmore.tail.cut_start
    have hdone := hadd.close hmore.fits hs hmore.cut_start hcut' hclose false
    refine ⟨rfl, ps ++ [s], by simp, ?_, .inl hdone.2⟩
    rw [← List.cons_append, hbody, ← List.append_assoc, ← List.append_assoc]
    exact hdone.1
  | exhausted =>
    obtain ⟨rfl, rfl⟩ := hsplits
    obtain ⟨rfl, rfl⟩ := hrest
    have hkept := Run.joined_splitEnd Token.isTrivia ts
    -- What is not in the text of the at-rule waits, and the text of the at-rule ends behind a token.
    have hbody : ∃ us vs, t :: ts = us ++ vs ∧ (Leaf.atRule name params).text raws = Token.joined us ∧
        pending = Token.joined vs := by
      rcases htext with ⟨rfl, htext⟩ | ⟨-, rfl, htext⟩
      · exact ⟨t :: ts, [], by simp, htext, rfl⟩
      · refine ⟨t :: (Run.splitEnd Token.isTrivia ts).1, (Run.splitEnd Token.isTrivia ts).2, ?_, htext, rfl⟩
        rw [List.cons_append, Run.splitEnd_append]
    obtain ⟨us, vs, hsplit, hus, rfl⟩ := hbody
    rw [hsplit] at htiled
    have hadd := h.addLeaf hcomplete rfl hbefore hend hcut false (Token.joined vs)
      (by simpa [hus] using htiled.right.cut_start) false (by simp)
    refine ⟨rfl, ts, by simp, ?_, .inr rfl⟩
    have hnext : b.taken.semicolon = false := rfl
    rw [hsplit, Token.joined_append, ← hus]
    simpa [hnext] using hadd

/-! ## Filler -/

theorem Stands.fill {ts rest : List Token} (h : b.Stands cut seam e more w p) (hs : b.Settled)
    (htiled : Tiled cut w.size (ts ++ rest)) (hb : b.fill ts = .ok b') :
    b'.Stands cut seam e more (w ++ Token.joined ts) (p ++ Token.joined ts) ∧ b'.Settled := by
  induction ts generalizing b w p with
  | nil =>
    obtain rfl := Except.ok.inj hb
    simpa using ⟨h, hs⟩
  | cons t ts ih =>
    have hnext : Tiled cut (w ++ t.text).size (ts ++ rest) := by
      rw [Text.size_append]
      exact htiled.tail
    rw [Token.joined_cons, ← List.append_assoc, ← List.append_assoc]
    rw [Builder.fill] at hb
    split at hb
    · exact ih (h.wait _) hs hnext hb
    · split at hb
      · rename_i hk
        obtain ⟨hcomment, hsettled⟩ := h.comment htiled.fits hk htiled.cut_start hnext.cut_start
        exact ih hcomment (hsettled hs) hnext hb
      · simp at hb

end Builder
end TaggedStyles
