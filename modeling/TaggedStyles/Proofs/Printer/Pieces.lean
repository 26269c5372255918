import TaggedStyles.Printer.Basic

/-! What a tree prints, piece by piece. A tree in which every raw that its printer asks for is set
(`Node.Complete`) is printed without any inference: `Root.pieces` lists what comes out, and each raw in
it is a piece of its own, because nested style texts are spliced into raws only. -/
namespace TaggedStyles
set_option autoImplicit false

/-- A piece of what is printed. -/
inductive Piece where
  | plain (text : Text)
  /-- A raw with the offset in the source at which it ends. -/
  | raw (text : Text) (stop : Option Nat)
  /-- The semicolon behind a declaration or an at-rule. -/
  | semicolon

namespace Piece

def text : Piece → Text
  | plain t => t
  | raw t _ => t
  | semicolon => [';']

def print (rendered : List Rendered) : Piece → Text
  | plain t => t
  | raw t stop => Printer.raw rendered t stop
  | semicolon => [';']

/-- The text of some pieces, one after the other. -/
def texts (ps : List Piece) : Text := ps.flatMap text

/-- Some pieces with nested style texts spliced into their raws. -/
def prints (rendered : List Rendered) (ps : List Piece) : Text := ps.flatMap (print rendered)

@[simp] theorem texts_nil : texts [] = [] := rfl

@[simp] theorem texts_cons (p : Piece) (ps : List Piece) : texts (p :: ps) = p.text ++ texts ps := rfl

@[simp] theorem texts_append (ps qs : List Piece) : texts (ps ++ qs) = texts ps ++ texts qs := by
  simp [texts]

@[simp] theorem prints_nil (rendered : List Rendered) : prints rendered [] = [] := rfl

@[simp] theorem prints_cons (rendered : List Rendered) (p : Piece) (ps : List Piece) :
    prints rendered (p :: ps) = p.print rendered ++ prints rendered ps := rfl

@[simp] theorem prints_append (rendered : List Rendered) (ps qs : List Piece) :
    prints rendered (ps ++ qs) = prints rendered ps ++ prints rendered qs := by
  simp [prints]

theorem prints_congr {rendered rendered' : List Rendered} {ps : List Piece}
    (h : ∀ t stop, raw t (some stop) ∈ ps → splice rendered' t stop = splice rendered t stop) :
    prints rendered' ps = prints rendered ps := by
  induction ps with
  | nil => rfl
  | cons p ps ih =>
    rw [prints_cons, prints_cons, ih fun t stop hmem => h t stop (List.mem_cons_of_mem p hmem)]
    cases p with
    | raw t stop =>
      cases stop with
      | none => rfl
      | some stop => rw [print, print, Printer.raw, Printer.raw, h t stop List.mem_cons_self]
    | plain t => rfl
    | semicolon => rfl

theorem sublist_prints {rendered : List Rendered} {ps : List Piece}
    (h : ∀ t stop, raw t (some stop) ∈ ps → t.Sublist (splice rendered t stop)) :
    (texts ps).Sublist (prints rendered ps) := by
  induction ps with
  | nil => exact .slnil
  | cons p ps ih =>
    refine List.Sublist.append ?_ (ih fun t stop hmem => h t stop (List.mem_cons_of_mem p hmem))
    cases p with
    | raw t stop =>
      cases stop with
      | none => exact .refl t
      | some stop => exact h t stop List.mem_cons_self
    | plain t => exact .refl t
    | semicolon => exact .refl _

theorem prints_of_splice_eq {rendered : List Rendered} {ps : List Piece}
    (h : ∀ t stop, raw t (some stop) ∈ ps → splice rendered t stop = t) : prints rendered ps = texts ps := by
  induction ps with
  | nil => rfl
  | cons p ps ih =>
    rw [prints_cons, texts_cons, ih fun t stop hmem => h t stop (List.mem_cons_of_mem p hmem)]
    cases p with
    | raw t stop =>
      cases stop with
      | none => rfl
      | some stop => rw [print, Printer.raw, h t stop List.mem_cons_self, text]
    | plain t => rfl
    | semicolon => rfl

theorem size_prints {rendered : List Rendered} {ps : List Piece}
    (hgrow : ∀ t stop, raw t (some stop) ∈ ps → t.size ≤ (splice rendered t stop).size) :
    (texts ps).size ≤ (prints rendered ps).size ∧ ((prints rendered ps).size = (texts ps).size →
      ∀ t stop, raw t (some stop) ∈ ps → (splice rendered t stop).size = t.size) := by
  induction ps with
  | nil => simp
  | cons p ps ih =>
    obtain ⟨hle, heq⟩ := ih fun t stop hmem => hgrow t stop (List.mem_cons_of_mem p hmem)
    have hp : p.text.size ≤ (p.print rendered).size := by
      cases p with
      | raw t stop =>
        cases stop with
        | none => exact Nat.le_refl _
        | some stop => exact hgrow t stop List.mem_cons_self
      | plain t => exact Nat.le_refl _
      | semicolon => exact Nat.le_refl _
    rw [prints_cons, texts_cons, Text.size_append, Text.size_append]
    refine ⟨by omega, fun hsize t stop hmem => ?_⟩
    rcases List.mem_cons.1 hmem with rfl | hmem
    · have hraw : (splice rendered t stop).size ≤ t.size := by
        simp only [print, Printer.raw, text] at hsize hp
        omega
      exact Nat.le_antisymm hraw (hgrow t stop List.mem_cons_self)
    · exact heq (by omega) t stop hmem

end Piece

@[simp] theorem splice_nil (rendered : List Rendered) (stop : Nat) : splice rendered [] stop = [] := by
  simp [splice, Text.includes, holeMark]

theorem splice_of_nil (text : Text) (stop : Nat) : splice [] text stop = text := by
  unfold splice
  split
  · rfl
  · simp [Rendered.outermost, sorted, Rendered.outermostFrom, Rendered.fillIn]

theorem Printer.raw_nil (text : Text) (stop : Option Nat) : Printer.raw [] text stop = text := by
  cases stop with
  | none => rfl
  | some stop => exact splice_of_nil text stop

/-! ## Pieces of a tree -/

/-- Whether a node can be followed by a semicolon of its own. -/
def Leaf.isSolid : Leaf → Bool
  | .comment _ => false
  | _ => true

def Node.isSolid (n : Node) : Bool := !n.isComment

/-- A leaf as its raws say, without a semicolon. -/
def Leaf.text (raws : Raws) : Leaf → Text
  | .declaration prop value important =>
    prop ++ raws.between.getD [] ++ RawValue.text raws.value value
      ++ if important then (raws.important.filter (!·.isEmpty)).getD " !important".toList else []
  | .atRule name params => atRuleStart name params raws ++ raws.between.getD []
  | .comment text => ['/', '*'] ++ raws.left.getD [] ++ text ++ raws.right.getD [] ++ ['*', '/']

/-- The semicolon behind a rule. -/
def Header.ownPieces (raws : Raws) : Header → List Piece
  | .rule _ => (raws.ownSemicolon.map fun own => Piece.raw own raws.ends.ownSemicolon).toList
  | .atRule .. => []

theorem Header.ownPieces_none {header : Header} {raws : Raws} (h : raws.ownSemicolon = none) :
    header.ownPieces raws = [] := by
  cases header with
  | rule selector => simp [Header.ownPieces, h]
  | atRule name params => rfl

mutual

/-- What a node prints behind the raw before it. -/
def Node.pieces (semicolon : Bool) : Node → List Piece
  | .leaf content raws _ =>
    .plain (content.text raws) :: if semicolon && content.isSolid then [.semicolon] else []
  | .block header ns raws _ =>
    .plain (header.text raws ++ raws.between.getD [] ++ ['\x7b']) ::
      (piecesOf (raws.semicolon.getD false) ns ++
        (.raw (raws.after.getD []) raws.ends.after :: .plain ['\x7d'] :: header.ownPieces raws))

/-- What some siblings print, of which the last solid one is followed by a semicolon if asked for. -/
def piecesOf (semicolon : Bool) : List Node → List Piece
  | [] => []
  | n :: ns =>
    .raw (n.raws.before.getD []) n.beforeEnd? ::
      (n.pieces (semicolon || ns.any Node.isSolid) ++ piecesOf semicolon ns)

end

/-- What a root prints, without the code around it. -/
def Root.pieces (r : Root) : List Piece :=
  piecesOf (r.semicolon.getD false) r.nodes ++ [.raw r.after (some r.rangeEnd)]

/-! ## Complete trees -/

def Leaf.Complete (raws : Raws) : Leaf → Prop
  | .declaration .. => raws.between.isSome = true
  | .atRule .. => True
  | .comment _ => raws.left.isSome = true ∧ raws.right.isSome = true

mutual

/-- All raws are set that the printer asks for, and no raw that it never looks at. -/
def Node.Complete : Node → Prop
  | .leaf content raws _ =>
    raws.before.isSome = true ∧ raws.after = none ∧ raws.ownSemicolon = none ∧ content.Complete raws
  | .block header ns raws _ =>
    raws.before.isSome = true ∧ raws.between.isSome = true ∧ raws.after.isSome = true ∧
      (ns ≠ [] → raws.semicolon.isSome = true) ∧
      ((∃ name params, header = .atRule name params) → raws.ownSemicolon = none) ∧
      CompleteAll ns

def CompleteAll : List Node → Prop
  | [] => True
  | n :: ns => n.Complete ∧ CompleteAll ns

end

def Root.Complete (r : Root) : Prop := CompleteAll r.nodes ∧ (r.nodes ≠ [] → r.semicolon.isSome = true)

theorem completeAll_iff {ns : List Node} : CompleteAll ns ↔ ∀ n ∈ ns, n.Complete := by
  induction ns with
  | nil => simp [CompleteAll]
  | cons n ns ih => simp [CompleteAll, ih]

theorem completeAll_append {ns ms : List Node} : CompleteAll (ns ++ ms) ↔ CompleteAll ns ∧ CompleteAll ms := by
  simp only [completeAll_iff, List.mem_append, or_imp, forall_and]

theorem Node.Complete.before {n : Node} (h : n.Complete) : n.raws.before.isSome = true := by
  cases n <;> exact h.1

/-! ## Semicolons between siblings -/

theorem lastSolid_cons (n : Node) (ns : List Node) :
    lastSolid (n :: ns) = if ns.any Node.isSolid then lastSolid ns + 1 else 0 := by
  unfold lastSolid
  rw [List.reverse_cons, List.findIdx?_append]
  cases hfound : ns.reverse.findIdx? (!·.isComment) with
  | none =>
    have hnone : ns.any Node.isSolid = false := by
      rw [List.findIdx?_eq_none_iff] at hfound
      simpa [Node.isSolid] using hfound
    cases hn : n.isComment <;> simp [hnone, hn]
  | some k =>
    have hany : ns.any Node.isSolid = true := by
      have hsome : (ns.reverse.findIdx? (!·.isComment)).isSome = true := by rw [hfound]; rfl
      simpa [Node.isSolid] using hsome
    have hk := (List.findIdx?_eq_some_iff_findIdx_eq.1 hfound).1
    simp only [List.length_reverse] at hk
    simp [hany]
    omega

theorem Node.pieces_of_not_solid {n : Node} (h : n.isSolid = false) (s s' : Bool) :
    n.pieces s = n.pieces s' := by
  cases n with
  | leaf content raws source =>
    cases content with
    | comment text => simp [Node.pieces, Leaf.isSolid]
    | _ => simp [Node.isSolid, Node.isComment] at h
  | block header ns raws source => simp [Node.isSolid, Node.isComment] at h

theorem piecesOf_append (s : Bool) (ns ms : List Node) :
    piecesOf s (ns ++ ms) = piecesOf (s || ms.any Node.isSolid) ns ++ piecesOf s ms := by
  induction ns with
  | nil => rfl
  | cons n ns ih =>
    have hflag : (s || (ns.any Node.isSolid || ms.any Node.isSolid)) =
        (s || ms.any Node.isSolid || ns.any Node.isSolid) := by
      rw [Bool.or_assoc, Bool.or_comm (ms.any _)]
    simp only [List.cons_append, piecesOf, ih, List.any_append, List.append_assoc, hflag]

/-! ## Printing them -/

namespace Printer
variable {m : Type → Type} [Monad m] [LawfulMonad m] (look : Lookup m) (rendered : List Rendered)

theorem leaf_complete (place : Place) (semicolon : Bool) (raws : Raws) {content : Leaf}
    (h : content.Complete raws) :
    leaf look place semicolon raws content =
      pure (content.text raws ++ if semicolon && content.isSolid then [';'] else []) := by
  cases content with
  | declaration prop value important =>
    obtain ⟨between, hb⟩ := Option.isSome_iff_exists.1 h
    simp only [leaf, rawOr, hb, pure_bind, Option.getD_some, Leaf.text, Leaf.isSolid, Bool.and_true]
  | atRule name params => simp only [leaf, Leaf.text, Leaf.isSolid, Bool.and_true]
  | comment text =>
    obtain ⟨left, hl⟩ := Option.isSome_iff_exists.1 h.1
    obtain ⟨right, hr⟩ := Option.isSome_iff_exists.1 h.2
    simp only [leaf, rawOr, hl, hr, pure_bind, Option.getD_some, Leaf.text, Leaf.isSolid, Bool.and_false,
      Bool.false_eq_true, if_false, List.append_nil]

theorem ownSemicolon_complete {raws : Raws} {header : Header}
    (h : (∃ name params, header = .atRule name params) → raws.ownSemicolon = none) :
    ownSemicolon rendered raws header = Piece.prints rendered (header.ownPieces raws) := by
  cases header with
  | rule selector =>
    simp only [ownSemicolon, Header.ownPieces]
    cases raws.ownSemicolon with
    | none =>
      unfold raw
      split <;> simp
    | some own => simp [Piece.print]
  | atRule name params => simp [ownSemicolon, Header.ownPieces]

mutual

theorem node_complete (place : Place) (semicolon : Bool) (n : Node) (h : n.Complete) :
    node look rendered place semicolon n = pure (Piece.prints rendered (n.pieces semicolon)) := by
  cases n with
  | leaf content raws source =>
    rw [node, leaf_complete look place semicolon raws h.2.2.2]
    simp only [Node.pieces, Piece.prints_cons, Piece.print]
    split <;> simp [Piece.print]
  | block header ns raws source =>
    obtain ⟨-, hbetween, hafter, hsemicolon, hown, hall⟩ := h
    obtain ⟨between, hb⟩ := Option.isSome_iff_exists.1 hbetween
    obtain ⟨after, ha⟩ := Option.isSome_iff_exists.1 hafter
    simp only [node, Node.pieces, rawOr, afterChildren, hb, ha, pure_bind, Option.getD_some,
      ownSemicolon_complete rendered hown, Piece.prints_cons, Piece.prints_append, Piece.print]
    cases ns with
    | nil => simp [piecesOf]
    | cons n ns =>
      obtain ⟨semicolon, hs⟩ := Option.isSome_iff_exists.1 (hsemicolon (List.cons_ne_nil n ns))
      have hchildren :=
        nodes_complete ⟨.block, place.depth + 1, 0⟩ (lastSolid (n :: ns)) semicolon (n :: ns) hall
        fun _ => (Nat.zero_add _).symm
      simp only [List.isEmpty_cons, Bool.false_eq_true, if_false, hs, pure_bind, hchildren, Option.getD_some,
        List.append_assoc]

theorem nodes_complete (place : Place) (last : Nat) (semicolon : Bool) (ns : List Node) (h : CompleteAll ns)
    (hlast : ns.any Node.isSolid = true → last = place.index + lastSolid ns) :
    nodes look rendered place last semicolon ns = pure (Piece.prints rendered (piecesOf semicolon ns)) := by
  cases ns with
  | nil => simp [nodes, piecesOf]
  | cons n ns =>
    obtain ⟨text, hb⟩ := Option.isSome_iff_exists.1 h.1.before
    -- The flag of the first node differs from the one in its pieces at most if it is a comment.
    have hflag : n.pieces (place.index != last || semicolon) = n.pieces (semicolon || ns.any Node.isSolid) := by
      cases hsolid : n.isSolid with
      | false => exact Node.pieces_of_not_solid hsolid _ _
      | true =>
        have hlast' := hlast (by simp [hsolid])
        rw [lastSolid_cons] at hlast'
        congr 1
        cases hany : ns.any Node.isSolid with
        | false => simp [hlast', hany]
        | true => simp [hlast', hany]
    have hnode := node_complete place (place.index != last || semicolon) n h.1
    have hmore := nodes_complete { place with index := place.index + 1 } last semicolon ns h.2 (by
      intro hany
      rw [hlast (by simp [hany]), lastSolid_cons, if_pos hany]
      show place.index + (lastSolid ns + 1) = place.index + 1 + lastSolid ns
      omega)
    simp only [nodes, before, hb, hnode, hmore, pure_bind, piecesOf, Piece.prints_cons, Piece.prints_append,
      Piece.print, Option.getD_some, hflag, List.append_assoc]

end

theorem raw_congr {rendered : List Rendered} (h : ∀ text stop, splice rendered text stop = text) :
    raw rendered = raw [] := by
  funext text stop
  cases stop with
  | none => rfl
  | some stop => simp only [raw, h, splice_of_nil]

omit [LawfulMonad m] in
mutual

theorem node_congr (h : raw rendered = raw []) (place : Place) (semicolon : Bool) (n : Node) :
    node look rendered place semicolon n = node look [] place semicolon n := by
  cases n with
  | leaf content raws source => simp only [node]
  | block header ns raws source =>
    have hown : ownSemicolon rendered raws header = ownSemicolon [] raws header := by
      cases header <;> simp only [ownSemicolon, h]
    have hchildren := fun place last semicolon => nodes_congr h place last semicolon ns
    simp only [node, h, hown, hchildren]

theorem nodes_congr (h : raw rendered = raw []) (place : Place) (last : Nat) (semicolon : Bool)
    (ns : List Node) :
    nodes look rendered place last semicolon ns = nodes look [] place last semicolon ns := by
  cases ns with
  | nil => simp only [nodes]
  | cons n ns =>
    have hnode := fun place semicolon => node_congr h place semicolon n
    have hmore := fun place => nodes_congr h place last semicolon ns
    simp only [nodes, h, hnode, hmore]

end

end Printer

theorem Piece.prints_nothing (ps : List Piece) : Piece.prints [] ps = Piece.texts ps :=
  prints_of_splice_eq fun t stop _ => splice_of_nil t stop

/-! ## Nodes on their own -/

/-- A complete node is printed on its own as among its siblings, when no solid one follows. -/
theorem Node.css_complete {n : Node} (h : n.Complete) : n.css = Piece.texts (n.pieces false) := by
  have hnode := fun look => Printer.node_complete (m := StateM Lookup.Cache) look [] Place.floating false n h
  simp only [css, printIn, hnode, Piece.prints_nothing]
  rfl

/-! ## Roots -/

theorem printIn_bind_pure {α : Type} (scope : List Node)
    (x : Lookup (StateM Lookup.Cache) → StateM Lookup.Cache α) (f : α → Text) :
    printIn scope (fun look => x look >>= fun a => pure (f a)) =
      f ((x (Lookup.cached (descendants scope))).run {}).1 := rfl

namespace Root

/-- The children of a complete root are printed without a question, but for a semicolon that no child
needs. -/
theorem body_complete {r : Root} (h : r.Complete) (rendered : List Rendered) (f : Text → Text) :
    printIn r.nodes (fun look => Printer.body look rendered r >>= fun t => pure (f t)) =
      f (Piece.prints rendered (piecesOf (r.semicolon.getD false) r.nodes)) := by
  rw [printIn_bind_pure]
  congr 1
  have hnodes := fun look semicolon => Printer.nodes_complete (m := StateM Lookup.Cache) look rendered ⟨.root, 0, 0⟩
    (lastSolid r.nodes) semicolon r.nodes h.1 fun _ => (Nat.zero_add _).symm
  cases hs : r.semicolon with
  | some semicolon =>
    simp only [Printer.body, hs, pure_bind, hnodes, Option.getD_some]
    rfl
  | none =>
    have hnil : r.nodes = [] := by
      by_cases hne : r.nodes = []
      · exact hne
      · simpa [hs] using h.2 hne
    simp only [Printer.body, hs, hnodes]
    rw [hnil]
    rfl

theorem print_complete {r : Root} (h : r.Complete) (rendered : List Rendered) :
    r.print rendered = r.codeBefore?.getD [] ++ Piece.prints rendered r.pieces ++ r.codeAfter?.getD [] := by
  have hbody := body_complete h rendered fun body =>
    r.codeBefore?.getD [] ++ body ++ Printer.raw rendered r.after (some r.rangeEnd) ++ r.codeAfter?.getD []
  unfold print Printer.root
  rw [hbody]
  simp only [pieces, Piece.prints_append, Piece.prints_cons, Piece.print, Piece.prints_nil, List.append_nil,
    List.append_assoc]

theorem css_complete {r : Root} (h : r.Complete) : r.css = Piece.texts r.pieces := by
  have hbody := body_complete h [] fun body => body ++ r.after
  simp only [css, hbody, Piece.prints_nothing, pieces, Piece.texts_append, Piece.texts_cons, Piece.text,
    Piece.texts_nil, List.append_nil]

/-- A root into which nothing is spliced that differs from what stands there prints its own style text. -/
theorem print_of_splice_eq {r : Root} {rendered : List Rendered}
    (h : ∀ text stop, splice rendered text stop = text) :
    r.print rendered = r.codeBefore?.getD [] ++ r.css ++ r.codeAfter?.getD [] := by
  have hraw := Printer.raw_congr h
  have hbody : ∀ look : Lookup (StateM Lookup.Cache),
      Printer.body look rendered r = Printer.body look [] r := by
    intro look
    simp only [Printer.body, Printer.nodes_congr look rendered hraw]
  unfold print css Printer.root
  simp only [hbody, hraw, Printer.raw_nil]
  rw [printIn_bind_pure r.nodes (fun look => Printer.body look [] r), printIn_bind_pure]
  simp only [List.append_assoc]

end Root

/-! ## Raws with their ends -/

/-- The raws of a node that style texts are spliced into, each with the offset in the source where it ends. -/
def Node.placedRaws (n : Node) : List (Text × Nat) :=
  [(n.raws.before, n.beforeEnd?), (n.raws.after, n.raws.ends.after),
    (n.raws.ownSemicolon, n.raws.ends.ownSemicolon)].filterMap fun (text, stop) => Prod.mk <$> text <*> stop

def Root.placedRaws (r : Root) : List (Text × Nat) :=
  (preorder 1 0 r.nodes).flatMap (·.node.placedRaws) ++ [(r.after, r.rangeEnd)]

/-- One raw reaches over the bytes from `start` up to `stop` of the source. -/
def Root.Covers (r : Root) (start stop : Nat) : Prop :=
  ∃ raw ∈ r.placedRaws, raw.2 - raw.1.size ≤ start ∧ stop ≤ raw.2

instance (r : Root) (start stop : Nat) : Decidable (r.Covers start stop) :=
  inferInstanceAs (Decidable (∃ raw ∈ r.placedRaws, _))

theorem Node.mem_placedRaws {n : Node} {raw : Text × Nat} (h : raw ∈ n.placedRaws) :
    (n.raws.before = some raw.1 ∧ n.beforeEnd? = some raw.2) ∨
    (n.raws.after = some raw.1 ∧ n.raws.ends.after = some raw.2) ∨
    (n.raws.ownSemicolon = some raw.1 ∧ n.raws.ends.ownSemicolon = some raw.2) := by
  have hpair : ∀ (text : Option Text) (stop : Option Nat), (Prod.mk <$> text <*> stop) = some raw →
      text = some raw.1 ∧ stop = some raw.2 := by
    intro text stop heq
    obtain ⟨t, o⟩ := raw
    cases text <;> cases stop <;> simp_all [Seq.seq]
  obtain ⟨⟨text, stop⟩, hmem, heq⟩ := List.mem_filterMap.1 h
  obtain ⟨rfl, rfl⟩ := hpair text stop heq
  simp only [List.mem_cons, Prod.mk.injEq, List.not_mem_nil, or_false] at hmem
  rcases hmem with ⟨h1, h2⟩ | ⟨h1, h2⟩ | ⟨h1, h2⟩
  · exact .inl ⟨h1.symm, h2.symm⟩
  · exact .inr (.inl ⟨h1.symm, h2.symm⟩)
  · exact .inr (.inr ⟨h1.symm, h2.symm⟩)

mutual

theorem Node.raw_mem_pieces {n : Node} {raw : Text × Nat} {depth index : Nat} {semicolon : Bool}
    (hc : n.Complete) (h : raw ∈ (n.preorder depth index).flatMap (·.node.placedRaws)) :
    Piece.raw raw.1 (some raw.2) ∈ Piece.raw (n.raws.before.getD []) n.beforeEnd? :: n.pieces semicolon := by
  cases n with
  | leaf content raws source =>
    rw [Node.preorder, List.flatMap_singleton] at h
    rcases Node.mem_placedRaws h with ⟨hb, hs⟩ | ⟨ha, -⟩ | ⟨ho, -⟩
    · rw [hb, hs]
      exact List.mem_cons_self
    · rw [show (Node.leaf content raws source).raws.after = none from hc.2.1] at ha
      cases ha
    · rw [show (Node.leaf content raws source).raws.ownSemicolon = none from hc.2.2.1] at ho
      cases ho
  | block header ns raws source =>
    rw [Node.preorder, List.flatMap_cons, List.mem_append] at h
    rcases h with h | h
    · rcases Node.mem_placedRaws h with ⟨hb, hs⟩ | ⟨ha, hs⟩ | ⟨ho, hs⟩
      · rw [hb, hs]
        exact List.mem_cons_self
      · have ha' : raws.after = some raw.1 := ha
        have hs' : raws.ends.after = some raw.2 := hs
        simp [Node.pieces, ha', hs']
      · have ho' : raws.ownSemicolon = some raw.1 := ho
        have hs' : raws.ends.ownSemicolon = some raw.2 := hs
        cases header with
        | rule selector => simp [Node.pieces, Header.ownPieces, ho', hs']
        | atRule name params =>
          rw [hc.2.2.2.2.1 ⟨name, params, rfl⟩] at ho'
          cases ho'
    · have hmore := raw_mem_piecesOf (raws.semicolon.getD false) hc.2.2.2.2.2 h
      refine List.mem_cons_of_mem _ (List.mem_cons_of_mem _ (List.mem_append_left _ hmore))

theorem raw_mem_piecesOf {ns : List Node} {raw : Text × Nat} {depth index : Nat} (semicolon : Bool)
    (hc : CompleteAll ns) (h : raw ∈ (preorder depth index ns).flatMap (·.node.placedRaws)) :
    Piece.raw raw.1 (some raw.2) ∈ piecesOf semicolon ns := by
  cases ns with
  | nil => simp [preorder] at h
  | cons n ns =>
    rw [preorder, List.flatMap_append, List.mem_append] at h
    rw [piecesOf, ← List.cons_append, List.mem_append]
    rcases h with h | h
    · exact .inl (Node.raw_mem_pieces hc.1 h)
    · exact .inr (raw_mem_piecesOf semicolon hc.2 h)

end

mutual

theorem Node.mem_placedRaws_of_piece {n : Node} {t : Text} {stop depth index : Nat} {semicolon : Bool}
    (hc : n.Complete)
    (h : Piece.raw t (some stop) ∈ Piece.raw (n.raws.before.getD []) n.beforeEnd? :: n.pieces semicolon) :
    (t, stop) ∈ (n.preorder depth index).flatMap (·.node.placedRaws) := by
  obtain ⟨before, hbefore⟩ := Option.isSome_iff_exists.1 hc.before
  cases n with
  | leaf content raws source =>
    have hb : raws.before = some before := hbefore
    rw [Node.preorder, List.flatMap_singleton]
    rcases List.mem_cons.1 h with h | h
    · obtain ⟨ht, hstop⟩ := Piece.raw.inj h
      simp_all [Node.placedRaws, Node.raws, Seq.seq]
    · rw [Node.pieces] at h
      split at h <;> simp at h
  | block header ns raws source =>
    have hb : raws.before = some before := hbefore
    obtain ⟨after, ha⟩ := Option.isSome_iff_exists.1 hc.2.2.1
    rw [Node.preorder, List.flatMap_cons, List.mem_append]
    rcases List.mem_cons.1 h with h | h
    · obtain ⟨ht, hstop⟩ := Piece.raw.inj h
      refine .inl ?_
      simp_all [Node.placedRaws, Node.raws, Seq.seq]
    · rw [Node.pieces, List.mem_cons, List.mem_append, List.mem_cons, List.mem_cons] at h
      rcases h with h | h | h | h | h
      · cases h
      · exact .inr (mem_placedRaws_of_piecesOf hc.2.2.2.2.2 h)
      · obtain ⟨ht, hstop⟩ := Piece.raw.inj h
        refine .inl ?_
        simp_all [Node.placedRaws, Node.raws, Seq.seq]
      · cases h
      · refine .inl ?_
        cases header with
        | rule selector =>
          cases ho : raws.ownSemicolon <;> simp_all [Header.ownPieces, Node.placedRaws, Node.raws, Seq.seq]
        | atRule name params => simp [Header.ownPieces] at h

theorem mem_placedRaws_of_piecesOf {ns : List Node} {t : Text} {stop depth index : Nat} {semicolon : Bool}
    (hc : CompleteAll ns) (h : Piece.raw t (some stop) ∈ piecesOf semicolon ns) :
    (t, stop) ∈ (preorder depth index ns).flatMap (·.node.placedRaws) := by
  cases ns with
  | nil => simp [piecesOf] at h
  | cons n ns =>
    rw [preorder, List.flatMap_append, List.mem_append]
    rw [piecesOf, ← List.cons_append, List.mem_append] at h
    rcases h with h | h
    · exact .inl (Node.mem_placedRaws_of_piece hc.1 h)
    · exact .inr (mem_placedRaws_of_piecesOf hc.2 h)

end

theorem Root.raw_mem_pieces_iff {r : Root} {t : Text} {stop : Nat} (hc : r.Complete) :
    Piece.raw t (some stop) ∈ r.pieces ↔ (t, stop) ∈ r.placedRaws := by
  unfold Root.pieces Root.placedRaws
  rw [List.mem_append, List.mem_append, List.mem_singleton, List.mem_singleton]
  refine or_congr ⟨mem_placedRaws_of_piecesOf hc.1, raw_mem_piecesOf _ hc.1⟩ ?_
  simp

/-! ## The nodes of a complete tree -/

mutual

theorem Node.Complete.preorder {n : Node} (h : n.Complete) (depth index : Nat) :
    ∀ x ∈ n.preorder depth index, x.node.Complete := by
  intro x hx
  cases n with
  | leaf content raws source =>
    rw [Node.preorder, List.mem_singleton] at hx
    rw [hx]
    exact h
  | block header ns raws source =>
    rw [Node.preorder, List.mem_cons] at hx
    cases hx with
    | inl hx =>
      rw [hx]
      exact h
    | inr hx => exact CompleteAll.preorder h.2.2.2.2.2 (depth + 1) 0 x hx

theorem CompleteAll.preorder {ns : List Node} (h : CompleteAll ns) (depth index : Nat) :
    ∀ x ∈ preorder depth index ns, x.node.Complete := by
  intro x hx
  cases ns with
  | nil => cases hx
  | cons n ns =>
    rw [TaggedStyles.preorder, List.mem_append] at hx
    cases hx with
    | inl hx => exact Node.Complete.preorder h.1 depth index x hx
    | inr hx => exact CompleteAll.preorder h.2 depth (index + 1) x hx

end

/-! ## What a node prints of itself -/

/-- All of a leaf, and of a block what stands in front of its children: nothing is spliced into it. -/
def Node.ownText : Node → Text
  | .leaf content raws _ => content.text raws
  | .block header _ raws _ => header.text raws ++ raws.between.getD [] ++ ['\x7b']

mutual

theorem Node.own_mem_pieces {n : Node} {e : Entry} {depth index : Nat} (semicolon : Bool)
    (h : e ∈ n.preorder depth index) : Piece.plain e.node.ownText ∈ n.pieces semicolon := by
  cases n with
  | leaf content raws source =>
    rw [Node.preorder, List.mem_singleton] at h
    rw [h, Node.pieces]
    exact List.mem_cons_self
  | block header ns raws source =>
    rw [Node.preorder, List.mem_cons] at h
    rw [Node.pieces]
    rcases h with h | h
    · rw [h]
      exact List.mem_cons_self
    · exact List.mem_cons_of_mem _ (List.mem_append_left _ (own_mem_piecesOf _ h))

theorem own_mem_piecesOf {ns : List Node} {e : Entry} {depth index : Nat} (semicolon : Bool)
    (h : e ∈ preorder depth index ns) : Piece.plain e.node.ownText ∈ piecesOf semicolon ns := by
  cases ns with
  | nil => simp [preorder] at h
  | cons n ns =>
    rw [preorder, List.mem_append] at h
    rw [piecesOf]
    refine List.mem_cons_of_mem _ (List.mem_append.2 ?_)
    rcases h with h | h
    · exact .inl (Node.own_mem_pieces _ h)
    · exact .inr (own_mem_piecesOf semicolon h)

end

end TaggedStyles
