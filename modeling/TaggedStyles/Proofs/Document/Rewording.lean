import TaggedStyles.Proofs.Document.RawEdit
import TaggedStyles.Proofs.Printer.Filled
import TaggedStyles.Proofs.Tree.Walk

/-! Edits of what a node says: its name, value, selector, parameters or text. Nothing that is inferred reads them
(`Lookup.fresh_congr`), so such an edit changes what the node prints of itself, and not a character in front of that or
behind it. -/
namespace TaggedStyles
set_option autoImplicit false

/-! ## Trees without words -/

def Leaf.wordless : Leaf → Leaf
  | .declaration .. => .declaration [] [] false
  | .atRule .. => .atRule [] []
  | .comment _ => .comment []

def Header.wordless : Header → Header
  | .rule _ => .rule []
  | .atRule .. => .atRule [] []

mutual

/-- The kind of a node and its formatting, and those of all nodes below it. -/
def Node.wordless : Node → Node
  | .leaf content raws source => .leaf content.wordless raws source
  | .block header ns raws source => .block header.wordless (wordlessAll ns) raws source

def wordlessAll : List Node → List Node
  | [] => []
  | n :: ns => n.wordless :: wordlessAll ns

end

def Entry.wordless (e : Entry) : Entry := { e with node := e.node.wordless }

theorem wordlessAll_eq_map (ns : List Node) : wordlessAll ns = ns.map Node.wordless := by
  induction ns with
  | nil => rfl
  | cons n ns ih => rw [wordlessAll, ih, List.map_cons]

mutual

theorem Node.preorder_wordless (depth index : Nat) (n : Node) :
    n.wordless.preorder depth index = (n.preorder depth index).map Entry.wordless := by
  cases n with
  | leaf content raws source => rfl
  | block header ns raws source =>
    rw [Node.wordless, Node.preorder, Node.preorder, List.map_cons, TaggedStyles.preorder_wordless (depth + 1) 0 ns]
    rfl

theorem preorder_wordless (depth index : Nat) (ns : List Node) :
    preorder depth index (wordlessAll ns) = (preorder depth index ns).map Entry.wordless := by
  cases ns with
  | nil => rfl
  | cons n ns =>
    rw [wordlessAll, preorder, preorder, List.map_append, Node.preorder_wordless depth index n,
      preorder_wordless depth (index + 1) ns]

end

theorem Separator.shownBy_wordless (s : Separator) (e : Entry) : s.shownBy e.wordless = s.shownBy e := by
  obtain ⟨n, depth, index⟩ := e
  cases n with
  | leaf content raws source => cases content <;> cases s <;> rfl
  | block header ns raws source => cases ns <;> cases header <;> cases s <;> rfl

theorem Node.isDeclaration_wordless (n : Node) : n.wordless.isDeclaration = n.isDeclaration := by
  cases n with
  | leaf content raws source => cases content <;> rfl
  | block header ns raws source => rfl

theorem inferSemicolon_wordless (entries : List Entry) :
    inferSemicolon (entries.map Entry.wordless) = inferSemicolon entries := by
  unfold inferSemicolon
  rw [List.findSome?_map]
  congr 2
  funext e
  obtain ⟨n, depth, index⟩ := e
  cases n with
  | leaf content raws source => rfl
  | block header ns raws source =>
    have hlast : (wordlessAll ns).getLast?.any Node.isDeclaration = ns.getLast?.any Node.isDeclaration := by
      rw [wordlessAll_eq_map, List.getLast?_map]
      cases ns.getLast? with
      | none => rfl
      | some n => exact n.isDeclaration_wordless
    show (if (wordlessAll ns).getLast?.any Node.isDeclaration then raws.semicolon else none) =
      if ns.getLast?.any Node.isDeclaration then raws.semicolon else none
    rw [hlast]

/-- What is inferred in a tree depends on the kinds of its nodes and their formatting only. -/
theorem Lookup.fresh_congr {ns ns' : List Node} (h : wordlessAll ns' = wordlessAll ns) :
    Lookup.fresh (descendants ns') = Lookup.fresh (descendants ns) := by
  have hentries : (descendants ns').map Entry.wordless = (descendants ns).map Entry.wordless := by
    rw [descendants_eq_preorder, descendants_eq_preorder, ← preorder_wordless, ← preorder_wordless, h]
  have hshown : ∀ entries s, Separator.shown (entries.map Entry.wordless) s = Separator.shown entries s := by
    intro entries s
    rw [Separator.shown, List.findSome?_map]
    exact congrArg (entries.findSome? ·) (funext s.shownBy_wordless)
  have hinfer : Separator.infer (descendants ns') = Separator.infer (descendants ns) := by
    funext s
    unfold Separator.infer
    rw [← funext (hshown (descendants ns')), ← funext (hshown (descendants ns)), hentries]
  have hsemicolon : inferSemicolon (descendants ns') = inferSemicolon (descendants ns) := by
    rw [← inferSemicolon_wordless, ← inferSemicolon_wordless (descendants ns), hentries]
  rw [fresh, fresh, hinfer, hsemicolon]

theorem isEmpty_wordlessAll (ns : List Node) : (wordlessAll ns).isEmpty = ns.isEmpty := by
  cases ns <;> rfl

theorem isEmpty_of_wordlessAll {ns ns' : List Node} (h : wordlessAll ns' = wordlessAll ns) :
    ns'.isEmpty = ns.isEmpty := by
  rw [← isEmpty_wordlessAll, h, isEmpty_wordlessAll]

theorem wordlessAll_set {ns : List Node} {n n' : Node} {i : Nat} (hi : ns[i]? = some n)
    (h : n'.wordless = n.wordless) : wordlessAll (ns.set i n') = wordlessAll ns := by
  rw [wordlessAll_eq_map, wordlessAll_eq_map, List.map_set, h]
  exact set_of_getElem? (by rw [List.getElem?_map, hi, Option.map_some])

/-! ## Rewording one node -/

namespace Node

/-- With other words in a node, and the same formatting and children. -/
inductive Rewords : Node → Node → Prop
  | leaf {content content' : Leaf} (raws : Raws) (source : Option Span) : content'.wordless = content.wordless →
      Rewords (.leaf content raws source) (.leaf content' raws source)
  | block {header header' : Header} (ns : List Node) (raws : Raws) (source : Option Span) :
      header'.wordless = header.wordless → Rewords (.block header ns raws source) (.block header' ns raws source)

theorem Rewords.refl (n : Node) : n.Rewords n := by
  cases n with
  | leaf content raws source => exact .leaf raws source rfl
  | block header ns raws source => exact .block ns raws source rfl

theorem rewords_of_apply {change : FieldChange} {n n' : Node} (h : change.apply n = .ok n') : n.Rewords n' := by
  cases n with
  | leaf content raws source =>
    obtain ⟨content', hcontent, h⟩ := bind_eq_ok.1 h
    obtain rfl := Except.ok.inj h
    refine .leaf raws source ?_
    cases change <;> cases content <;> cases hcontent <;> rfl
  | block header ns raws source =>
    obtain ⟨header', hheader, h⟩ := bind_eq_ok.1 h
    obtain rfl := Except.ok.inj h
    refine .block ns raws source ?_
    cases change <;> cases header <;> cases hheader <;> rfl

theorem Rewords.wordless {n n' : Node} (h : n.Rewords n') : n'.wordless = n.wordless := by
  cases h with
  | leaf raws source hwords => rw [Node.wordless, Node.wordless, hwords]
  | block ns raws source hwords => rw [Node.wordless, Node.wordless, hwords]

theorem isSolid_wordless (n : Node) : n.wordless.isSolid = n.isSolid := by
  cases n with
  | leaf content raws source => cases content <;> rfl
  | block header ns raws source => rfl

/-- What a node prints of itself: all of a leaf but its semicolon, and of a block what stands in front of its children.
It is read off the node with what is inferred for it, and no other node. -/
def printedText (infer : Separator → Text) : Node → Text
  | leaf content raws _ => content.text (content.filledRaws infer raws)
  | block header _ raws _ => header.text raws ++ raws.between.getD (infer .beforeOpen) ++ ['\x7b']

/-- Of the pieces of a node only its own text changes with its words, and the raw before it does not. -/
theorem Rewords.pieces {n n' : Node} (h : n.Rewords n') (look : Lookup Id) (place : Place) (own : Bool) :
    (n'.filled look place).raws.before = (n.filled look place).raws.before ∧
    (n'.filled look place).beforeEnd? = (n.filled look place).beforeEnd? ∧
    (n'.filled look place).pieces own =
      .plain (n'.printedText look.separator) :: ((n.filled look place).pieces own).tail := by
  cases h with
  | leaf raws source hwords =>
    rename_i content content'
    cases content <;> cases content' <;> cases hwords <;> exact ⟨rfl, rfl, rfl⟩
  | block ns raws source hwords =>
    rename_i header header'
    cases header <;> cases header' <;> cases hwords <;> exact ⟨rfl, rfl, rfl⟩

/-- The pieces of the children of a filled block stand between those of all else, as long as it has some or has none. -/
theorem exists_pieces_below {header : Header} {ms ns : List Node} {raws : Raws} {source : Option Span} {i : Nat}
    (hm : ns[i]? = some (.block header ms raws source)) (look : Lookup Id) (place : Place) (semicolon : Bool) :
    ∃ ps qs inner, ∀ ms' : List Node, ms'.isEmpty = ms.isEmpty →
      piecesOf semicolon (filledAll look place (ns.set i (.block header ms' raws source))) =
        ps ++ piecesOf inner (filledAll look ⟨.block, place.depth + 1, 0⟩ ms') ++ qs := by
  have hfilled := (filledAll_getElem? look place ns i).trans (congrArg _ hm)
  obtain ⟨ps, qs, hset⟩ := exists_piecesOf_children semicolon hfilled
  refine ⟨ps, qs, ((block header ms raws source).filledRaws look ⟨place.parent, place.depth, place.index + i⟩).semicolon.getD
    false, fun ms' hempty => ?_⟩
  rw [← hset, filledAll_set, filled, filledRaws, filledRaws, hempty]
  rfl

/-- By induction over the path: the own text of the node reached is one piece of the tree, and a rewording changes
that piece only. -/
theorem exists_pieces_rewords {n : Node} {ns : List Node} {places : List Nat} (hn : at? places ns = some n)
    (look : Lookup Id) (place : Place) (semicolon : Bool) :
    ∃ ps qs, ∀ n', n.Rewords n' → ∃ ns', modifyAt (fun _ => .ok n') places ns = .ok ns' ∧
      wordlessAll ns' = wordlessAll ns ∧
      piecesOf semicolon (filledAll look place ns') = ps ++ .plain (n'.printedText look.separator) :: qs := by
  induction places generalizing ns place semicolon with
  | nil => cases hn
  | cons i places ih =>
    cases places with
    | nil =>
      have hi : ns[i]? = some n := hn
      have hfilled := (filledAll_getElem? look place ns i).trans (congrArg _ hi)
      obtain ⟨ps, qs, own, hset⟩ := exists_piecesOf_set semicolon hfilled
      generalize hat : ({ place with index := place.index + i } : Place) = here at hset
      refine ⟨ps ++ [.raw ((n.filled look here).raws.before.getD []) (n.filled look here).beforeEnd?],
        ((n.filled look here).pieces own).tail ++ qs, fun n' h => ⟨ns.set i n', ?_, ?_, ?_⟩⟩
      · simp only [modifyAt, hi]
        rfl
      · exact wordlessAll_set hi h.wordless
      · have hsolid : (n'.filled look here).isSolid = (n.filled look here).isSolid := by
          rw [filled_isSolid, filled_isSolid, ← isSolid_wordless, h.wordless, isSolid_wordless]
        obtain ⟨hbefore, hstop, hpieces⟩ := h.pieces look here own
        rw [filledAll_set, hat, hset _ hsolid, hbefore, hstop, hpieces]
        simp only [List.append_assoc, List.cons_append, List.nil_append]
    | cons j places =>
      obtain ⟨children, hchildren, hn⟩ := Option.bind_eq_some_iff.1 hn
      obtain ⟨m, hm, hchildren⟩ := Option.bind_eq_some_iff.1 hchildren
      cases m with
      | leaf content raws source => cases hchildren
      | block header ms raws source =>
        obtain rfl := Option.some.inj hchildren
        obtain ⟨ps, qs, inner, hbelow⟩ := exists_pieces_below hm look place semicolon
        obtain ⟨ps', qs', hnew⟩ := ih hn ⟨.block, place.depth + 1, 0⟩ inner
        refine ⟨ps ++ ps', qs' ++ qs, fun n' h => ?_⟩
        obtain ⟨ms', hmodify, hwords, hpieces⟩ := hnew n' h
        refine ⟨ns.set i (.block header ms' raws source), ?_, ?_, ?_⟩
        · simp only [modifyAt, hm, hmodify]
          rfl
        · exact wordlessAll_set hm (by rw [wordless, wordless, hwords])
        · rw [hbelow ms' (isEmpty_of_wordlessAll hwords), hpieces]
          simp only [List.append_assoc, List.cons_append]

theorem modifyAt_self {n : Node} {ns : List Node} {places : List Nat} (hn : at? places ns = some n) :
    modifyAt (fun _ => .ok n) places ns = .ok ns := by
  induction places generalizing ns with
  | nil => cases hn
  | cons i places ih =>
    cases places with
    | nil =>
      have hi : ns[i]? = some n := hn
      simp only [modifyAt, hi]
      exact congrArg Except.ok (set_of_getElem? hi)
    | cons j places =>
      obtain ⟨children, hchildren, hn⟩ := Option.bind_eq_some_iff.1 hn
      obtain ⟨m, hm, hchildren⟩ := Option.bind_eq_some_iff.1 hchildren
      cases m with
      | leaf content raws source => cases hchildren
      | block header ms raws source =>
        obtain rfl := Option.some.inj hchildren
        simp only [modifyAt, hm, ih hn]
        exact congrArg Except.ok (set_of_getElem? hm)

end Node

/-- Whatever tree a root holds, each of its nodes prints a text of its own, which is read off the node with the
separators that are inferred for the tree, between a front and a back that stay as they are when the words of the node
change. -/
theorem Root.print_of_rewording {r : Root} {n : Node} {places : List Nat} (hn : Node.at? places r.nodes = some n) :
    let infer := Separator.infer (descendants r.nodes)
    ∃ ps qs : List Piece, r.css = Piece.texts ps ++ n.printedText infer ++ Piece.texts qs ∧
      ∀ n', n.Rewords n' → ∃ ns', Node.modifyAt (fun _ => .ok n') places r.nodes = .ok ns' ∧
        Separator.infer (descendants ns') = infer ∧
        ({ r with nodes := ns' } : Root).css = Piece.texts ps ++ n'.printedText infer ++ Piece.texts qs ∧
        ∀ rendered, ({ r with nodes := ns' } : Root).print rendered = r.codeBefore?.getD [] ++
          (Piece.prints rendered ps ++ n'.printedText infer ++ Piece.prints rendered qs) ++ r.codeAfter?.getD [] := by
  intro infer
  obtain ⟨ps, qs, hpieces⟩ := Node.exists_pieces_rewords hn (Lookup.fresh (descendants r.nodes)) ⟨.root, 0, 0⟩
    (r.filled.semicolon.getD false)
  have hall : ∀ n', n.Rewords n' → ∃ ns', Node.modifyAt (fun _ => .ok n') places r.nodes = .ok ns' ∧
      Separator.infer (descendants ns') = infer ∧
      ({ r with nodes := ns' } : Root).filled.pieces =
        ps ++ .plain (n'.printedText infer) :: (qs ++ [.raw r.after (some r.rangeEnd)]) := by
    intro n' h
    obtain ⟨ns', hmodify, hwords, hnew⟩ := hpieces n' h
    have hlook := Lookup.fresh_congr hwords
    refine ⟨ns', hmodify, congrArg Lookup.separator hlook, ?_⟩
    have hempty := isEmpty_of_wordlessAll hwords
    simp only [Root.pieces, filled, hlook, hempty] at hnew ⊢
    rw [hnew]
    simp only [List.append_assoc, List.cons_append]
    rfl
  refine ⟨ps, qs ++ [.raw r.after (some r.rangeEnd)], ?_, fun n' h => ?_⟩
  · obtain ⟨ns', hmodify, -, hnew⟩ := hall n (.refl n)
    obtain rfl := Except.ok.inj ((Node.modifyAt_self hn).symm.trans hmodify)
    rw [css_filled, hnew, Piece.texts_append, Piece.texts_cons, List.append_assoc]
    rfl
  · obtain ⟨ns', hmodify, hinfer, hnew⟩ := hall n' h
    refine ⟨ns', hmodify, hinfer, ?_, fun rendered => ?_⟩
    · rw [css_filled, hnew, Piece.texts_append, Piece.texts_cons, List.append_assoc]
      rfl
    · rw [print_filled, hnew, Piece.prints_append, Piece.prints_cons, List.append_assoc (Piece.prints rendered ps)]
      rfl

/-- A declaration without raws behind one with raws, in a rule without raws. -/
def bareSibling : List Node :=
  [.block (.rule "a".toList)
    [.leaf (.declaration "b".toList "c".toList false) { before := some "\n\t".toList, between := some " :".toList } none,
      .leaf (.declaration "d".toList "e".toList false) {} none] {} none]

/-- Its own text has the separator of its sibling, whatever else it says. -/
theorem Root.print_of_rewording_bare :
    Node.at? [0, 1] bareSibling = some (.leaf (.declaration "d".toList "e".toList false) {} none) ∧
    ∃ ps qs ns', ({ nodes := bareSibling } : Root).css = Piece.texts ps ++ "d :e".toList ++ Piece.texts qs ∧
      Node.modifyAt (fun _ => .ok (.leaf (.declaration "f".toList "g".toList true) {} none)) [0, 1] bareSibling =
        .ok ns' ∧
      ({ nodes := ns' } : Root).css = Piece.texts ps ++ "f :g !important".toList ++ Piece.texts qs := by
  obtain ⟨ps, qs, hold, hnew⟩ := @Root.print_of_rewording { nodes := bareSibling }
    (.leaf (.declaration "d".toList "e".toList false) {} none) [0, 1] rfl
  obtain ⟨ns', hmodify, -, hcss, -⟩ := hnew (.leaf (.declaration "f".toList "g".toList true) {} none) (.leaf {} none rfl)
  exact ⟨rfl, ps, qs, ns', hold, hmodify, hcss⟩

end TaggedStyles
