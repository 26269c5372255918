import TaggedStyles.Proofs.Document.Rewording
import TaggedStyles.Proofs.Text.Place
import TaggedStyles.Proofs.Tree.Descendants

/-! Declarations without raws at the end of a root or a block. Such a node shows nothing to others, so what is inferred for
it was so before it was there, and everything else of a parsed tree is printed as it stands. The line break in front of it
is that of the first declaration of the tree, and its indentation that of the first node two levels down, once for each
block around it. That is what its siblings have if and only if these agree with them. -/
namespace TaggedStyles
set_option autoImplicit false

/-! ## Line breaks -/

namespace Text
variable {c : Char} {a b : Text}

theorem afterLast_append_cons (h : c ∉ b) : afterLast c (a ++ c :: b) = b := by
  have hnone : afterLast c [c] = [] := by simp [afterLast]
  rw [List.append_cons, afterLast_append_of_notMem h, afterLast_append_of_mem List.mem_cons_self, hnone]
  rfl

theorem exists_last {t : Text} (h : c ∈ t) : ∃ a b, t = a ++ c :: b ∧ c ∉ b := by
  obtain ⟨a, b, hsplit, ha⟩ := List.eq_append_cons_of_mem (List.mem_reverse.2 h)
  refine ⟨b.reverse, a.reverse, ?_, fun hmem => ha (List.mem_reverse.1 hmem)⟩
  rw [← List.reverse_reverse t, hsplit]
  simp

theorem throughLast_append (h : c ∉ b) : throughLast c (a ++ c :: b) = a ++ [c] := by
  have hlen : (a ++ c :: b).length - b.length = a.length + 1 := by
    rw [List.length_append, List.length_cons]
    omega
  rw [throughLast, if_pos (List.mem_append_right a List.mem_cons_self), afterLast_append_cons h, hlen, List.append_cons]
  exact List.take_left' (by rw [List.length_append, List.length_singleton])

end Text

namespace Separator

theorem exists_of_break_mem_lines {raw : Text} (h : '\n' ∈ lines raw) : ∃ x, lines raw = x ++ ['\n'] := by
  by_cases hraw : '\n' ∈ raw
  · obtain ⟨front, behind, rfl, hnone⟩ := Text.exists_last hraw
    refine ⟨Text.blanks front, ?_⟩
    rw [lines, Text.throughLast_append hnone, Text.blanks, List.filter_append]
    rfl
  · have hall : raw.throughLast '\n' = raw := if_neg hraw
    rw [lines, hall] at h
    exact absurd (List.mem_of_mem_filter h) hraw

/-- A raw shows one line break and nothing else if all in front of its last one is not blank. -/
theorem lines_eq_break_iff {raw : Text} : lines raw = ['\n'] ↔
    ∃ front behind, raw = front ++ '\n' :: behind ∧ '\n' ∉ behind ∧ ∀ c ∈ front, isBlank c = false := by
  constructor
  · intro h
    have hmem : '\n' ∈ raw := by
      by_contra hnone
      have hall : raw.throughLast '\n' = raw := if_neg hnone
      rw [lines, hall] at h
      exact hnone (List.mem_of_mem_filter (h ▸ List.mem_singleton_self '\n'))
    obtain ⟨front, behind, rfl, hbehind⟩ := Text.exists_last hmem
    refine ⟨front, behind, rfl, hbehind, fun c hc => ?_⟩
    rw [lines, Text.throughLast_append hbehind, Text.blanks, List.filter_append] at h
    have hnil : front.filter isBlank = [] := List.append_cancel_right h
    simpa using List.filter_eq_nil_iff.1 hnil c hc
  · rintro ⟨front, behind, rfl, hbehind, hfront⟩
    have hnil : front.filter isBlank = [] := List.filter_eq_nil_iff.2 fun c hc => by simp [hfront c hc]
    rw [lines, Text.throughLast_append hbehind, Text.blanks, List.filter_append, hnil]
    rfl

theorem exists_of_break_mem_infer {entries : List Entry} (h : '\n' ∈ infer entries .beforeDeclaration) :
    ∃ x, infer entries .beforeDeclaration = x ++ ['\n'] := by
  unfold infer at h ⊢
  cases hfind : (chain .beforeDeclaration).findSome? (shown entries) with
  | none => exact ⟨[], rfl⟩
  | some text =>
    rw [hfind] at h
    obtain ⟨s, hs, hshown⟩ := List.exists_of_findSome?_eq_some hfind
    obtain ⟨e, -, hshows⟩ := List.exists_of_findSome?_eq_some hshown
    have hraw : ∃ raw, lines raw = text := by
      simp only [chain, List.mem_cons, List.not_mem_nil, or_false] at hs
      rcases hs with rfl | rfl
      · simp only [shownBy] at hshows
        split at hshows
        · obtain ⟨raw, -, hraw⟩ := Option.map_eq_some_iff.1 hshows
          exact ⟨raw, hraw⟩
        · cases hshows
      · simp only [shownBy] at hshows
        split at hshows
        · cases hshows
        · obtain ⟨raw, -, hraw⟩ := Option.map_eq_some_iff.1 hshows
          exact ⟨raw, hraw⟩
    obtain ⟨raw, rfl⟩ := hraw
    exact exists_of_break_mem_lines h

/-- The first node of a kind shows the separator, if the others of the tree do not. -/
theorem infer_of_find? {entries : List Entry} {s : Separator} {more : List Separator} {p : Entry → Bool} {x : Entry}
    {text : Text} (hx : entries.find? p = some x) (hchain : s.chain = s :: more)
    (hnone : ∀ e, p e = false → s.shownBy e = none) (hshows : s.shownBy x = some text) : infer entries s = text := by
  obtain ⟨-, front, back, rfl, hfront⟩ := List.find?_eq_some_iff_append.1 hx
  have hall : front.findSome? s.shownBy = none :=
    List.findSome?_eq_none_iff.2 fun e he => hnone e (by simpa using hfront e he)
  have hshown : shown (front ++ x :: back) s = some text := by
    rw [shown, List.findSome?_append, hall, Option.none_or, List.findSome?_cons, hshows]
  rw [infer, hchain, List.findSome?_cons, hshown]
  rfl

/-- The line break that is inferred is that of the first declaration. -/
theorem infer_beforeDeclaration {entries : List Entry} {x : Entry} {raw : Text}
    (hx : entries.find? (·.node.isDeclaration) = some x) (hraw : x.node.raws.before = some raw) :
    infer entries .beforeDeclaration = lines raw := by
  have hdecl : x.node.isDeclaration = true := List.find?_some (p := fun x : Entry => x.node.isDeclaration) hx
  refine infer_of_find? hx rfl (fun e he => ?_) ?_
  · rw [shownBy, if_neg (by simpa using he)]
  · rw [shownBy, if_pos hdecl, hraw, Option.map_some]

/-- The indent that the first node two levels down shows, if there is one. -/
def indentTwoDown (entries : List Entry) : Text :=
  ((entries.find? (·.depth = 2)).bind (·.node.raws.before)).elim (default .indent) fun raw =>
    (raw.afterLast '\n').blanks

theorem infer_indent {entries : List Entry} (hall : ∀ x ∈ entries, x.node.raws.before.isSome = true) :
    infer entries .indent = indentTwoDown entries := by
  unfold indentTwoDown
  cases hy : entries.find? (·.depth = 2) with
  | none =>
    have hnone : shown entries .indent = none := by
      refine List.findSome?_eq_none_iff.2 fun x hx => ?_
      have hdepth := List.find?_eq_none.1 hy x hx
      rw [shownBy, if_neg (by simpa using hdepth)]
    have hchain : chain .indent = [.indent] := rfl
    rw [infer, hchain, List.findSome?_singleton, hnone]
    rfl
  | some y =>
    obtain ⟨raw, hraw⟩ := Option.isSome_iff_exists.1 (hall y (List.mem_of_find?_eq_some hy))
    have hdepth : y.depth = 2 := of_decide_eq_true (List.find?_some (p := fun x : Entry => decide (x.depth = 2)) hy)
    rw [Option.bind_some, hraw]
    refine infer_of_find? hy rfl (fun e he => ?_) ?_
    · rw [shownBy, if_neg (of_decide_eq_false he)]
    · rw [shownBy, if_pos hdepth, hraw]
      rfl

theorem shownBy_bare {e : Entry} (h : e.node.raws = {}) (s : Separator) : s.shownBy e = none := by
  unfold shownBy
  rw [h]
  cases s <;> simp

end Separator

namespace Printer
variable {entries : List Entry} {depth : Nat}

theorem run_indented (entries : List Entry) (s : Separator) (depth : Nat) :
    Id.run (indented (Lookup.fresh entries) s depth) =
      if '\n' ∈ Separator.infer entries s then
        Separator.infer entries s ++ (Separator.infer entries .indent).times depth
      else Separator.infer entries s := by
  split
  · exact if_pos ‹_›
  · exact if_neg ‹_›

/-- A line break and an indentation come out as such if and only if the first is all of the one inferred and the second
all of the other. -/
theorem indented_eq_iff {indent : Text} (hindent : '\n' ∉ indent) :
    Id.run (indented (Lookup.fresh entries) .beforeDeclaration depth) = '\n' :: indent ↔
      Separator.infer entries .beforeDeclaration = ['\n'] ∧
        (Separator.infer entries .indent).times depth = indent := by
  rw [run_indented]
  split
  · rename_i hmem
    obtain ⟨x, hx⟩ := Separator.exists_of_break_mem_infer hmem
    rw [hx]
    cases x with
    | nil => simp
    | cons c x =>
      refine ⟨fun h => ?_, fun h => by simp at h⟩
      have htail : x ++ ['\n'] ++ (Separator.infer entries .indent).times depth = indent := (List.cons.inj h).2
      exact absurd (htail ▸ by simp) hindent
  · rename_i hmem
    refine ⟨fun h => ?_, fun h => ?_⟩
    · exact absurd (h ▸ List.mem_cons_self) hmem
    · exact absurd (h.1 ▸ List.mem_cons_self) hmem

/-- One level down it is what stands before the first declaration, if that is also the first node two levels down or has
the same raw. -/
theorem indented_of_first {indent : Text} {x y : Entry} (hall : ∀ x ∈ entries, x.node.raws.before.isSome = true)
    (hindent : '\n' ∉ indent) (hblank : ∀ c ∈ indent, isBlank c = true)
    (hx : entries.find? (·.node.isDeclaration) = some x) (hxraw : x.node.raws.before = some ('\n' :: indent))
    (hy : entries.find? (·.depth = 2) = some y) (hyraw : y.node.raws.before = some ('\n' :: indent)) :
    Id.run (indented (Lookup.fresh entries) .beforeDeclaration 1) = '\n' :: indent := by
  have hbreak : Separator.infer entries .beforeDeclaration = ['\n'] := by
    rw [Separator.infer_beforeDeclaration hx hxraw, Separator.lines_eq_break_iff]
    exact ⟨[], indent, rfl, hindent, by simp⟩
  have hunit : Separator.indentTwoDown entries = indent := by
    have hlast : Text.afterLast '\n' ('\n' :: indent) = indent := Text.afterLast_append_cons (a := []) hindent
    rw [Separator.indentTwoDown, hy, Option.bind_some, hyraw, Option.elim_some, hlast]
    exact List.filter_eq_self.2 hblank
  refine (indented_eq_iff hindent).2 ⟨hbreak, ?_⟩
  rw [Separator.infer_indent hall, hunit]
  exact List.append_nil indent

theorem run_before_bare {parent : Parent} {index : Nat} (hparent : parent ≠ .nothing) (hindex : index ≠ 0)
    (prop value : Text) (important : Bool) (source : Option Span) :
    Id.run (before (Lookup.fresh entries) ⟨parent, depth, index⟩ (.leaf (.declaration prop value important) {} source)) =
      Id.run (indented (Lookup.fresh entries) .beforeDeclaration depth) := by
  have hplace : ((⟨parent, depth, index⟩ : Place).isFloating ||
      (decide (parent = .root) && decide (index = 0))) = false := by
    simp [Place.isFloating, hparent, hindex]
  unfold before
  simp only [Node.raws, hplace, Bool.false_eq_true, if_false]

end Printer

/-! ## What is inferred with a node more -/

theorem preorder_append (depth index : Nat) (ns ms : List Node) :
    preorder depth index (ns ++ ms) = preorder depth index ns ++ preorder depth (index + ns.length) ms := by
  induction ns generalizing index with
  | nil => rfl
  | cons n ns ih =>
    rw [List.cons_append, preorder, preorder, ih, List.length_cons, List.append_assoc]
    simp only [Nat.add_assoc, Nat.add_comm 1]

/-- Every separator is shown in the other siblings as in these, wherever they stand. -/
def ShowAlike (ns ns' : List Node) : Prop :=
  ∀ depth index s, Separator.shown (preorder depth index ns') s = Separator.shown (preorder depth index ns) s

namespace ShowAlike
variable {ns ns' ms ms' : List Node}

theorem infer (h : ShowAlike ns ns') : Separator.infer (descendants ns') = Separator.infer (descendants ns) := by
  funext s
  rw [descendants_eq_preorder, descendants_eq_preorder, Separator.infer, Separator.infer]
  congr 2
  exact funext (h 1 0)

theorem concat {n : Node} (h : ∀ depth index s, Separator.shown (n.preorder depth index) s = none) (ns : List Node) :
    ShowAlike ns (ns ++ [n]) := by
  intro depth index s
  rw [preorder_append, Separator.shown, List.findSome?_append, preorder, preorder, List.append_nil]
  have hnone := h depth (index + ns.length) s
  rw [Separator.shown] at hnone
  rw [hnone, Option.or_none]
  rfl

theorem set {header : Header} {raws : Raws} {source : Option Span} {i : Nat}
    (hm : ns[i]? = some (.block header ms raws source)) (hempty : ms'.isEmpty = ms.isEmpty) (h : ShowAlike ms ms') :
    ShowAlike ns (ns.set i (.block header ms' raws source)) := by
  intro depth index s
  have hown : ∀ depth index, s.shownBy ⟨.block header ms' raws source, depth, index⟩ =
      s.shownBy ⟨.block header ms raws source, depth, index⟩ := by
    intro depth index
    cases s <;> cases header <;> simp only [Separator.shownBy, Node.nodes?, Node.raws, Node.isDeclaration,
      Node.isComment, Option.any_some, hempty] <;> rfl
  have hblock : ∀ depth index, Separator.shown ((Node.block header ms' raws source).preorder depth index) s =
      Separator.shown ((Node.block header ms raws source).preorder depth index) s := by
    intro depth index
    have hchildren := h (depth + 1) 0 s
    unfold Separator.shown at hchildren ⊢
    rw [Node.preorder, Node.preorder, List.findSome?_cons, List.findSome?_cons, hown, hchildren]
  obtain ⟨hi, hget⟩ := List.getElem?_eq_some_iff.1 hm
  have hold : ns = ns.take i ++ .block header ms raws source :: ns.drop (i + 1) := by
    rw [← hget, ← List.drop_eq_getElem_cons hi, List.take_append_drop]
  have hnew := List.set_eq_take_append_cons_drop (l := ns) (i := i) (a := .block header ms' raws source)
  rw [hnew, if_pos hi]
  conv_rhs => rw [hold]
  rw [preorder_append, preorder_append, preorder, preorder]
  have hone := hblock depth (index + (ns.take i).length)
  unfold Separator.shown at hone ⊢
  rw [List.findSome?_append, List.findSome?_append, List.findSome?_append, List.findSome?_append, hone]

end ShowAlike

/-! ## Printing with a node more -/

namespace Node
variable {header : Header} {cs ms ns : List Node} {raws : Raws} {source : Option Span} {places : List Nat}

/-- Other children of a complete block are filled in below the raws it has, as long as it has some or has none. -/
theorem Complete.filled_children {ms' : List Node} (h : (block header ms raws source).Complete)
    (hempty : ms'.isEmpty = ms.isEmpty) (look : Lookup Id) (place : Place) :
    (block header ms' raws source).filled look place =
      .block header (filledAll look ⟨.block, place.depth + 1, 0⟩ ms') raws source := by
  have hraws : (block header ms raws source).filledRaws look place = raws := by
    rw [← filled_raws, h.filled look place]
    rfl
  have hraws' : (block header ms' raws source).filledRaws look place = raws := by
    conv_rhs => rw [← hraws]
    rw [filledRaws, filledRaws, hempty]
    rfl
  rw [Node.filled, hraws']

theorem complete_of_at? {n : Node} (hc : CompleteAll ns) (hn : at? places ns = some n) : n.Complete := by
  induction places generalizing ns with
  | nil => cases hn
  | cons i places ih =>
    cases places with
    | nil => exact completeAll_iff.1 hc n (List.mem_of_getElem? hn)
    | cons j places =>
      obtain ⟨children, hchildren, hn⟩ := Option.bind_eq_some_iff.1 hn
      obtain ⟨m, hm, hchildren⟩ := Option.bind_eq_some_iff.1 hchildren
      have hblock := completeAll_iff.1 hc m (List.mem_of_getElem? hm)
      cases m with
      | leaf content raws source => cases hchildren
      | block header ms raws source =>
        obtain rfl := Option.some.inj hchildren
        exact ih hblock.2.2.2.2.2 hn

theorem isEmpty_set (ns : List Node) (i : Nat) (n : Node) : (ns.set i n).isEmpty = ns.isEmpty := by
  cases ns <;> cases i <;> rfl

/-- By induction over the path: in a complete tree the pieces of the children of a block stand between those of all
else. With children that show alike, and are some or none as before, all else stays as it is. -/
theorem exists_pieces_children (hc : CompleteAll ns) (hn : at? places ns = some (.block header cs raws source))
    (place : Place) (semicolon : Bool) :
    ∃ ps qs inner, piecesOf semicolon ns = ps ++ piecesOf inner cs ++ qs ∧
      ∀ (cs' : List Node) (f : Node → Except EditError Node), cs'.isEmpty = cs.isEmpty → ShowAlike cs cs' →
        f (.block header cs raws source) = .ok (.block header cs' raws source) →
        ∃ ns', modifyAt f places ns = .ok ns' ∧ ns'.isEmpty = ns.isEmpty ∧ ShowAlike ns ns' ∧
          ∀ look, piecesOf semicolon (filledAll look place ns') =
            ps ++ piecesOf inner (filledAll look ⟨.block, place.depth + places.length, 0⟩ cs') ++ qs := by
  induction places generalizing ns place semicolon with
  | nil => cases hn
  | cons i places ih =>
    cases places with
    | nil =>
      have hi : ns[i]? = some (.block header cs raws source) := hn
      have hblock := completeAll_iff.1 hc _ (List.mem_of_getElem? hi)
      obtain ⟨ps, qs, hset⟩ := exists_piecesOf_children semicolon hi
      have hwhole := hset cs
      rw [set_of_getElem? hi] at hwhole
      refine ⟨ps, qs, _, hwhole, fun cs' f hempty halike hf => ?_⟩
      refine ⟨ns.set i (.block header cs' raws source), ?_, isEmpty_set ns i _, halike.set hi hempty, fun look => ?_⟩
      · simp only [modifyAt, hi, hf]
        rfl
      · rw [filledAll_set, hc.filled look place, hblock.filled_children hempty look, hset]
        rfl
    | cons j places =>
      obtain ⟨children, hchildren, hn⟩ := Option.bind_eq_some_iff.1 hn
      obtain ⟨m, hm, hchildren⟩ := Option.bind_eq_some_iff.1 hchildren
      cases m with
      | leaf content raws source => cases hchildren
      | block header' ms raws' source' =>
        obtain rfl := Option.some.inj hchildren
        have hblock := completeAll_iff.1 hc _ (List.mem_of_getElem? hm)
        obtain ⟨ps, qs, hset⟩ := exists_piecesOf_children semicolon hm
        obtain ⟨ps', qs', inner, hold, hnew⟩ :=
          ih hblock.2.2.2.2.2 hn ⟨.block, place.depth + 1, 0⟩ (raws'.semicolon.getD false)
        have hwhole := hset ms
        rw [set_of_getElem? hm, hold] at hwhole
        refine ⟨ps ++ ps', qs' ++ qs, inner, by rw [hwhole]; simp only [List.append_assoc], ?_⟩
        intro cs' f hempty halike hf
        obtain ⟨ms', hmodify, hempty', halike', hpieces⟩ := hnew cs' f hempty halike hf
        refine ⟨ns.set i (.block header' ms' raws' source'), ?_, isEmpty_set ns i _, halike'.set hm hempty', fun look => ?_⟩
        · simp only [modifyAt, hm, hmodify]
          rfl
        · have hdepth : place.depth + 1 + (j :: places).length = place.depth + (i :: j :: places).length := by
            simp only [List.length_cons]
            omega
          rw [filledAll_set, hc.filled look place, hblock.filled_children hempty' look, hset, hpieces, hdepth]
          simp only [List.append_assoc]

end Node

theorem Node.texts_pieces_bare {look : Lookup Id} {colon : Text} (hcolon : look.separator .colon = colon) (place : Place)
    (semicolon : Bool) (prop value : Text) (important : Bool) (source : Option Span) :
    Piece.texts (((Node.leaf (.declaration prop value important) {} source).filled look place).pieces semicolon) =
      prop ++ colon ++ value ++ (if important then " !important".toList else []) ++
        if semicolon then [';'] else [] := by
  obtain rfl := hcolon
  show prop ++ _ ++ value ++ (if important then _ else []) ++ Piece.texts (if semicolon && true then [.semicolon] else []) = _
  cases semicolon <;> rfl

/-- A complete root with other nodes keeps the semicolon behind the last of them. -/
theorem Root.Complete.filled_pieces {r : Root} {ns : List Node} (hc : r.Complete) (hne : r.nodes ≠ [])
    (hempty : ns.isEmpty = r.nodes.isEmpty) :
    ({ r with nodes := ns } : Root).filled.pieces =
      piecesOf (r.semicolon.getD false) (filledAll (Lookup.fresh (descendants ns)) ⟨.root, 0, 0⟩ ns) ++
        [.raw r.after (some r.rangeEnd)] := by
  obtain ⟨semicolon, hsemicolon⟩ := Option.isSome_iff_exists.1 (hc.2 hne)
  rw [List.isEmpty_eq_false_iff.2 hne] at hempty
  simp only [Root.pieces, Root.filled, hempty, hsemicolon]
  rfl

namespace Document
variable {d : Document} {path : Path} {r : Root} {cs : List Node}

theorem children_cases (hr : d.roots[path.root]? = some r) (hcs : d.children path = .ok cs) (hne : cs ≠ []) :
    path.places = [] ∧ r.nodes = cs ∨
    ∃ header raws source, path.places ≠ [] ∧ Node.at? path.places r.nodes = some (.block header cs raws source) := by
  have hroot : d.root path.root = .ok r := by rw [root, hr]
  unfold children at hcs
  split at hcs
  · rename_i hplaces
    rw [hroot] at hcs
    exact .inl ⟨List.isEmpty_iff.1 hplaces, Except.ok.inj hcs⟩
  · rename_i hplaces
    refine .inr ?_
    obtain ⟨n, hn, hcs⟩ := bind_eq_ok.1 hcs
    rw [node, hroot] at hn
    have hat : Node.at? path.places r.nodes = some n := by
      obtain ⟨r', hr', hn⟩ := bind_eq_ok.1 hn
      obtain rfl := Except.ok.inj hr'
      split at hn
      · rename_i hget
        rw [hget, Except.ok.inj hn]
      · cases hn
    cases n with
    | leaf content raws source =>
      cases content with
      | atRule name params => exact absurd (Except.ok.inj hcs).symm hne
      | declaration prop value important => cases hcs
      | comment text => cases hcs
    | block header ms raws source =>
      obtain rfl := Except.ok.inj hcs
      exact ⟨header, raws, source, by simpa using hplaces, hat⟩

theorem exists_mapRoot {f : Root → Except EditError Root} {r' : Root} {i : Nat} (hr : d.roots[i]? = some r)
    (hf : f r = .ok r') : ∃ d', d.mapRoot i f = .ok d' ∧ d'.roots[i]? = some r' := by
  obtain ⟨hi, -⟩ := List.getElem?_eq_some_iff.1 hr
  exact ⟨{ d with roots := d.roots.set i r' }, mapRoot_eq_ok.2 ⟨r, r', hr, hf, rfl⟩, List.getElem?_set_self hi⟩

theorem exists_entry {places : List Nat} {ns : List Node} {n : Node} (hn : Node.at? places ns = some n) :
    ∃ x ∈ descendants ns, x.node = n := by
  rw [descendants_eq_preorder]
  have hplace := mem_placesFrom_iff_at?.2 (Option.isSome_of_eq_some hn)
  obtain ⟨x, hx, hstands⟩ := forall₂_mem_left (placesFrom_preorder 0 ns rfl) hplace
  exact ⟨x, hx, Option.some.inj (hstands.node.symm.trans hn)⟩

theorem exists_first_declaration (hr : d.roots[path.root]? = some r) (hcs : d.children path = .ok cs)
    (hsome : cs.any Node.isDeclaration = true) :
    ∃ x, (descendants r.nodes).find? (·.node.isDeclaration) = some x := by
  obtain ⟨n, hn, hdecl⟩ := List.any_eq_true.1 hsome
  obtain ⟨i, hi⟩ := List.mem_iff_getElem?.1 hn
  have hentry : ∃ x ∈ descendants r.nodes, x.node = n := by
    obtain ⟨hplaces, rfl⟩ | ⟨header, raws, source, hplaces, hblock⟩ :=
      children_cases hr hcs (List.ne_nil_of_mem hn)
    · exact @exists_entry [i] r.nodes n hi
    · refine @exists_entry (path.places ++ [i]) r.nodes n ?_
      rw [Node.at?_concat hplaces, hblock]
      exact hi
  obtain ⟨x, hx, rfl⟩ := hentry
  exact Option.isSome_iff_exists.1 (List.find?_isSome.2 ⟨x, hx, hdecl⟩)

/-- A node that shows nothing is printed behind the last of the children, as it is filled in there, and the rest of a
complete root as before. -/
theorem exists_pieces_append (hc : r.Complete) (hr : d.roots[path.root]? = some r) (hcs : d.children path = .ok cs)
    (hne : cs ≠ []) :
    ∃ ps qs inner parent, parent ≠ .nothing ∧ r.pieces = ps ++ piecesOf inner cs ++ qs ∧
      ∀ n : Node, (∀ depth index s, Separator.shown (n.preorder depth index) s = none) → ∃ d' r',
        d.edit (.append path n) = .ok d' ∧ d'.roots[path.root]? = some r' ∧
        Separator.infer (descendants r'.nodes) = Separator.infer (descendants r.nodes) ∧
        r'.filled.pieces = ps ++ piecesOf inner
          (cs ++ [n.filled (Lookup.fresh (descendants r'.nodes)) ⟨parent, path.places.length, cs.length⟩]) ++ qs := by
  have hempty : ∀ n, (cs ++ [n]).isEmpty = cs.isEmpty := by
    intro n
    rw [List.isEmpty_eq_false_iff.2 hne, List.isEmpty_eq_false_iff.2 (by simp)]
  obtain ⟨hplaces, rfl⟩ | ⟨header, raws, source, hplaces, hn⟩ := children_cases hr hcs hne
  · -- The children of the root.
    refine ⟨[], [.raw r.after (some r.rangeEnd)], r.semicolon.getD false, .root, by decide, rfl, fun n hquiet => ?_⟩
    have hmap : ∃ d', d.mapRoot path.root (fun r => return { r with nodes := ← Except.ok (r.nodes ++ [n]) }) = .ok d' ∧
        d'.roots[path.root]? = some { r with nodes := r.nodes ++ [n] } := exists_mapRoot hr rfl
    obtain ⟨d', hedit, hget⟩ := hmap
    refine ⟨d', { r with nodes := r.nodes ++ [n] }, ?_, hget, (ShowAlike.concat hquiet r.nodes).infer, ?_⟩
    · rw [← hedit, edit, mapChildren, hplaces]
      rfl
    · rw [hc.filled_pieces hne (hempty n), filledAll_append, hc.1.filled, hplaces]
      simp only [List.nil_append, Nat.zero_add]
      rfl
  · -- The children of a block.
    obtain ⟨ps, qs, inner, hold, hnew⟩ :=
      Node.exists_pieces_children hc.1 hn ⟨.root, 0, 0⟩ (r.semicolon.getD false)
    have hnodes : r.nodes ≠ [] := by
      intro hnil
      rw [hnil] at hn
      rcases hpath : path.places with - | ⟨i, - | ⟨j, places⟩⟩ <;> rw [hpath] at hn <;> cases hn
    refine ⟨ps, qs ++ [.raw r.after (some r.rangeEnd)], inner, .block, by decide, ?_, fun n hquiet => ?_⟩
    · rw [Root.pieces, hold]
      simp only [List.append_assoc]
    · obtain ⟨ns', hmodify, hempty', halike, hpieces⟩ := hnew (cs ++ [n])
        (Node.mapChildren fun ns => return ns ++ [n]) (hempty n) (.concat hquiet cs) rfl
      have hmap : ∃ d', d.mapNode path (Node.mapChildren fun ns => return ns ++ [n]) = .ok d' ∧
          d'.roots[path.root]? = some { r with nodes := ns' } :=
        exists_mapRoot hr (bind_eq_ok.2 ⟨ns', hmodify, rfl⟩)
      obtain ⟨d', hedit, hget⟩ := hmap
      refine ⟨d', { r with nodes := ns' }, ?_, hget, halike.infer, ?_⟩
      · rw [← hedit, edit, mapChildren, if_neg (by simpa using hplaces)]
      · have hcs' : CompleteAll cs := (Node.complete_of_at? hc.1 hn).2.2.2.2.2
        rw [hc.filled_pieces hnodes hempty', hpieces, filledAll_append, hcs'.filled]
        simp only [Nat.zero_add, List.append_assoc]
        rfl

/-- A declaration without raws is printed behind the other children of a complete root or of a block in it. -/
theorem exists_css_append (hc : r.Complete) (hr : d.roots[path.root]? = some r) (hcs : d.children path = .ok cs)
    (hne : cs ≠ []) :
    let infer := Separator.infer (descendants r.nodes)
    let before := Id.run (Printer.indented (Lookup.fresh (descendants r.nodes)) .beforeDeclaration path.places.length)
    ∃ front behind semicolon, r.css = front ++ Piece.texts (piecesOf semicolon cs) ++ behind ∧
      ∀ prop value important source, ∃ d' r',
        d.edit (.append path (.leaf (.declaration prop value important) {} source)) = .ok d' ∧
        d'.roots[path.root]? = some r' ∧
        r'.css = front ++ (Piece.texts (piecesOf true cs) ++ before ++ (prop ++ infer .colon ++ value ++
          (if important then " !important".toList else []) ++ if semicolon then [';'] else [])) ++ behind := by
  intro infer before
  obtain ⟨ps, qs, inner, parent, hparent, hold, hnew⟩ := exists_pieces_append hc hr hcs hne
  refine ⟨Piece.texts ps, Piece.texts qs, inner, ?_, fun prop value important source => ?_⟩
  · rw [Root.css_complete hc, hold, Piece.texts_append, Piece.texts_append]
  · obtain ⟨d', r', hedit, hget, hinfer, hpieces⟩ :=
      hnew (.leaf (.declaration prop value important) {} source) fun depth index s => by
        rw [Node.preorder, Separator.shown, List.findSome?_singleton, Separator.shownBy_bare rfl]
    refine ⟨d', r', hedit, hget, ?_⟩
    have hindex : cs.length ≠ 0 := fun hlen => hne (List.length_eq_zero_iff.1 hlen)
    have hbefore : Id.run (Printer.before (Lookup.fresh (descendants r'.nodes)) ⟨parent, path.places.length, cs.length⟩
        (.leaf (.declaration prop value important) {} source)) = before := by
      rw [Printer.run_before_bare hparent hindex, Printer.run_indented, hinfer]
      exact (Printer.run_indented _ _ _).symm
    have hcolon : (Lookup.fresh (descendants r'.nodes)).separator .colon = infer .colon := congrFun hinfer .colon
    have hsolid : (Node.leaf (.declaration prop value important) {} source).isSolid = true := rfl
    rw [Root.css_filled, hpieces, piecesOf_append, piecesOf, piecesOf, Node.filled_before, hbefore]
    simp only [Piece.texts_append, Piece.texts_cons, Piece.text, Node.texts_pieces_bare hcolon, List.any_cons,
      List.any_nil, Node.filled_isSolid, hsolid, Bool.or_true, Bool.or_false, Option.getD_some, List.append_nil,
      List.append_assoc]

/-- A declaration without raws comes behind the other children of a block or a root of a parsed tree, and all else is
printed as before. What is printed in front of it is a line break and an indent, as its siblings have them, say, if and only
if nothing blank stands in front of the last line break before the first declaration of the tree, and the indent of the first
node two levels down, once for each block around, is that indent. So it is if the declarations are in a block of the root,
and the first declaration of the tree and the first node two levels down are among them. -/
theorem append_declaration {e : Excerpt} {holes : List Hole} {role : Role} (hparse : Root.parse e holes role = .ok r)
    (hr : d.roots[path.root]? = some r) (hcs : d.children path = .ok cs) (hsome : cs.any Node.isDeclaration = true) :
    let entries := descendants r.nodes
    let infer := Separator.infer entries
    let before := Id.run (Printer.indented (Lookup.fresh entries) .beforeDeclaration path.places.length)
    (∃ front behind semicolon, r.css = front ++ Piece.texts (piecesOf semicolon cs) ++ behind ∧
      ∀ prop value important source, ∃ d' r',
        d.edit (.append path (.leaf (.declaration prop value important) {} source)) = .ok d' ∧
        d'.roots[path.root]? = some r' ∧
        r'.css = front ++ (Piece.texts (piecesOf true cs) ++ before ++ (prop ++ infer .colon ++ value ++
          (if important then " !important".toList else []) ++ if semicolon then [';'] else [])) ++ behind) ∧
    (∃ x raw, entries.find? (·.node.isDeclaration) = some x ∧ x.node.raws.before = some raw ∧
      ∀ indent, '\n' ∉ indent → (before = '\n' :: indent ↔
        (∃ front behind, raw = front ++ '\n' :: behind ∧ '\n' ∉ behind ∧ ∀ c ∈ front, isBlank c = false) ∧
        (Separator.indentTwoDown entries).times path.places.length = indent)) ∧
    ∀ indent, '\n' ∉ indent → (∀ c ∈ indent, isBlank c = true) →
      (∀ n ∈ cs, n.isDeclaration = true → n.raws.before = some ('\n' :: indent)) → path.places.length = 1 →
      (∃ x ∈ entries.find? (·.node.isDeclaration), x.node ∈ cs) →
      (∃ x ∈ entries.find? (·.depth = 2), x.node ∈ cs ∧ x.node.isDeclaration = true) → before = '\n' :: indent := by
  intro entries infer before
  have hcomplete : r.Complete := by
    obtain ⟨hread, -, -⟩ := Root.parse_spec (Cuts.trivial _ _) hparse
    exact hread.complete
  have hne : cs ≠ [] := by
    rintro rfl
    cases hsome
  have hall : ∀ x ∈ entries, x.node.raws.before.isSome = true := by
    show ∀ x ∈ descendants r.nodes, _
    rw [descendants_eq_preorder]
    exact fun x hx => (CompleteAll.preorder hcomplete.1 1 0 x hx).before
  refine ⟨exists_css_append hcomplete hr hcs hne, ?_, ?_⟩
  · obtain ⟨x, hx⟩ := exists_first_declaration hr hcs hsome
    obtain ⟨raw, hraw⟩ := Option.isSome_iff_exists.1 (hall x (List.mem_of_find?_eq_some hx))
    refine ⟨x, raw, hx, hraw, fun indent hindent => ?_⟩
    rw [← Separator.lines_eq_break_iff, ← Separator.infer_beforeDeclaration hx hraw, ← Separator.infer_indent hall]
    exact Printer.indented_eq_iff hindent
  · rintro indent hindent hblank hsiblings hdepth ⟨x, hx, hxmem⟩ ⟨y, hy, hymem, hydecl⟩
    have hxdecl : x.node.isDeclaration = true := List.find?_some (p := fun x : Entry => x.node.isDeclaration) hx
    show Id.run (Printer.indented (Lookup.fresh entries) .beforeDeclaration path.places.length) = _
    rw [hdepth]
    exact Printer.indented_of_first hall hindent hblank hx (hsiblings x.node hxmem hxdecl) hy (hsiblings y.node hymem hydecl)

/-- In a rule of an indented root, behind a declaration that is the first of all and the first two levels down. -/
theorem append_declaration_rule :
    ∃ r cs, Root.parse ⟨"\n\ta \x7b\n\t\tb: c;\n\t\x7d\n".toList, .front, none⟩ [] = .ok r ∧
      (⟨[r], []⟩ : Document).children ⟨0, [0]⟩ = .ok cs ∧ cs.any Node.isDeclaration = true ∧
      ∃ front behind semicolon, r.css = front ++ Piece.texts (piecesOf semicolon cs) ++ behind ∧ ∃ d' r',
        (⟨[r], []⟩ : Document).edit (.append ⟨0, [0]⟩ (.leaf (.declaration "d".toList "e".toList true) {} none)) =
          .ok d' ∧ d'.roots[0]? = some r' ∧
        r'.css = front ++ (Piece.texts (piecesOf true cs) ++ "\n\t\t".toList ++
          ("d: e !important".toList ++ if semicolon then [';'] else [])) ++ behind := by
  have hall : (Root.parse ⟨"\n\ta \x7b\n\t\tb: c;\n\t\x7d\n".toList, .front, none⟩ []).map (fun r =>
      let infer := Separator.infer (descendants r.nodes)
      decide (((⟨[r], []⟩ : Document).children ⟨0, [0]⟩).map (·.any Node.isDeclaration) = .ok true ∧
        infer .colon = ": ".toList ∧ infer .beforeDeclaration = ['\n'] ∧
        (Separator.indentTwoDown (descendants r.nodes)).times 1 = "\t\t".toList)) = .ok true := by decide +kernel
  obtain ⟨r, hr, hall⟩ := map_eq_ok.1 hall
  obtain ⟨hsome, hcolon, hbreak, hindent⟩ := of_decide_eq_true hall
  obtain ⟨cs, hcs, hsome⟩ := map_eq_ok.1 hsome
  obtain ⟨⟨front, behind, semicolon, hold, hnew⟩, ⟨x, raw, hx, hraw, hiff⟩, -⟩ := append_declaration hr rfl hcs hsome
  rw [Separator.infer_beforeDeclaration hx hraw, Separator.lines_eq_break_iff] at hbreak
  have hbefore := (hiff "\t\t".toList (by decide)).2 ⟨hbreak, hindent⟩
  obtain ⟨d', r', hedit, hget, hcss⟩ := hnew "d".toList "e".toList true none
  refine ⟨r, cs, hr, hcs, hsome, front, behind, semicolon, hold, d', r', hedit, hget, ?_⟩
  rw [hcss, hbefore, hcolon]
  rfl

/-- What a style text on its own prints with a node more. -/
def printedWith (css : Text) (holes : List Hole) (places : List Nat) (n : Node) : Option Text := do
  let r ← (Root.parse ⟨css, .front, none⟩ holes).toOption
  let d ← ((⟨[r], []⟩ : Document).edit (.append ⟨0, places⟩ n)).toOption
  (d.roots[0]?).map Root.css

/-- The raws before the declarations that stand in one block of it, or in the root. -/
def siblingRaws (css : Text) (places : List Nat) : Option (List (Option Text)) := do
  let r ← (Root.parse ⟨css, .front, none⟩ []).toOption
  let siblings ← ((⟨[r], []⟩ : Document).children ⟨0, places⟩).toOption
  return (siblings.filter Node.isDeclaration).map (·.raws.before)

/-- Not so in the root itself, where there is no indent, nor a level deeper, where there are two. -/
theorem append_declaration_astray :
    let n : Node := .leaf (.declaration "d".toList "e".toList false) {} none
    let shallow : Text := "\n\ta: b;\n".toList
    let deep : Text := "\n\t@m x \x7b\n\t\ta \x7b\n\t\t\tb: c;\n\t\t\x7d\n\t\x7d\n".toList
    siblingRaws shallow [] = some [some "\n\t".toList] ∧
    printedWith shallow [] [] n = some "\n\ta: b;\nd: e;\n".toList ∧
    siblingRaws deep [0, 0] = some [some "\n\t\t\t".toList] ∧
    printedWith deep [] [0, 0] n =
      some "\n\t@m x \x7b\n\t\ta \x7b\n\t\t\tb: c;\n\t\t\t\td: e;\n\t\t\x7d\n\t\x7d\n".toList := by
  decide +kernel

end Document
end TaggedStyles
