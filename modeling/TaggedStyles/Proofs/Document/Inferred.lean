import TaggedStyles.Proofs.Document.Append
import TaggedStyles.Proofs.Tree.Formatting

/-! Nodes without raws at any places of a parsed tree. What is inferred for them is blank, with three exceptions, which are
copied as they stand: in front of the mark of a block any comments, in an empty block any filler, and behind a property
any colons, or none. -/
namespace TaggedStyles
set_option autoImplicit false

/-! ## Blank tokens -/

theorem isBlank_of_isSpace {c : Char} (h : isSpace c = true) : isBlank c = true := by
  simp only [isSpace, Bool.or_eq_true, beq_iff_eq] at h
  rcases h with (((rfl | rfl) | rfl) | rfl) | rfl <;> decide

namespace Token
variable {ts us : List Token} {u : Token}

theorem blank_joined_iff : (joined us).all isBlank = true ↔ ∀ u ∈ us, u.text.all isBlank = true := by
  rw [joined, List.all_flatMap, List.all_eq_true]

/-- Tokens that are read as spaces are blank, and a semicolon or a comment is not. -/
structure Legible (u : Token) : Prop where
  blank : u.kind = .space → u.text.all isBlank = true
  dark : u.kind = .comment ∨ u.kind = .semicolon → u.text.all isBlank = false

theorem legible_of_mem_drain {e : Excerpt} {holes : List Hole} (h : u ∈ (Reader.start e holes).drain.1) :
    u.Legible := by
  obtain ⟨i, cs, l, hreads, rfl⟩ := Reader.of_mem_take rfl h
  have hspells := hreads.spells
  rw [← Reader.tokenOf_kind l i, ← Reader.tokenOf_text l i] at hspells
  refine ⟨fun hk => ?_, fun hk => ?_⟩
  · rw [Reader.tokenOf_kind] at hk
    rw [Reader.tokenOf_text, List.all_eq_true]
    exact fun c hc => isBlank_of_isSpace (hreads.text_of_space hk c hc)
  · rcases hk with hk | hk
    · rw [hk] at hspells
      obtain ⟨inner, htext⟩ := hspells
      rw [htext]
      rfl
    · rw [hk] at hspells
      rw [hspells.text_of_mark (c := ';') (by simp [Lexeme.IsMark])]
      rfl

end Token

namespace Text.MadeOf
variable {ts : List Token} {text : Text} {holes : List Hole}

theorem blank_iff_of_trivia (hts : ∀ t ∈ ts, t.Legible) (h : MadeOf Token.isTrivia ts text) :
    ∃ us, us ⊆ ts ∧ (∀ u ∈ us, u.isTrivia = true) ∧ Token.joined us = text ∧
      (text.all isBlank = true ↔ ∀ u ∈ us, u.kind ≠ .comment) := by
  obtain ⟨us, hus, htrivia, rfl⟩ := h
  refine ⟨us, hus, htrivia, rfl, ?_⟩
  rw [Token.blank_joined_iff]
  refine forall₂_congr fun u hu => ⟨fun hblank hk => ?_, fun hk => ?_⟩
  · rw [(hts u (hus hu)).dark (.inl hk)] at hblank
    cases hblank
  · have hkind := htrivia u hu
    simp only [Token.isTrivia, Bool.or_eq_true, decide_eq_true_eq] at hkind
    exact (hts u (hus hu)).blank (hkind.resolve_right hk)

/-- A text of filler is blank if there are no comments and no semicolons and all holes are blank. -/
theorem blank_iff_of_filler (hts : ∀ t ∈ ts, t.Legible) (h : MadeOf (Token.isFiller holes) ts text) :
    ∃ us, us ⊆ ts ∧ (∀ u ∈ us, u.isFiller holes = true) ∧ Token.joined us = text ∧
      (text.all isBlank = true ↔ ∀ u ∈ us, u.kind ≠ .comment ∧ u.kind ≠ .semicolon ∧
        (u.isHole holes = true → u.text.all isBlank = true)) := by
  obtain ⟨us, hus, hfiller, rfl⟩ := h
  refine ⟨us, hus, hfiller, rfl, ?_⟩
  rw [Token.blank_joined_iff]
  refine forall₂_congr fun u hu => ⟨fun hblank => ⟨fun hk => ?_, fun hk => ?_, fun _ => hblank⟩, ?_⟩
  · rw [(hts u (hus hu)).dark (.inl hk)] at hblank
    cases hblank
  · rw [(hts u (hus hu)).dark (.inr hk)] at hblank
    cases hblank
  · rintro ⟨hcomment, hsemicolon, hhole⟩
    have hkind := hfiller u hu
    simp only [Token.isFiller, Bool.or_eq_true, decide_eq_true_eq] at hkind
    rcases hkind with ((hk | hk) | hk) | hk
    · exact (hts u (hus hu)).blank hk
    · exact absurd hk hsemicolon
    · exact absurd hk hcomment
    · exact hhole hk

end Text.MadeOf

/-! ## Blank separators -/

theorem Text.blank_blanks (t : Text) : (Text.blanks t).all isBlank = true :=
  List.all_eq_true.2 fun _ hc => (List.mem_filter.1 hc).2

theorem Text.blank_times {t : Text} (h : t.all isBlank = true) (n : Nat) : (t.times n).all isBlank = true := by
  rw [times, List.all_flatten, List.all_replicate, h]
  simp

namespace Separator
variable {holes : List Hole} {ts : List Token} {entries : List Entry} {s : Separator} {text : Text}

/-- The separators that are copied as they stand. -/
def copied : List Separator := [.beforeOpen, .colon, .emptyBody]

theorem blank_shownBy {e : Entry} (he : e.node.Formatted holes ts) (hs : s ∉ copied) (hshows : s.shownBy e = some text) :
    text.all isBlank = true := by
  have hblank : ∀ {raw : Option Text} {f : Text → Text}, (∀ t, (f t).all isBlank = true) → raw.map f = some text →
      text.all isBlank = true := by
    intro raw f hf hmap
    obtain ⟨t, -, rfl⟩ := Option.map_eq_some_iff.1 hmap
    exact hf t
  have hlines : ∀ t, (lines t).all isBlank = true := fun t => Text.blank_blanks _
  cases s with
  | beforeOpen | colon | emptyBody => exact absurd (by decide) hs
  | commentLeft => exact he.left text hshows
  | commentRight => exact he.right text hshows
  | indent =>
    simp only [shownBy] at hshows
    split at hshows
    · exact hblank (fun t => Text.blank_blanks _) hshows
    · cases hshows
  | beforeDeclaration | beforeComment | beforeClose =>
    simp only [shownBy] at hshows
    split at hshows
    · exact hblank hlines hshows
    · cases hshows
  | beforeRule =>
    simp only [shownBy] at hshows
    split at hshows
    · cases hshows
    · exact hblank hlines hshows

theorem copied_of_mem_chain {s' : Separator} (h : s' ∈ s.chain) (hs' : s' ∈ copied) : s ∈ copied := by
  revert h hs'
  cases s <;> cases s' <;> decide

theorem blank_infer (hentries : ∀ e ∈ entries, e.node.Formatted holes ts) (hs : s ∉ copied) :
    (infer entries s).all isBlank = true := by
  unfold infer
  cases hfind : s.chain.findSome? (shown entries) with
  | none => cases s <;> first | decide | exact absurd (by decide) hs
  | some text =>
    obtain ⟨s', hmem, hshown⟩ := List.exists_of_findSome?_eq_some hfind
    obtain ⟨e, he, hshows⟩ := List.exists_of_findSome?_eq_some hshown
    exact blank_shownBy (hentries e he) (fun hs' => hs (copied_of_mem_chain hmem hs')) hshows

theorem infer_of_chain (entries : List Entry) (hchain : s.chain = [s]) :
    infer entries s = (shown entries s).getD s.default := by
  rw [infer, hchain, List.findSome?_singleton]

/-- What stands behind the property of the first declaration that has a raw for it. -/
def firstBetween? (entries : List Entry) : Option Text :=
  entries.findSome? fun e => if e.node.isDeclaration then e.node.raws.between else none

/-- Of what stands behind a property all colons are copied and all blank characters. -/
theorem infer_colon (entries : List Entry) :
    infer entries .colon = ((firstBetween? entries).map (·.filter fun c => isBlank c || c == ':')).getD [':', ' '] := by
  have hshown : shown entries .colon = (firstBetween? entries).map (·.filter fun c => isBlank c || c == ':') := by
    rw [shown, firstBetween?, List.map_findSome?]
    congr 1
    funext e
    simp only [shownBy, Function.comp_apply]
    split <;> rfl
  rw [infer_of_chain entries rfl, hshown]
  rfl

theorem count_infer_colon (entries : List Entry) :
    (infer entries .colon).count ':' = 1 ↔ ∀ text ∈ firstBetween? entries, text.count ':' = 1 := by
  rw [infer_colon]
  cases firstBetween? entries with
  | none => simp
  | some text => simp [List.count_filter]

theorem all_infer_colon (entries : List Entry) :
    (infer entries .colon).all (fun c => isBlank c || c == ':') = true := by
  rw [infer_colon]
  cases firstBetween? entries with
  | none => rfl
  | some text => exact List.all_eq_true.2 fun _ hc => (List.mem_filter.1 hc).2

theorem infer_beforeOpen (hentries : ∀ e ∈ entries, e.node.Formatted holes ts) :
    infer entries .beforeOpen = [' '] ∨ Text.MadeOf Token.isTrivia ts (infer entries .beforeOpen) := by
  rw [infer_of_chain entries rfl]
  cases hshown : shown entries .beforeOpen with
  | none => exact .inl rfl
  | some text =>
    obtain ⟨e, he, hshows⟩ := List.exists_of_findSome?_eq_some hshown
    refine .inr ?_
    simp only [shownBy] at hshows
    split at hshows
    · cases hshows
    · rename_i hdecl
      exact (hentries e he).between (Bool.eq_false_iff.2 hdecl) text hshows

theorem infer_emptyBody (hentries : ∀ e ∈ entries, e.node.Formatted holes ts) :
    Text.MadeOf (Token.isFiller holes) ts (infer entries .emptyBody) := by
  rw [infer_of_chain entries rfl]
  cases hshown : shown entries .emptyBody with
  | none => exact .nothing _ ts
  | some text =>
    obtain ⟨e, he, hshows⟩ := List.exists_of_findSome?_eq_some hshown
    simp only [shownBy] at hshows
    split at hshows
    · exact (hentries e he).after text hshows
    · cases hshows

end Separator

/-! ## Blank raws -/

/-- The raws of a node that has none of its own: blank, but for three separators. -/
structure Raws.Inferred (infer : Separator → Text) (n : Node) (r : Raws) : Prop where
  before : ∀ text ∈ r.before, text.all isBlank = true
  left : ∀ text ∈ r.left, text.all isBlank = true
  right : ∀ text ∈ r.right, text.all isBlank = true
  between : ∀ text ∈ r.between, text = infer (if n.isDeclaration then .colon else .beforeOpen)
  after : ∀ text ∈ r.after, text.all isBlank = true ∨ n.nodes?.any (·.isEmpty) = true ∧ text = infer .emptyBody
  others : r = ⟨r.before, r.after, r.between, r.semicolon, none, none, r.left, r.right, none, none, none, none, {}⟩

section
variable {entries : List Entry} (hblank : ∀ s ∉ Separator.copied, (Separator.infer entries s).all isBlank = true)
include hblank

theorem Printer.blank_indented {s : Separator} (hs : s ∉ Separator.copied) (depth : Nat) :
    (Id.run (indented (Lookup.fresh entries) s depth)).all isBlank = true := by
  rw [run_indented]
  split
  · rw [List.all_append, hblank s hs, Text.blank_times (hblank .indent (by decide)), Bool.and_true]
  · exact hblank s hs

theorem Printer.blank_before {n : Node} (hn : n.raws.before = none) (place : Place) :
    (Id.run (before (Lookup.fresh entries) place n)).all isBlank = true := by
  unfold before
  rw [hn]
  simp only
  split
  · rfl
  · split
    · exact blank_indented hblank (by decide) place.depth
    · exact blank_indented hblank (by decide) place.depth
    · exact blank_indented hblank (by decide) place.depth

theorem Printer.blank_afterChildren {raws : Raws} (hraws : raws.after = none) (place : Place) :
    (Id.run (afterChildren (Lookup.fresh entries) place raws)).all isBlank = true := by
  unfold afterChildren
  rw [hraws]
  simp only
  split
  · rfl
  · exact blank_indented hblank (by decide) place.depth

theorem Node.filledRaws_of_bare {n : Node} (hn : n.raws = {}) (place : Place) :
    (n.filledRaws (Lookup.fresh entries) place).Inferred (Separator.infer entries) n := by
  have hbefore : ∀ text ∈ some (Id.run (Printer.before (Lookup.fresh entries) place n)), text.all isBlank = true := by
    rintro text ⟨⟩
    exact Printer.blank_before hblank (by rw [hn]) place
  have hleft : ∀ text ∈ some (Separator.infer entries .commentLeft), text.all isBlank = true := by
    rintro text ⟨⟩
    exact hblank .commentLeft (by decide)
  have hright : ∀ text ∈ some (Separator.infer entries .commentRight), text.all isBlank = true := by
    rintro text ⟨⟩
    exact hblank .commentRight (by decide)
  cases n with
  | leaf content own source =>
    obtain rfl : own = {} := hn
    cases content with
    | declaration prop value important =>
      refine ⟨hbefore, nofun, nofun, ?_, nofun, rfl⟩
      rintro text ⟨⟩
      rfl
    | atRule name params => exact ⟨hbefore, nofun, nofun, nofun, nofun, rfl⟩
    | comment text => exact ⟨hbefore, hleft, hright, nofun, nofun, rfl⟩
  | block header ns own source =>
    obtain rfl : own = {} := hn
    refine ⟨hbefore, nofun, nofun, ?_, ?_, by cases header <;> rfl⟩
    · rintro text ⟨⟩
      rfl
    · rintro text ⟨⟩
      cases ns with
      | nil => exact .inr ⟨rfl, rfl⟩
      | cons m ms => exact .inl (Printer.blank_afterChildren hblank rfl place)

end

/-! ## Appending nodes without raws -/

namespace Node

mutual

theorem every_of_bare {P : Node → Prop} (hP : ∀ m : Node, m.raws = {} → P m) {n : Node} (h : n.bare = n) : n.Every P := by
  cases n with
  | leaf content raws source =>
    rw [bare] at h
    exact hP _ (leaf.inj h).2.1.symm
  | block header ns raws source =>
    rw [bare] at h
    obtain ⟨-, hns, hraws, -⟩ := block.inj h
    exact ⟨hP _ hraws.symm, everyIn_of_bare hP hns⟩

theorem everyIn_of_bare {P : Node → Prop} (hP : ∀ m : Node, m.raws = {} → P m) {ns : List Node}
    (h : bareNodes ns = ns) : EveryIn P ns := by
  cases ns with
  | nil => trivial
  | cons n ns =>
    rw [bareNodes] at h
    obtain ⟨hn, hns⟩ := List.cons.inj h
    exact ⟨every_of_bare hP hn, everyIn_of_bare hP hns⟩

end

/-- A change that keeps a property of a node and of all below it keeps it in the whole tree, if the property does not
look at children. -/
theorem everyIn_modifyAt {P : Node → Prop} {f : Node → Except EditError Node} {places : List Nat} {ns ns' : List Node}
    (hP : ∀ header ms ms' raws source, P (.block header ms raws source) → P (.block header ms' raws source))
    (hf : ∀ n n', f n = .ok n' → n.Every P → n'.Every P) (h : modifyAt f places ns = .ok ns') (hns : EveryIn P ns) :
    EveryIn P ns' := by
  have hset : ∀ {ns : List Node} {i : Nat} {m : Node}, EveryIn P ns → m.Every P → EveryIn P (ns.set i m) := by
    intro ns i m hns hm
    refine everyIn_iff.2 fun n hn => ?_
    rcases List.mem_or_eq_of_mem_set hn with hn | rfl
    · exact everyIn_iff.1 hns n hn
    · exact hm
  fun_induction modifyAt f places ns generalizing ns' with
  | case1 => cases h
  | case2 i ns n hn =>
    obtain ⟨n', hn', h⟩ := bind_eq_ok.1 h
    obtain rfl := Except.ok.inj h
    exact hset hns (hf n n' hn' (everyIn_iff.1 hns n (List.mem_of_getElem? hn)))
  | case3 => cases h
  | case4 i places ns hne header ms raws source hm ih =>
    obtain ⟨ms', hmodify, h⟩ := bind_eq_ok.1 h
    obtain rfl := Except.ok.inj h
    obtain ⟨hown, hms⟩ := everyIn_iff.1 hns _ (List.mem_of_getElem? hm)
    exact hset hns ⟨hP header ms ms' raws source hown, ih hmodify hms⟩
  | case5 => cases h

theorem Formatted.of_bare {holes : List Hole} {ts : List Token} {n : Node} (h : n.raws = {}) : n.Formatted holes ts := by
  constructor <;> rw [h] <;> nofun

theorem Formatted.of_raws {holes : List Hole} {ts : List Token} {n n' : Node} (h : n.Formatted holes ts)
    (hraws : n'.raws = n.raws) (hdecl : n'.isDeclaration = n.isDeclaration) : n'.Formatted holes ts := by
  obtain ⟨hleft, hright, hbetween, hafter⟩ := h
  rw [← hraws] at hleft hright hbetween hafter
  rw [← hdecl] at hbetween
  exact ⟨hleft, hright, hbetween, hafter⟩

end Node

namespace Document
variable {d d' : Document} {r : Root} {i : Nat} {holes : List Hole} {ts : List Token}

/-- One more node without raws at the end of a root or a block. -/
def Appends (d d' : Document) : Prop := ∃ path n, Node.bare n = n ∧ d.edit (.append path n) = .ok d'

theorem append_eq_ok {path : Path} {n : Node} (h : d.edit (.append path n) = .ok d') :
    ∃ r ns, d.roots[path.root]? = some r ∧ d'.roots = d.roots.set path.root { r with nodes := ns } ∧
      (ns = r.nodes ++ [n] ∨
        Node.modifyAt (Node.mapChildren fun ns => return ns ++ [n]) path.places r.nodes = .ok ns) := by
  rw [edit, mapChildren] at h
  split at h
  · obtain ⟨r, r', hr, hr', rfl⟩ := mapRoot_eq_ok.1 h
    exact ⟨r, r.nodes ++ [n], hr, by rw [← Except.ok.inj hr'], .inl rfl⟩
  · obtain ⟨r, ns, hr, hns, rfl⟩ := mapNode_eq_ok.1 h
    exact ⟨r, ns, hr, rfl, .inr hns⟩

theorem Appends.formatted (h : d.Appends d') (hr : d.roots[i]? = some r)
    (hall : EveryIn (Node.Formatted holes ts) r.nodes) :
    ∃ r', d'.roots[i]? = some r' ∧ EveryIn (Node.Formatted holes ts) r'.nodes := by
  obtain ⟨path, n, hbare, hedit⟩ := h
  obtain ⟨s, ns, hs, hroots, hns⟩ := append_eq_ok hedit
  rw [hroots]
  by_cases hi : path.root = i
  · subst hi
    obtain rfl := Option.some.inj (hr.symm.trans hs)
    obtain ⟨hlt, -⟩ := List.getElem?_eq_some_iff.1 hr
    refine ⟨_, List.getElem?_set_self hlt, ?_⟩
    have hn : n.Every (Node.Formatted holes ts) := Node.every_of_bare (fun m => .of_bare) hbare
    rcases hns with rfl | hmodify
    · exact everyIn_append.2 ⟨hall, hn, trivial⟩
    · refine Node.everyIn_modifyAt (fun header ms ms' raws source hm => hm.of_raws rfl rfl) ?_ hmodify hall
      intro m m' hm hevery
      cases m with
      | leaf content raws source =>
        cases content with
        | atRule name params =>
          obtain rfl := Except.ok.inj hm
          exact ⟨hevery.of_raws rfl rfl, everyIn_append.2 ⟨trivial, hn, trivial⟩⟩
        | declaration prop value important => cases hm
        | comment text => cases hm
      | block header ms raws source =>
        obtain rfl := Except.ok.inj hm
        exact ⟨hevery.1.of_raws rfl rfl, everyIn_append.2 ⟨hevery.2, hn, trivial⟩⟩
  · exact ⟨r, by rw [List.getElem?_set_ne hi, hr], hall⟩

/-- By induction over the nodes that are appended. -/
theorem formatted_of_appends (h : Relation.ReflTransGen Appends d d') (hr : d.roots[i]? = some r)
    (hall : EveryIn (Node.Formatted holes ts) r.nodes) :
    ∃ r', d'.roots[i]? = some r' ∧ EveryIn (Node.Formatted holes ts) r'.nodes := by
  induction h with
  | refl => exact ⟨r, hr, hall⟩
  | tail _ hlast ih =>
    obtain ⟨r', hr', hall'⟩ := ih
    exact hlast.formatted hr' hall'

/-- Nodes without raws at the ends of any blocks of a parsed tree are printed with blank raws, three excepted. Between
property and value stand the blank characters and the colons of the first declaration, which are one colon if it has one;
in front of the mark of a block the spaces of the first one, and its comments; and in an empty block the filler of the
first one that is empty. -/
theorem inferred_of_parse {e : Excerpt} {role : Role} (hparse : Root.parse e holes role = .ok r)
    (hr : d.roots[i]? = some r) (happends : Relation.ReflTransGen Appends d d') :
    let reader := Reader.start e holes
    ∃ r', d'.roots[i]? = some r' ∧ r'.css = Piece.texts r'.filled.pieces ∧
      let entries := descendants r'.nodes
      let infer := Separator.infer entries
      (∀ n : Node, n.raws = {} → ∀ place, (n.filled (Lookup.fresh entries) place).raws.Inferred infer n) ∧
      (infer .colon).all (fun c => isBlank c || c == ':') = true ∧
      ((infer .colon).count ':' = 1 ↔ ∀ text ∈ Separator.firstBetween? entries, text.count ':' = 1) ∧
      (infer .beforeOpen = [' '] ∨
        ∃ us, us ⊆ reader.drain.1 ∧ (∀ u ∈ us, u.isTrivia = true) ∧ Token.joined us = infer .beforeOpen ∧
          ((infer .beforeOpen).all isBlank = true ↔ ∀ u ∈ us, u.kind ≠ .comment)) ∧
      ∃ us, us ⊆ reader.drain.1 ∧ (∀ u ∈ us, u.isFiller reader.holes = true) ∧
        Token.joined us = infer .emptyBody ∧
        ((infer .emptyBody).all isBlank = true ↔ ∀ u ∈ us, u.kind ≠ .comment ∧ u.kind ≠ .semicolon ∧
          (u.isHole reader.holes = true → u.text.all isBlank = true)) := by
  intro reader
  obtain ⟨r', hr', hall⟩ := formatted_of_appends happends hr (Root.formatted_of_parse hparse)
  have hentries : ∀ x ∈ descendants r'.nodes, x.node.Formatted reader.holes reader.drain.1 := by
    rw [descendants_eq_preorder]
    exact hall.preorder 1 0
  have hlegible : ∀ t ∈ reader.drain.1, t.Legible := fun t => Token.legible_of_mem_drain
  refine ⟨r', hr', r'.css_filled, fun n hn place => ?_, Separator.all_infer_colon _, Separator.count_infer_colon _,
    (Separator.infer_beforeOpen hentries).imp id (Text.MadeOf.blank_iff_of_trivia hlegible),
    (Separator.infer_emptyBody hentries).blank_iff_of_filler hlegible⟩
  rw [Node.filled_raws]
  exact Node.filledRaws_of_bare (fun s => Separator.blank_infer hentries) hn place

/-- A rule with a declaration in it, at the end of a root that has one. -/
theorem inferred_of_parse_rule :
    ∃ r d' r', Root.parse ⟨"a \x7b\n\tb : c\n\x7d".toList, .front, none⟩ [] = .ok r ∧
      Relation.ReflTransGen Appends ⟨[r], []⟩ d' ∧ d'.roots[0]? = some r' ∧ r'.css = Piece.texts r'.filled.pieces ∧
      (Separator.infer (descendants r'.nodes) .colon).all (fun c => isBlank c || c == ':') = true := by
  obtain ⟨r, hr⟩ : ∃ r, Root.parse ⟨"a \x7b\n\tb : c\n\x7d".toList, .front, none⟩ [] = .ok r :=
    exists_ok_of_isOk (by decide +kernel)
  have happends : Relation.ReflTransGen Appends ⟨[r], []⟩ ⟨[{ r with nodes := r.nodes ++
      [.block (.rule "d".toList) [.leaf (.declaration "e".toList "f".toList false) {} none] {} none] }], []⟩ :=
    .single ⟨⟨0, []⟩, _, rfl, rfl⟩
  obtain ⟨r', hr', hcss, -, hcolon, -⟩ := inferred_of_parse (i := 0) hr rfl happends
  exact ⟨r, _, r', hr, happends, hr', hcss, hcolon⟩

/-- A comment in front of a block, a semicolon and a hole in an empty one, two colons and no colon: each is repeated. -/
theorem inferred_of_parse_copies :
    let rule : Node := .block (.rule "b".toList) [] {} none
    let declaration : Node := .leaf (.declaration "c".toList "d".toList false) {} none
    printedWith "a /* x */ \x7b\x7d".toList [] [] rule = some "a /* x */ \x7b\x7d\nb /* x */ \x7b\x7d".toList ∧
    printedWith "a \x7b;\x7d".toList [] [] rule = some "a \x7b;\x7d\nb \x7b;\x7d".toList ∧
    printedWith "a \x7b$\x7bx\x7d\x7d".toList [⟨3, 6⟩] [] rule =
      some "a \x7b$\x7bx\x7d\x7d\nb \x7b$\x7bx\x7d\x7d".toList ∧
    printedWith "a: /* x:y */ b;".toList [] [] declaration = some "a: /* x:y */ b;c:  :  d;".toList ∧
    printedWith ":a;".toList [] [] declaration = some ":a;cd;".toList := by
  decide +kernel

end Document
end TaggedStyles
