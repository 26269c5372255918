import TaggedStyles.Proofs.Printer.Lookup
import TaggedStyles.Proofs.Printer.Pieces

/-! Trees with their unset raws filled in. A filled tree (`Root.filled`) has every raw set to what its printer infers for
it, so it is complete; the tree prints what the filled one does, and so piece by piece. -/
namespace TaggedStyles
set_option autoImplicit false

/-! ## Filling in -/

/-- The raws of a leaf with those filled in that stand inside of it. -/
def Leaf.filledRaws (infer : Separator → Text) (raws : Raws) : Leaf → Raws
  | .declaration .. => { raws with between := some (raws.between.getD (infer .colon)) }
  | .atRule .. => raws
  | .comment _ =>
    { raws with
      left := some (raws.left.getD (infer .commentLeft))
      right := some (raws.right.getD (infer .commentRight)) }

/-- The semicolon of its own that a block is printed with. -/
def Header.ownSemicolon? (raws : Raws) : Header → Option Text
  | .rule _ => raws.ownSemicolon
  | .atRule .. => none

/-- The raws that a node is printed with at a place of a root. Those that are never looked at are unset. -/
def Node.filledRaws (look : Lookup Id) (place : Place) (n : Node) : Raws :=
  let before := some (Id.run (Printer.before look place n))
  match n with
  | .leaf content raws _ =>
    { content.filledRaws look.separator raws with before := before, after := none, ownSemicolon := none }
  | .block header ns raws _ =>
    { raws with
      before := before
      between := some (raws.between.getD (look.separator .beforeOpen))
      after := some (if ns.isEmpty then raws.after.getD (look.separator .emptyBody)
        else Id.run (Printer.afterChildren look place raws))
      semicolon := if ns.isEmpty then raws.semicolon else some (raws.semicolon.getD look.semicolon)
      ownSemicolon := header.ownSemicolon? raws }

mutual

/-- A node with the raws that it and the nodes below it are printed with. -/
def Node.filled (look : Lookup Id) (place : Place) : Node → Node
  | .leaf content raws source => .leaf content ((Node.leaf content raws source).filledRaws look place) source
  | .block header ns raws source =>
    .block header (filledAll look ⟨.block, place.depth + 1, 0⟩ ns)
      ((Node.block header ns raws source).filledRaws look place) source

/-- Siblings from a place on. -/
def filledAll (look : Lookup Id) (place : Place) : List Node → List Node
  | [] => []
  | n :: ns => n.filled look place :: filledAll look { place with index := place.index + 1 } ns

end

def Root.filled (r : Root) : Root :=
  let look := Lookup.fresh (descendants r.nodes)
  { r with
    nodes := filledAll look ⟨.root, 0, 0⟩ r.nodes
    semicolon := if r.nodes.isEmpty then r.semicolon else some (r.semicolon.getD look.semicolon) }

section
@[simp] theorem Node.filled_raws (look : Lookup Id) (place : Place) (n : Node) :
    (n.filled look place).raws = n.filledRaws look place := by
  cases n <;> rfl

@[simp] theorem Node.filled_before (look : Lookup Id) (place : Place) (n : Node) :
    (n.filled look place).raws.before = some (Id.run (Printer.before look place n)) := by
  cases n with
  | leaf content raws source => cases content <;> rfl
  | block header ns raws source => rfl

@[simp] theorem Node.filled_beforeEnd (look : Lookup Id) (place : Place) (n : Node) :
    (n.filled look place).beforeEnd? = n.beforeEnd? := by
  cases n with
  | leaf content raws source => cases content <;> rfl
  | block header ns raws source => rfl

@[simp] theorem Node.filled_isSolid (look : Lookup Id) (place : Place) (n : Node) :
    (n.filled look place).isSolid = n.isSolid := by
  cases n with
  | leaf content raws source => cases content <;> rfl
  | block header ns raws source => rfl

@[simp] theorem any_isSolid_filledAll (look : Lookup Id) (place : Place) (ns : List Node) :
    (filledAll look place ns).any Node.isSolid = ns.any Node.isSolid := by
  induction ns generalizing place with
  | nil => rfl
  | cons n ns ih => rw [filledAll, List.any_cons, List.any_cons, Node.filled_isSolid, ih]

@[simp] theorem isEmpty_filledAll (look : Lookup Id) (place : Place) (ns : List Node) :
    (filledAll look place ns).isEmpty = ns.isEmpty := by
  cases ns <;> rfl

@[simp] theorem lastSolid_filledAll (look : Lookup Id) (place : Place) (ns : List Node) :
    lastSolid (filledAll look place ns) = lastSolid ns := by
  induction ns generalizing place with
  | nil => rfl
  | cons n ns ih => rw [filledAll, lastSolid_cons, lastSolid_cons, any_isSolid_filledAll, ih]

theorem filledAll_append (look : Lookup Id) (place : Place) (ns ms : List Node) :
    filledAll look place (ns ++ ms) =
      filledAll look place ns ++ filledAll look { place with index := place.index + ns.length } ms := by
  induction ns generalizing place with
  | nil => rfl
  | cons n ns ih =>
    rw [List.cons_append, filledAll, filledAll, ih, List.length_cons, List.cons_append]
    simp only [Nat.add_assoc, Nat.add_comm 1]

theorem filledAll_set (look : Lookup Id) (place : Place) (ns : List Node) (i : Nat) (m : Node) :
    filledAll look place (ns.set i m) =
      (filledAll look place ns).set i (m.filled look { place with index := place.index + i }) := by
  induction ns generalizing place i with
  | nil => rfl
  | cons n ns ih =>
    cases i with
    | zero => rfl
    | succ i =>
      rw [List.set_cons_succ, filledAll, filledAll, ih, List.set_cons_succ]
      simp only [Nat.add_assoc, Nat.add_comm 1]

theorem filledAll_getElem? (look : Lookup Id) (place : Place) (ns : List Node) (i : Nat) :
    (filledAll look place ns)[i]? = ns[i]?.map (Node.filled look { place with index := place.index + i }) := by
  induction ns generalizing place i with
  | nil => rfl
  | cons n ns ih =>
    cases i with
    | zero => rfl
    | succ i =>
      rw [filledAll, List.getElem?_cons_succ, ih, List.getElem?_cons_succ]
      simp only [Nat.add_assoc, Nat.add_comm 1]

/-! ## Filled trees are complete -/

mutual

theorem Node.filled_complete (look : Lookup Id) (place : Place) (n : Node) : (n.filled look place).Complete := by
  cases n with
  | leaf content raws source => cases content <;> simp [Node.filled, Node.Complete, Node.filledRaws, Leaf.Complete,
      Leaf.filledRaws]
  | block header ns raws source =>
    refine ⟨rfl, rfl, rfl, fun hne => ?_, ?_, filledAll_complete look ⟨.block, place.depth + 1, 0⟩ ns⟩
    · have hempty : ns.isEmpty = false := by
        rw [← isEmpty_filledAll look ⟨.block, place.depth + 1, 0⟩ ns]
        exact List.isEmpty_eq_false_iff.2 hne
      simp [Node.filledRaws, hempty]
    · rintro ⟨name, params, rfl⟩
      rfl

theorem filledAll_complete (look : Lookup Id) (place : Place) (ns : List Node) :
    CompleteAll (filledAll look place ns) := by
  cases ns with
  | nil => trivial
  | cons n ns =>
    exact ⟨Node.filled_complete look place n, filledAll_complete look { place with index := place.index + 1 } ns⟩

end

theorem Root.filled_complete (r : Root) : r.filled.Complete := by
  refine ⟨filledAll_complete _ _ r.nodes, fun hne => ?_⟩
  have hempty : r.nodes.isEmpty = false := by
    rw [← isEmpty_filledAll (Lookup.fresh (descendants r.nodes)) ⟨.root, 0, 0⟩ r.nodes]
    exact List.isEmpty_eq_false_iff.2 hne
  simp [Root.filled, hempty]

end

theorem some_getD {α : Type} {o : Option α} (h : o.isSome = true) {a : α} : some (o.getD a) = o := by
  obtain ⟨b, rfl⟩ := Option.isSome_iff_exists.1 h
  rfl

mutual

/-- There is nothing to fill in in a complete tree. -/
theorem Node.Complete.filled {n : Node} (h : n.Complete) (look : Lookup Id) (place : Place) :
    n.filled look place = n := by
  obtain ⟨before, hbefore⟩ := Option.isSome_iff_exists.1 h.before
  cases n with
  | leaf content raws source =>
    have hb : raws.before = some before := hbefore
    obtain ⟨-, hafter, hown, hinside⟩ := h
    cases raws
    simp only at hb hafter hown
    subst hb hafter hown
    cases content with
    | declaration prop value important =>
      obtain ⟨between, hbetween⟩ := Option.isSome_iff_exists.1 hinside
      simp only at hbetween
      subst hbetween
      rfl
    | atRule name params => rfl
    | comment text =>
      obtain ⟨left, hleft⟩ := Option.isSome_iff_exists.1 hinside.1
      obtain ⟨right, hright⟩ := Option.isSome_iff_exists.1 hinside.2
      simp only at hleft hright
      subst hleft hright
      rfl
  | block header ns raws source =>
    have hb : raws.before = some before := hbefore
    obtain ⟨-, hbetween, hafter, hsemicolon, hown, hall⟩ := h
    have hbefore' : some (Id.run (Printer.before look place (.block header ns raws source))) = raws.before := by
      unfold Printer.before
      rw [hbefore, hb]
      rfl
    have hafter' : some (if ns.isEmpty then raws.after.getD (look.separator .emptyBody)
        else Id.run (Printer.afterChildren look place raws)) = raws.after := by
      obtain ⟨after, hafter⟩ := Option.isSome_iff_exists.1 hafter
      rw [Printer.afterChildren, hafter]
      cases ns <;> rfl
    have hsemicolon' : (if ns.isEmpty then raws.semicolon else some (raws.semicolon.getD look.semicolon)) =
        raws.semicolon := by
      cases ns with
      | nil => rfl
      | cons m ms => exact some_getD (hsemicolon (List.cons_ne_nil m ms))
    have hheader : header.ownSemicolon? raws = raws.ownSemicolon := by
      cases header with
      | rule selector => rfl
      | atRule name params => exact (hown ⟨name, params, rfl⟩).symm
    rw [Node.filled, CompleteAll.filled hall, Node.filledRaws]
    simp only [hbefore', some_getD hbetween, hafter', hsemicolon', hheader]

theorem CompleteAll.filled {ns : List Node} (h : CompleteAll ns) (look : Lookup Id) (place : Place) :
    filledAll look place ns = ns := by
  cases ns with
  | nil => rfl
  | cons n ns =>
    rw [filledAll, Node.Complete.filled h.1 look place,
      CompleteAll.filled h.2 look { place with index := place.index + 1 }]

end

/-! ## Printing them -/

namespace Printer
variable (look : Lookup Id) (rendered : List Rendered)

theorem rawOr_filled {place : Place} (hplace : place.isFloating = false) (own : Option Text) (s : Separator) :
    rawOr look (some (own.getD (look.separator s))) place s = rawOr look own place s := by
  cases own with
  | some text => rfl
  | none =>
    simp only [rawOr, hplace, Option.getD_none]
    rfl

theorem leaf_filled {place : Place} (hplace : place.isFloating = false) (semicolon : Bool) (raws : Raws)
    (content : Leaf) :
    leaf look place semicolon (content.filledRaws look.separator raws) content =
      leaf look place semicolon raws content := by
  cases content with
  | declaration prop value important =>
    simp only [leaf, Leaf.filledRaws, rawOr_filled look hplace]
  | atRule name params => rfl
  | comment text =>
    simp only [leaf, Leaf.filledRaws, rawOr_filled look hplace]

theorem before_of_set {n : Node} {text : Text} (h : n.raws.before = some text) (place : Place) :
    before look place n = pure text := by
  rw [before.eq_def, h]

theorem before_filled (place : Place) (n : Node) :
    before look place (n.filled look place) = before look place n :=
  before_of_set look (Node.filled_before look place n) place

mutual

/-- A node is printed as it is filled in. -/
theorem node_filled {place : Place} (hplace : place.isFloating = false) (semicolon : Bool) (n : Node) :
    node look rendered place semicolon (n.filled look place) = node look rendered place semicolon n := by
  cases n with
  | leaf content raws source =>
    rw [Node.filled, node, node]
    refine Eq.trans ?_ (leaf_filled look hplace semicolon raws content)
    cases content <;> rfl
  | block header ns raws source =>
    have hplace' : (⟨.block, place.depth + 1, 0⟩ : Place).isFloating = false := rfl
    have hchildren := fun last semicolon => nodes_filled hplace' last semicolon ns
    have hheader : header.text ((Node.block header ns raws source).filledRaws look place) = header.text raws := by
      cases header <;> rfl
    have hown : ownSemicolon rendered ((Node.block header ns raws source).filledRaws look place) header =
        ownSemicolon rendered raws header := by
      cases header <;> rfl
    have hbetween : rawOr look ((Node.block header ns raws source).filledRaws look place).between place .beforeOpen =
        rawOr look raws.between place .beforeOpen := rawOr_filled look hplace raws.between .beforeOpen
    have hends : ((Node.block header ns raws source).filledRaws look place).ends = raws.ends := rfl
    rw [Node.filled, node, node]
    simp only [hheader, hown, hbetween, hends, isEmpty_filledAll, lastSolid_filledAll, hchildren]
    cases ns with
    | nil =>
      have hafter : rawOr look ((Node.block header [] raws source).filledRaws look place).after place .emptyBody =
          rawOr look raws.after place .emptyBody := rawOr_filled look hplace raws.after .emptyBody
      simp only [List.isEmpty_nil, if_true, hafter]
    | cons m ms =>
      have hsemicolon : ((Node.block header (m :: ms) raws source).filledRaws look place).semicolon =
          some (raws.semicolon.getD look.semicolon) := rfl
      have hafter : afterChildren look place ((Node.block header (m :: ms) raws source).filledRaws look place) =
          afterChildren look place raws := rfl
      simp only [List.isEmpty_cons, Bool.false_eq_true, if_false, hsemicolon, hafter]
      cases raws.semicolon with
      | some semicolon => rfl
      | none =>
        simp only [hplace]
        rfl

theorem nodes_filled {place : Place} (hplace : place.isFloating = false) (last : Nat) (semicolon : Bool)
    (ns : List Node) :
    nodes look rendered place last semicolon (filledAll look place ns) =
      nodes look rendered place last semicolon ns := by
  cases ns with
  | nil => rfl
  | cons n ns =>
    have hplace' : ({ place with index := place.index + 1 } : Place).isFloating = false := hplace
    have hmore := nodes_filled hplace' last semicolon ns
    simp only [filledAll, nodes, before_filled, node_filled hplace, Node.filled_beforeEnd, hmore]

end

theorem body_filled (r : Root) : body (Lookup.fresh (descendants r.nodes)) rendered r =
    Piece.prints rendered (piecesOf (r.filled.semicolon.getD false) r.filled.nodes) := by
  have hpieces := nodes_complete (Lookup.fresh (descendants r.nodes)) rendered ⟨.root, 0, 0⟩ (lastSolid r.filled.nodes)
    (r.filled.semicolon.getD false) r.filled.nodes r.filled_complete.1 fun _ => (Nat.zero_add _).symm
  refine Eq.trans ?_ hpieces
  unfold Root.filled
  simp only
  rw [nodes_filled _ _ rfl, lastSolid_filledAll]
  cases hnil : r.nodes with
  | nil =>
    unfold body
    rw [hnil]
    cases r.semicolon <;> rfl
  | cons n ns =>
    unfold body
    rw [hnil]
    cases r.semicolon <;> rfl

end Printer

namespace Root

theorem print_filled (r : Root) (rendered : List Rendered) :
    r.print rendered = r.codeBefore?.getD [] ++ Piece.prints rendered r.filled.pieces ++ r.codeAfter?.getD [] := by
  have hpieces : Piece.prints rendered r.filled.pieces =
      Id.run (Printer.body (Lookup.fresh (descendants r.nodes)) rendered r) ++
        Printer.raw rendered r.after (some r.rangeEnd) := by
    rw [pieces, Piece.prints_append, Printer.body_filled, Piece.prints_cons, Piece.prints_nil, List.append_nil]
    rfl
  rw [print_eq_fresh, hpieces, ← List.append_assoc]
  rfl

theorem css_filled (r : Root) : r.css = Piece.texts r.filled.pieces := by
  rw [css_eq_fresh, pieces, Piece.texts_append, Printer.body_filled, Piece.prints_nothing, Piece.texts_cons,
    Piece.texts_nil, List.append_nil]
  rfl

end Root
end TaggedStyles
