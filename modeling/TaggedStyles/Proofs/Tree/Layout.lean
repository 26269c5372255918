import TaggedStyles.Tree.Builder
import TaggedStyles.Proofs.Printer.Pieces
import TaggedStyles.Proofs.Text.Slice

/-! Where the pieces of a tree stand in the text it was read from. `Lays` puts pieces one behind the other:
all are written in the text but for some semicolons, and each raw says where it ends. A builder prints as
pieces too, its open blocks included. -/
namespace TaggedStyles
set_option autoImplicit false

/-! ## Pieces in their places -/

/-- Pieces that start at offset `i` of a text whose own offset in the source is `o`, with what is written
there and with what they print. A raw has a place to cut on either side, and a semicolon is added at a seam
only. -/
inductive Lays (cut seam : Nat → Prop) (o : Nat) : Nat → List Piece → (written printed : Text) → Prop
  | nil {i : Nat} : Lays cut seam o i [] [] []
  | plain {i : Nat} {t : Text} {ps : List Piece} {w p : Text} : Lays cut seam o (i + t.size) ps w p →
      Lays cut seam o i (.plain t :: ps) (t ++ w) (t ++ p)
  | raw {i : Nat} {t : Text} {ps : List Piece} {w p : Text} : cut i → cut (i + t.size) →
      Lays cut seam o (i + t.size) ps w p → Lays cut seam o i (.raw t (some (o + (i + t.size))) :: ps) (t ++ w) (t ++ p)
  | semicolon {i : Nat} {ps : List Piece} {w p : Text} : Lays cut seam o (i + 1) ps w p →
      Lays cut seam o i (.semicolon :: ps) (';' :: w) (';' :: p)
  | added {i : Nat} {ps : List Piece} {w p : Text} : seam i → Lays cut seam o i ps w p →
      Lays cut seam o i (.semicolon :: ps) w (';' :: p)

namespace Lays
variable {cut seam : Nat → Prop} {o i : Nat} {ps qs : List Piece} {w p w' p' : Text}

theorem append (h : Lays cut seam o i ps w p) (h' : Lays cut seam o (i + w.size) qs w' p') :
    Lays cut seam o i (ps ++ qs) (w ++ w') (p ++ p') := by
  induction h with
  | nil => simpa using h'
  | plain _ ih =>
    rw [Text.size_append, ← Nat.add_assoc] at h'
    rw [List.append_assoc, List.append_assoc]
    exact .plain (ih h')
  | raw hc hc' _ ih =>
    rw [Text.size_append, ← Nat.add_assoc] at h'
    rw [List.append_assoc, List.append_assoc]
    exact .raw hc hc' (ih h')
  | semicolon _ ih =>
    have hc : (';' : Char).utf8Size = 1 := by decide
    rw [Text.size_cons, hc, ← Nat.add_assoc] at h'
    exact .semicolon (ih h')
  | added hs _ ih => exact .added hs (ih h')

theorem texts (h : Lays cut seam o i ps w p) : Piece.texts ps = p := by
  induction h with
  | nil => rfl
  | plain _ ih | raw _ _ _ ih | semicolon _ ih | added _ _ ih => rw [Piece.texts_cons, ih]; rfl

theorem split (h : Lays cut seam o i (ps ++ qs) w p) : ∃ w₁ w₂ p₁ p₂, w = w₁ ++ w₂ ∧ p = p₁ ++ p₂ ∧
    Lays cut seam o i ps w₁ p₁ ∧ Lays cut seam o (i + w₁.size) qs w₂ p₂ := by
  induction ps generalizing i w p with
  | nil => exact ⟨[], w, [], p, rfl, rfl, .nil, by simpa using h⟩
  | cons q ps ih =>
    cases h with
    | plain hmore =>
      obtain ⟨w₁, w₂, p₁, p₂, rfl, rfl, hfront, hback⟩ := ih hmore
      refine ⟨_, w₂, _, p₂, (List.append_assoc ..).symm, (List.append_assoc ..).symm, .plain hfront, ?_⟩
      rwa [Text.size_append, ← Nat.add_assoc]
    | raw hc hc' hmore =>
      obtain ⟨w₁, w₂, p₁, p₂, rfl, rfl, hfront, hback⟩ := ih hmore
      refine ⟨_, w₂, _, p₂, (List.append_assoc ..).symm, (List.append_assoc ..).symm, .raw hc hc' hfront, ?_⟩
      rwa [Text.size_append, ← Nat.add_assoc]
    | semicolon hmore =>
      obtain ⟨w₁, w₂, p₁, p₂, rfl, rfl, hfront, hback⟩ := ih hmore
      have hc : (';' : Char).utf8Size = 1 := by decide
      refine ⟨_, w₂, _, p₂, rfl, rfl, .semicolon hfront, ?_⟩
      rwa [Text.size_cons, hc, ← Nat.add_assoc]
    | added hs hmore =>
      obtain ⟨w₁, w₂, p₁, p₂, rfl, rfl, hfront, hback⟩ := ih hmore
      exact ⟨w₁, w₂, _, p₂, rfl, rfl, .added hs hfront, hback⟩

theorem raw_mem (h : Lays cut seam o i ps w p) {t : Text} {stop : Nat} (hmem : Piece.raw t (some stop) ∈ ps) :
    ∃ front back, w = front ++ t ++ back ∧ stop = o + (i + front.size + t.size) := by
  obtain ⟨before, behind, rfl⟩ := List.append_of_mem hmem
  obtain ⟨front, w₂, _, _, rfl, -, -, hraw⟩ := h.split
  cases hraw with
  | raw _ _ _ => exact ⟨front, _, (List.append_assoc ..).symm, rfl⟩

/-- A piece that is no raw is written in the text too, and each raw ends in front of it or starts behind it. -/
theorem plain_mem (h : Lays cut seam o i ps w p) {t : Text} (hmem : Piece.plain t ∈ ps) :
    ∃ front back, w = front ++ t ++ back ∧ ∀ u stop, Piece.raw u (some stop) ∈ ps →
      stop ≤ o + (i + front.size) ∨ o + (i + front.size + t.size) + u.size ≤ stop := by
  obtain ⟨before, behind, rfl⟩ := List.append_of_mem hmem
  obtain ⟨front, w₂, p₁, p₂, rfl, -, hfront, hback⟩ := h.split
  cases hback with
  | @plain _ _ _ back _ hbehind =>
    refine ⟨front, back, (List.append_assoc ..).symm, fun u stop hraw => ?_⟩
    simp only [List.mem_append, List.mem_cons, reduceCtorEq, false_or] at hraw
    rcases hraw with hraw | hraw
    · obtain ⟨a, c, rfl, rfl⟩ := hfront.raw_mem hraw
      simp only [Text.size_append]
      omega
    · obtain ⟨a, c, rfl, rfl⟩ := hbehind.raw_mem hraw
      omega

theorem sublist (h : Lays cut seam o i ps w p) : w.Sublist p := by
  induction h with
  | nil => exact .slnil
  | plain _ ih | raw _ _ _ ih => exact (List.Sublist.refl _).append ih
  | semicolon _ ih => exact ih.cons_cons ';'
  | added _ _ ih => exact ih.cons ';'

theorem size_le (h : Lays cut seam o i ps w p) : w.size ≤ p.size := by
  induction h with
  | nil => exact Nat.le_refl _
  | plain _ ih | raw _ _ _ ih =>
    rw [Text.size_append, Text.size_append]
    omega
  | semicolon _ ih | added _ _ ih =>
    simp only [Text.size_cons]
    omega

theorem eq_of_size (h : Lays cut seam o i ps w p) (hs : w.size = p.size) : w = p := by
  induction h with
  | nil => rfl
  | plain _ ih | raw _ _ _ ih =>
    rw [Text.size_append, Text.size_append] at hs
    rw [ih (by omega)]
  | semicolon _ ih =>
    simp only [Text.size_cons] at hs
    rw [ih (by omega)]
  | added _ hmore _ =>
    have hle := hmore.size_le
    have hpos := (';' : Char).utf8Size_pos
    simp only [Text.size_cons] at hs
    omega

/-- Away from seams nothing is added. -/
theorem eq_of_no_seam (h : Lays cut seam o i ps w p) (hno : ∀ j, i ≤ j → j ≤ i + w.size → ¬seam j) : w = p := by
  induction h with
  | nil => rfl
  | plain _ ih | raw _ _ _ ih =>
    rw [Text.size_append] at hno
    rw [ih fun j hfrom hto => hno j (by omega) (by omega)]
  | semicolon _ ih =>
    have hc : (';' : Char).utf8Size = 1 := by decide
    rw [Text.size_cons, hc] at hno
    rw [ih fun j hfrom hto => hno j (by omega) (by omega)]
  | added hseam => exact absurd hseam (hno _ (Nat.le_refl _) (by omega))

end Lays

/-! ## Pieces and what waits behind them -/

/-- Pieces from the front of a text on, with a text behind them that waits for a raw. -/
def Laid (cut seam : Nat → Prop) (o : Nat) (ps : List Piece) (pending written printed : Text) : Prop :=
  ∃ w p, Lays cut seam o 0 ps w p ∧ written = w ++ pending ∧ printed = p ++ pending ∧ cut w.size

namespace Laid
variable {cut seam : Nat → Prop} {o : Nat} {ps : List Piece} {pending w p : Text}

theorem wait (h : Laid cut seam o ps pending w p) (t : Text) : Laid cut seam o ps (pending ++ t) (w ++ t) (p ++ t) := by
  obtain ⟨w', p', hlays, rfl, rfl, hcut⟩ := h
  exact ⟨w', p', hlays, List.append_assoc .., List.append_assoc .., hcut⟩

/-- What waits goes into a raw, together with some text behind it, and more pieces follow. -/
theorem give (h : Laid cut seam o ps pending w p) {extra : Text} {qs : List Piece} {wq pq : Text}
    (hcut : cut (w ++ extra).size) (hq : Lays cut seam o (w ++ extra).size qs wq pq)
    (hend : cut (w ++ extra ++ wq).size) (rest : Text) :
    Laid cut seam o (ps ++ .raw (pending ++ extra) (some (o + (w ++ extra).size)) :: qs) rest
      (w ++ extra ++ wq ++ rest) (p ++ extra ++ pq ++ rest) := by
  obtain ⟨w', p', hlays, rfl, rfl, hcut'⟩ := h
  have hsize : (w' ++ pending ++ extra).size = w'.size + (pending ++ extra).size := by
    rw [List.append_assoc, Text.size_append]
  rw [hsize] at hcut hq ⊢
  have hraw : Lays cut seam o w'.size (.raw (pending ++ extra) (some (o + (w'.size + (pending ++ extra).size))) :: qs)
      (pending ++ extra ++ wq) (pending ++ extra ++ pq) := .raw hcut' hcut hq
  refine ⟨w' ++ (pending ++ extra ++ wq), p' ++ (pending ++ extra ++ pq), ?_, ?_, ?_, ?_⟩
  · exact hlays.append (by rwa [Nat.zero_add])
  · simp only [List.append_assoc]
  · simp only [List.append_assoc]
  · simpa only [List.append_assoc] using hend

end Laid

/-! ## Pieces of an unfinished tree -/

/-- What an open block prints in front of its children. -/
def Frame.pieces (f : Frame) : List Piece :=
  [.raw (f.raws.before.getD []) (f.raws.ends.before <|> some f.source.start.offset),
    .plain (f.header.text f.raws ++ f.raws.between.getD [] ++ ['\x7b'])]

/-- What a root and the blocks open in it print; `semicolon` is for the innermost, because all others have
a block behind their children. -/
def openPieces (nodes : List Node) (semicolon : Bool) : List Frame → List Piece
  | [] => piecesOf semicolon nodes
  | f :: fs => openPieces nodes true fs ++ f.pieces ++ piecesOf semicolon f.nodes

namespace Builder
variable {b : Builder}

def pieces (b : Builder) (semicolon : Bool) : List Piece := openPieces b.nodes semicolon b.frames

theorem pieces_add (n : Node) (semicolon : Bool) :
    (b.add n).pieces semicolon =
      b.pieces (semicolon || n.isSolid) ++ (.raw (n.raws.before.getD []) n.beforeEnd? :: n.pieces semicolon) := by
  have hone : piecesOf semicolon [n] = .raw (n.raws.before.getD []) n.beforeEnd? :: n.pieces semicolon := by
    simp [piecesOf]
  unfold pieces add mapNodes
  cases hframes : b.frames with
  | nil => simp only [openPieces, piecesOf_append, hone, List.any_cons, List.any_nil, Bool.or_false]
  | cons f fs =>
    simp only [openPieces, piecesOf_append, hone, List.any_cons, List.any_nil, Bool.or_false, List.append_assoc]
    rfl

end Builder
end TaggedStyles
