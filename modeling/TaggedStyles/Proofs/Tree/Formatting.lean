import TaggedStyles.Proofs.Tree.Moves

/-! What the raws of a parsed tree are made of. At both ends of a comment blank characters are kept apart from its text;
spaces and comments stand in front of the mark that opens a block or ends an at-rule; and in front of a closing mark
stands what waited there, which is filler. -/
namespace TaggedStyles
set_option autoImplicit false

/-! ## Blank text -/

namespace Text

theorem blank_takeStart (t : Text) : (t.take (t.length - t.trimStart.length)).all isBlank = true := by
  have hsplit : t.takeWhile isBlank ++ t.trimStart = t := List.takeWhile_append_dropWhile
  have hlen := congrArg List.length hsplit
  rw [List.length_append] at hlen
  have htake : t.take (t.length - t.trimStart.length) = t.takeWhile isBlank := by
    conv_lhs => rw [← hsplit]
    exact List.take_left' (by rw [hsplit]; omega)
  rw [htake]
  exact List.all_takeWhile

theorem blank_dropEnd (t : Text) : (t.drop t.trimEnd.length).all isBlank = true := by
  have hsplit : t.trimEnd ++ (t.reverse.takeWhile isBlank).reverse = t := by
    rw [trimEnd, ← List.reverse_append, List.takeWhile_append_dropWhile, List.reverse_reverse]
  have hback : ((t.reverse.takeWhile isBlank).reverse).all isBlank = true := by
    rw [List.all_reverse]
    exact List.all_takeWhile
  generalize (t.reverse.takeWhile isBlank).reverse = back at hsplit hback
  generalize t.trimEnd = front at hsplit ⊢
  rw [← hsplit, List.drop_left]
  exact hback

theorem blank_of_trim_nil {t : Text} (h : t.trimStart.trimEnd = []) : t.all isBlank = true := by
  rw [← trim_parts t, h, List.append_nil, List.all_append, blank_takeStart, Bool.true_and, ← h]
  exact blank_dropEnd t.trimStart

end Text

/-! ## Nodes -/

/-- What the raws are made of that stand inside a node. -/
structure Node.Formatted (holes : List Hole) (ts : List Token) (n : Node) : Prop where
  left : ∀ text ∈ n.raws.left, text.all isBlank = true
  right : ∀ text ∈ n.raws.right, text.all isBlank = true
  between : n.isDeclaration = false → ∀ text ∈ n.raws.between, Text.MadeOf Token.isTrivia ts text
  after : ∀ text ∈ n.raws.after, Text.MadeOf (Token.isFiller holes) ts text

namespace Builder
variable {b b' : Builder} {t : Token} {ts : List Token} {holes : List Hole}

theorem comment_sides (b : Builder) (t : Token) : ∃ raws source text,
    b.comment t = { b with pending := [] }.add (.leaf (.comment text) raws source) ∧
      raws.between = none ∧ raws.after = none ∧ (∀ text ∈ raws.left, text.all isBlank = true) ∧
      ∀ text ∈ raws.right, text.all isBlank = true := by
  unfold comment
  generalize (t.text.drop 2).take (t.text.length - 4) = inner
  simp only
  split
  · rename_i hempty
    refine ⟨_, _, _, rfl, rfl, rfl, ?_, ?_⟩
    · rintro text ⟨⟩
      exact Text.blank_of_trim_nil (List.isEmpty_iff.1 hempty)
    · rintro text ⟨⟩
      rfl
  · refine ⟨_, _, _, rfl, rfl, rfl, ?_, ?_⟩
    · rintro text ⟨⟩
      exact Text.blank_takeStart inner
    · rintro text ⟨⟩
      exact Text.blank_dropEnd _

/-- A builder over some tokens whose nodes are formatted so, and whose open blocks have begun. -/
structure Formatted (holes : List Hole) (ts : List Token) (b : Builder) : Prop where
  every : b.Every (Node.Formatted holes ts) fun _ raws _ =>
    raws.left = none ∧ raws.right = none ∧ raws.Between ts ∧ raws.after = none
  sameHoles : b.holes = holes
  pending : Text.MadeOf (Token.isFiller holes) ts b.pending

namespace Formatted

theorem wait (h : b.Formatted holes ts) (ht : t ∈ ts) (hfiller : t.isFiller b.holes = true) :
    (b.wait t.text).Formatted holes ts :=
  ⟨⟨h.every.nodes, h.every.frames⟩, h.sameHoles, h.pending.append (.single ht (h.sameHoles ▸ hfiller))⟩

theorem comment (h : b.Formatted holes ts) (t : Token) : (b.comment t).Formatted holes ts := by
  obtain ⟨raws, source, text, he, hbetween, hafter, hleft, hright⟩ := comment_sides b t
  rw [he]
  refine ⟨Every.add (b := { b with pending := [] }) ⟨h.every.nodes, h.every.frames⟩ ⟨hleft, hright, ?_, ?_⟩,
    (mapNodes_holes _ _).trans h.sameHoles, ?_⟩
  · intro _ text (hmem : text ∈ raws.between)
    rw [hbetween] at hmem
    cases hmem
  · intro text (hmem : text ∈ raws.after)
    rw [hafter] at hmem
    cases hmem
  · unfold add
    rw [mapNodes_pending]
    exact .nothing _ ts

theorem freeSemicolon (h : b.Formatted holes ts) (ht : t ∈ ts) (hk : t.kind = .semicolon) :
    (b.freeSemicolon t).Formatted holes ts := by
  have hfiller : t.isFiller b.holes = true := by simp [Token.isFiller, hk]
  unfold Builder.freeSemicolon
  split
  · rename_i selector nodes raws source hlast
    split
    · exact h.wait ht hfiller
    · obtain ⟨⟨hleft, hright, hbetween, hafter⟩, hinner⟩ := h.every.lastNode hlast
      refine ⟨?_, (mapNodes_holes _ _).trans h.sameHoles, ?_⟩
      · exact Every.replaceLast (b := { b with pending := [] }) ⟨h.every.nodes, h.every.frames⟩
          ⟨⟨hleft, hright, hbetween, hafter⟩, hinner⟩
      · rw [mapNodes_pending]
        exact .nothing _ ts
  · exact h.wait ht hfiller

theorem close (h : b.Formatted holes ts) (hb : b.close t = .ok b') : b'.Formatted holes ts := by
  unfold Builder.close at hb
  split at hb
  · cases hb
  · rename_i f fs he
    obtain rfl := Except.ok.inj hb
    have hframes := h.every.frames
    rw [he] at hframes
    obtain ⟨⟨⟨hleft, hright, ⟨between, hbetween, hmade⟩, hafter⟩, hinner⟩, hothers⟩ := List.forall_mem_cons.1 hframes
    refine ⟨Every.add (b := { b with frames := fs, pending := [], semicolon := false }) ⟨h.every.nodes, hothers⟩
      ⟨⟨?_, ?_, ?_, ?_⟩, hinner⟩, (mapNodes_holes _ _).trans h.sameHoles, ?_⟩
    · intro text (hmem : text ∈ f.raws.left)
      rw [hleft] at hmem
      cases hmem
    · intro text (hmem : text ∈ f.raws.right)
      rw [hright] at hmem
      cases hmem
    · intro _ text (hmem : text ∈ f.raws.between)
      rw [hbetween] at hmem
      exact Option.some.inj hmem ▸ hmade
    · rintro text ⟨⟩
      rw [hafter]
      exact h.pending
    · unfold add
      rw [mapNodes_pending]
      exact .nothing _ ts

theorem move (h : b.Formatted holes ts) (hmove : Move ts b b') : b'.Formatted holes ts := by
  cases hmove with
  | wait semicolon hwaits =>
    obtain ⟨text, hmade, hwaits⟩ := hwaits
    rw [h.sameHoles] at hmade
    refine ⟨⟨h.every.nodes, h.every.frames⟩, h.sameHoles, ?_⟩
    rcases hwaits with rfl | rfl
    · exact hmade
    · exact h.pending.append hmade
  | @leaf content raws source semicolon hleaf =>
    refine ⟨Every.add (b := { b with semicolon := semicolon }) ⟨h.every.nodes, h.every.frames⟩ ⟨?_, ?_, ?_, ?_⟩,
      (mapNodes_holes _ _).trans h.sameHoles, ?_⟩
    · intro text (hmem : text ∈ raws.left)
      rw [hleaf.begun.sides.1] at hmem
      cases hmem
    · intro text (hmem : text ∈ raws.right)
      rw [hleaf.begun.sides.2] at hmem
      cases hmem
    · intro hdecl text (hmem : text ∈ raws.between)
      cases content with
      | declaration prop value important => cases hdecl
      | atRule name params =>
        obtain ⟨⟨between, hbetween, hmade⟩, -⟩ := hleaf.atRule name params rfl
        rw [hbetween] at hmem
        exact Option.some.inj hmem ▸ hmade
      | comment text => cases hleaf.solid
    · intro text (hmem : text ∈ raws.after)
      rw [hleaf.begun.after.1] at hmem
      cases hmem
    · unfold add
      rw [mapNodes_pending]
      exact h.pending
  | comment => exact h.comment _
  | openBlock hf =>
    refine ⟨h.every.openBlock ⟨hf.raws.sides.1, hf.raws.sides.2, hf.between, hf.raws.after.1⟩ hf.nodes, h.sameHoles, ?_⟩
    exact h.pending
  | close _ _ hb => exact h.close hb
  | freeSemicolon ht hk => exact h.freeSemicolon ht hk

end Formatted
end Builder

/-- What stands inside the nodes of a parsed tree is formatted so, by the tokens of its text. -/
theorem Root.formatted_of_parse {e : Excerpt} {holes : List Hole} {role : Role} {r : Root}
    (h : Root.parse e holes role = .ok r) :
    EveryIn (Node.Formatted (Reader.start e holes).holes (Reader.start e holes).drain.1) r.nodes := by
  obtain ⟨built, hnodes, hmoves⟩ := moves_of_parse h
  have hstart : Builder.Formatted (Reader.start e holes).holes (Reader.start e holes).drain.1
      { excerpt := e, holes := (Reader.start e holes).holes } := ⟨⟨trivial, by simp⟩, rfl, .nothing _ _⟩
  exact hnodes ▸ (hmoves.keep (fun b b' hmove hb => hb.move hmove) hstart).every.nodes

end TaggedStyles
