import Mathlib.Data.List.Forall2
import Mathlib.Data.List.Induction
import TaggedStyles.Document.Basic
import TaggedStyles.Proofs.Printer.Splice
import TaggedStyles.Proofs.Tree.Layout

/-! Rendering the nested roots of a document, shorter ones first. What holds of a root's print whenever it
holds of all roots printed before it holds of all of them (`Rendered.ofRoots_renders`). -/
namespace TaggedStyles
set_option autoImplicit false

/-! ## Lists side by side -/

theorem forall₂_mem_left {α β : Type} {R : α → β → Prop} {as : List α} {bs : List β}
    (h : List.Forall₂ R as bs) {a : α} (ha : a ∈ as) : ∃ b ∈ bs, R a b := by
  induction h with
  | nil => simp at ha
  | @cons c d cs ds hcd _ ih =>
    rcases List.mem_cons.1 ha with rfl | ha
    · exact ⟨d, List.mem_cons_self, hcd⟩
    · obtain ⟨b, hb, hab⟩ := ih ha
      exact ⟨b, List.mem_cons_of_mem d hb, hab⟩

theorem forall₂_mem_right {α β : Type} {R : α → β → Prop} {as : List α} {bs : List β}
    (h : List.Forall₂ R as bs) {b : β} (hb : b ∈ bs) : ∃ a ∈ as, R a b := by
  induction h with
  | nil => simp at hb
  | @cons c d cs ds hcd _ ih =>
    rcases List.mem_cons.1 hb with rfl | hb
    · exact ⟨c, List.mem_cons_self, hcd⟩
    · obtain ⟨a, ha, hab⟩ := ih hb
      exact ⟨a, List.mem_cons_of_mem c ha, hab⟩

theorem forall₂_imp_of_mem {α β : Type} {R S : α → β → Prop} {as : List α} {bs : List β}
    (h : List.Forall₂ R as bs) (himp : ∀ a ∈ as, ∀ b ∈ bs, R a b → S a b) : List.Forall₂ S as bs := by
  induction h with
  | nil => exact .nil
  | @cons c d cs ds hcd _ ih =>
    refine .cons (himp c List.mem_cons_self d List.mem_cons_self hcd) (ih fun a ha b hb => ?_)
    exact himp a (List.mem_cons_of_mem c ha) b (List.mem_cons_of_mem d hb)

theorem forall₂_pairwise {α β : Type} {R : α → β → Prop} {S : α → α → Prop} {T : β → β → Prop} {as : List α}
    {bs : List β} (h : List.Forall₂ R as bs) (hS : as.Pairwise S)
    (hT : ∀ a b c d, R a b → R c d → S a c → T b d) : bs.Pairwise T := by
  induction h with
  | nil => exact .nil
  | @cons c d cs ds hcd hmore ih =>
    obtain ⟨hc, hcs⟩ := List.pairwise_cons.1 hS
    refine List.pairwise_cons.2 ⟨fun e he => ?_, ih hcs⟩
    obtain ⟨a, ha, hae⟩ := forall₂_mem_right hmore he
    exact hT c d a e hcd hae (hc a ha)

theorem forall₂_of_map_eq {α β γ : Type} {f : α → γ} {g : β → γ} {as : List α} {bs : List β}
    (h : bs.map g = as.map f) : List.Forall₂ (fun a b => g b = f a) as bs := by
  have heq : List.Forall₂ Eq (as.map f) (bs.map g) := by rw [h, List.forall₂_eq_eq_eq]
  rw [List.forall₂_map_left_iff, List.forall₂_map_right_iff] at heq
  exact heq.imp fun _ _ h => h.symm

theorem eq_of_mem_zip {α β : Type} {as : List α} {bs : List β} (h : as.Nodup) {a : α} {b b' : β}
    (hb : (a, b) ∈ as.zip bs) (hb' : (a, b') ∈ as.zip bs) : b = b' := by
  induction as generalizing bs with
  | nil => simp at hb
  | cons c cs ih =>
    cases bs with
    | nil => simp at hb
    | cons d ds =>
      obtain ⟨hc, hcs⟩ := List.nodup_cons.1 h
      rw [List.zip_cons_cons, List.mem_cons] at hb hb'
      rcases hb with hb | hb
      · obtain ⟨rfl, rfl⟩ := Prod.mk.inj hb
        rcases hb' with hb' | hb'
        · exact (Prod.mk.inj hb').2.symm
        · exact absurd (List.of_mem_zip hb').1 hc
      · rcases hb' with hb' | hb'
        · obtain ⟨rfl, rfl⟩ := Prod.mk.inj hb'
          exact absurd (List.of_mem_zip hb).1 hc
        · exact ih hcs hb hb'

theorem forall₂_same_eq {α : Type} {R : α → α → Prop} {as bs : List α} (h : List.Forall₂ R as bs)
    (hsame : ∀ a ∈ as, ∀ b, R a b → b = a) : bs = as := by
  induction h with
  | nil => rfl
  | @cons a b as bs hab _ ih =>
    rw [hsame a List.mem_cons_self b hab, ih fun c hc => hsame c (List.mem_cons_of_mem a hc)]

theorem forall₂_one_other {α : Type} {R : α → α → Prop} {ls ms bs : List α} {a : α}
    (h : List.Forall₂ R (ls ++ a :: ms) bs) (hsame : ∀ c ∈ ls ++ ms, ∀ d, R c d → d = c) :
    ∃ b, bs = ls ++ b :: ms ∧ R a b := by
  induction ls generalizing bs with
  | nil =>
    cases h with
    | @cons _ b _ bs hab hmore => exact ⟨b, by rw [forall₂_same_eq hmore hsame]; rfl, hab⟩
  | cons c ls ih =>
    cases h with
    | @cons _ d _ bs hcd hmore =>
      obtain ⟨b, rfl, hab⟩ := ih hmore fun e he => hsame e (List.mem_cons_of_mem c he)
      rw [hsame c List.mem_cons_self d hcd]
      exact ⟨b, rfl, hab⟩

theorem forall₂_trans {α β γ : Type} {R : α → β → Prop} {S : β → γ → Prop} {T : α → γ → Prop} {as : List α}
    {bs : List β} {cs : List γ} (h : List.Forall₂ R as bs) (h' : List.Forall₂ S bs cs)
    (hRS : ∀ a b c, R a b → S b c → T a c) : List.Forall₂ T as cs := by
  induction h generalizing cs with
  | nil =>
    cases h'
    exact .nil
  | @cons a b as bs hab _ ih =>
    cases h' with
    | @cons _ c _ cs hbc hmore => exact .cons (hRS a b c hab hbc) (ih hmore)

theorem forall₂_set {α : Type} {R : α → α → Prop} {as : List α} {i : Nat} {a b : α} (hself : ∀ c, R c c)
    (ha : as[i]? = some a) (hab : R a b) : List.Forall₂ R as (as.set i b) := by
  obtain ⟨hi, rfl⟩ := List.getElem?_eq_some_iff.1 ha
  conv_lhs => rw [← List.take_append_drop i as, List.drop_eq_getElem_cons hi]
  rw [List.set_eq_take_append_cons_drop, if_pos hi]
  exact List.rel_append (List.forall₂_same.2 fun c _ => hself c)
    (.cons hab (List.forall₂_same.2 fun c _ => hself c))

/-! ## Rendered roots -/

theorem Root.isComponent_of_role {r r' : Root} (h : r'.role = r.role) : r'.isComponent = r.isComponent := by
  unfold Root.isComponent
  rw [h]

theorem Root.written_of_role {r r' : Root} (h : r'.role = r.role) : r'.written? = r.written? := by
  unfold Root.written?
  rw [h]

namespace Rendered

/-- `x` is a root as it was rendered, and its content is as `Q` says. -/
structure Renders (Q : Root → Text → Prop) (r : Root) (x : Rendered) : Prop where
  start : x.start = r.rangeStart
  stop : x.stop = r.rangeEnd
  written : x.written = r.written?.getD []
  content : Q r x.content

/-- The nested roots among some, in the order in which they are rendered. -/
def inOrder (roots : List Root) : List Root := sorted lengthLe (roots.filter (!·.isComponent))

theorem mem_inOrder {roots : List Root} {r : Root} : r ∈ inOrder roots ↔ r ∈ roots ∧ r.isComponent = false := by
  rw [inOrder, mem_sorted, List.mem_filter, Bool.not_eq_true']

theorem inOrder_sorted (roots : List Root) : (inOrder roots).Pairwise (lengthLe · · = true) := by
  refine pairwise_sorted (fun a b => ?_) (fun a b c hab hbc => ?_) _
  · simp only [lengthLe, decide_eq_true_eq]
    omega
  · simp only [lengthLe, decide_eq_true_eq] at *
    omega

theorem mem_earlier {roots earlier later : List Root} {r s : Root}
    (hsplit : inOrder roots = earlier ++ r :: later) (hs : s ∈ roots) (hnested : s.isComponent = false)
    (hlt : s.rangeEnd - s.rangeStart < r.rangeEnd - r.rangeStart) : s ∈ earlier := by
  have hmem := mem_inOrder.2 ⟨hs, hnested⟩
  have hsorted := inOrder_sorted roots
  rw [hsplit] at hmem hsorted
  rcases List.mem_append.1 hmem with h | h
  · exact h
  · have hr := (List.pairwise_cons.1 (List.pairwise_append.1 hsorted).2.1).1
    rcases List.mem_cons.1 h with rfl | h
    · omega
    · have hle := hr s h
      simp only [lengthLe, decide_eq_true_eq] at hle
      omega

theorem inOrder_set {roots : List Root} {R R' : Root} {i : Nat} (hR : roots[i]? = some R)
    (hnested : R.isComponent = false) (hnested' : R'.isComponent = false) (hstart : R'.rangeStart = R.rangeStart)
    (hstop : R'.rangeEnd = R.rangeEnd) :
    ∃ earlier later, inOrder roots = earlier ++ R :: later ∧
      inOrder (roots.set i R') = earlier ++ R' :: later := by
  obtain ⟨hi, rfl⟩ := List.getElem?_eq_some_iff.1 hR
  obtain ⟨earlier, later, h, h'⟩ := @sorted_exchange _ lengthLe roots[i] R'
    (fun c => by unfold lengthLe; rw [hstart, hstop]) (fun c => by unfold lengthLe; rw [hstart, hstop])
    ((roots.take i).filter (!·.isComponent)) ((roots.drop (i + 1)).filter (!·.isComponent))
  refine ⟨earlier, later, ?_, ?_⟩
  · rw [← h, inOrder]
    congr 1
    conv_lhs => rw [← List.take_append_drop i roots, List.drop_eq_getElem_cons hi]
    rw [List.filter_append, List.filter_cons_of_pos (by simp [hnested])]
  · rw [← h', inOrder, List.set_eq_take_append_cons_drop, if_pos hi, List.filter_append,
      List.filter_cons_of_pos (by simp [hnested'])]

/-- Some roots rendered one after the other. -/
def inTurn (rs : List Root) : List Rendered := rs.foldl (fun done r => done ++ [ofRoot done r]) []

theorem inTurn_concat (rs : List Root) (r : Root) : inTurn (rs ++ [r]) = inTurn rs ++ [ofRoot (inTurn rs) r] := by
  simp [inTurn]

theorem mem_inTurn_append {x : Rendered} {front : List Root} (h : x ∈ inTurn front) (rest : List Root) :
    x ∈ inTurn (front ++ rest) := by
  induction rest using List.reverseRecOn with
  | nil => rwa [List.append_nil]
  | append_singleton rest r ih =>
    rw [← List.append_assoc, inTurn_concat]
    exact List.mem_append_left _ ih

/-- By induction over the order of rendering. -/
theorem inTurn_renders {Q : Root → Text → Prop} {roots front rest : List Root}
    (hstep : ∀ earlier r later, inOrder roots = earlier ++ r :: later → ∀ done,
      List.Forall₂ (Renders Q) earlier done → Q r (r.print done))
    (hsplit : inOrder roots = front ++ rest) : List.Forall₂ (Renders Q) front (inTurn front) := by
  induction front using List.reverseRecOn generalizing rest with
  | nil => exact .nil
  | append_singleton front r ih =>
    rw [List.append_assoc] at hsplit
    have hdone := ih hsplit
    rw [inTurn_concat]
    exact List.rel_append hdone (.cons ⟨rfl, rfl, rfl, hstep front r rest hsplit _ hdone⟩ .nil)

theorem ofRoots_renders {Q : Root → Text → Prop} {roots : List Root}
    (hstep : ∀ earlier r later, inOrder roots = earlier ++ r :: later → ∀ done,
      List.Forall₂ (Renders Q) earlier done → Q r (r.print done)) :
    List.Forall₂ (Renders Q) (inOrder roots) (ofRoots roots) :=
  inTurn_renders hstep (List.append_nil _).symm

end Rendered

/-! ## Printing with unchanged roots -/

theorem Piece.prints_of_unchanged {rendered : List Rendered} (h : ∀ x ∈ rendered, x.content = x.written)
    (ps : List Piece) : Piece.prints rendered ps = Piece.texts ps :=
  Piece.prints_of_splice_eq fun _ _ _ => splice_of_unchanged fun x hx _ => h x hx

theorem Lays.sublist_prints {cut seam : Nat → Prop} {o i : Nat} {ps : List Piece} {w p : Text}
    {rendered : List Rendered} (h : Lays cut seam o i ps w p)
    (hkeep : ∀ t stop, Piece.raw t (some stop) ∈ ps → t.Sublist (splice rendered t stop)) :
    w.Sublist (Piece.prints rendered ps) := by
  have hprints := Piece.sublist_prints hkeep
  rw [h.texts] at hprints
  exact h.sublist.trans hprints

/-- Pieces print alone if what stands in their part of the source is unchanged. -/
theorem Lays.prints_of_unchanged {cut seam : Nat → Prop} {o i : Nat} {ps : List Piece} {w p : Text}
    {rendered : List Rendered} (h : Lays cut seam o i ps w p)
    (hall : ∀ x ∈ rendered, x.Within (o + i) (o + i + w.size) → x.content = x.written) :
    Piece.prints rendered ps = p := by
  induction h with
  | nil => rfl
  | @plain i t ps w p _ ih =>
    rw [Text.size_append] at hall
    have hmore := ih fun x hx hin => hall x hx (Rendered.Within.mono hin (by omega) (by omega))
    rw [Piece.prints_cons, Piece.print, hmore]
  | @raw i t ps w p _ _ _ ih =>
    rw [Text.size_append] at hall
    have hmore := ih fun x hx hin => hall x hx (Rendered.Within.mono hin (by omega) (by omega))
    have hraw : Printer.raw rendered t (some (o + (i + t.size))) = t :=
      splice_of_unchanged fun x hx hin => hall x hx (Rendered.Within.mono hin (by omega) (by omega))
    rw [Piece.prints_cons, Piece.print, hraw, hmore]
  | @semicolon i ps w p _ ih =>
    rw [Text.size_cons] at hall
    have hc : (';' : Char).utf8Size = 1 := by decide
    have hmore := ih fun x hx hin => hall x hx (Rendered.Within.mono hin (by omega) (by omega))
    rw [Piece.prints_cons, Piece.print, hmore]
    rfl
  | added _ _ ih =>
    rw [Piece.prints_cons, Piece.print, ih hall]
    rfl

end TaggedStyles
