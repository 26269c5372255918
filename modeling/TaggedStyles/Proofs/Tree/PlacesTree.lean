import TaggedStyles.Proofs.Tree.Moves
import TaggedStyles.Proofs.Tree.Places
import TaggedStyles.Proofs.Tree.Raws

/-! Places in a parsed tree. Each operation on a builder keeps the places of its nodes between characters or fails at an
exact place, and so does parsing (`Builder.Placed`). Two places are not exact: a leaf at-rule and a missed semicolon are
told one byte behind the start of a character, which may be inside it. -/
namespace TaggedStyles
set_option autoImplicit false

/-! ## Nodes -/

/-- The end of an at-rule without a block is one byte behind the start of its last character, which is wider. -/
def Node.EndsInside (e : Excerpt) (stop : Nat) : Node → Prop
  | .leaf (.atRule _ params) raws _ => ∃ x c y, e.text = x ++ c :: y ∧ 1 < c.utf8Size ∧
      stop = e.origin.offset + Text.size x + 1 ∧ (RawValue.text raws.params params).getLast? = some c
  | _ => False

/-- A node starts and ends at places between characters, but for the end of an at-rule without a block. -/
def Node.InPlace (e : Excerpt) (n : Node) : Prop :=
  ∃ s, n.source = some s ∧ e.HasPlace s.start ∧ ∀ stop ∈ s.stop, e.HasCut stop.offset ∨ n.EndsInside e stop.offset

/-! ## Tokens -/

/-- Tokens that follow each other in the text, each where it says. -/
structure Excerpt.HasTokens (e : Excerpt) (ts : List Token) : Prop where
  placed : ∀ t ∈ ts, t.Placed e
  lined : ∃ x y, e.text = x ++ (Token.joined ts ++ y) ∧ Lined (Text.size x) ts

namespace Excerpt
variable {e : Excerpt} {t s : Token} {ts us : List Token}

theorem HasTokens.suffix (h : e.HasTokens ts) (hsuffix : us <:+ ts) : e.HasTokens us := by
  obtain ⟨vs, rfl⟩ := hsuffix
  obtain ⟨x, y, htext, hlined⟩ := h.lined
  refine ⟨fun t ht => h.placed t (List.mem_append_right vs ht), x ++ Token.joined vs, y, ?_, ?_⟩
  · rw [htext, Token.joined_append]
    simp only [List.append_assoc]
  · rw [Text.size_append]
    exact hlined.right

theorem hasTokens_drain (e : Excerpt) (holes : List Hole) : e.HasTokens (Reader.start e holes).drain.1 := by
  obtain ⟨-, rest, htext, -⟩ := Reader.drain_tiled (Cuts.trivial e.text (holes.filter (Hole.fits e.text.size)))
  exact ⟨Reader.drain_placed, [], rest, htext, Reader.drain_lined e holes⟩

/-- In front of the place behind a semicolon stand the semicolon and the token before it. -/
theorem HasTokens.behind_semicolon {vs : List Token} (h : e.HasTokens (us ++ t :: s :: vs)) (hs : s.kind = .semicolon) :
    ∃ x y, e.text = x ++ y ∧ t.text ++ [';'] <:+ x ∧ Text.size x = Run.behind s := by
  obtain ⟨x, y, htext, hlined⟩ := h.lined
  have hstart := hlined.right.tail.start (by rw [hs]; decide)
  have hmark : s.text = [';'] := hlined.right.tail.tiled.fits.text_of_mark (by rw [hs]; simp [Lexeme.IsMark])
  refine ⟨x ++ Token.joined us ++ t.text ++ [';'], Token.joined vs ++ y, ?_, ⟨x ++ Token.joined us, by simp⟩, ?_⟩
  · rw [htext, Token.joined_append, Token.joined_cons, Token.joined_cons, hmark]
    simp only [List.append_assoc]
  · rw [Run.behind, hstart, hmark, Option.getD_some]
    simp only [Text.size_append]

theorem hasPlace_head (hts : ∀ t ∈ ts, t.Placed e) : e.HasPlace (e.position ((ts.head?.bind (·.start)).getD 0)) := by
  cases ts with
  | nil => exact hasPlace_position (x := []) rfl
  | cons t ts => exact (hts t List.mem_cons_self).hasPlace

end Excerpt

namespace Token.Placed
variable {e : Excerpt} {t : Token} {a : Nat}

/-- One byte behind the start of the last character of a token that character has ended, or it is wider. -/
theorem behind (h : t.Placed e) (ha : t.anchor? = some a) : (∃ x y, e.text = x ++ y ∧ Text.size x = a + 1) ∨
    ∃ x c y, e.text = x ++ c :: y ∧ 1 < c.utf8Size ∧ Text.size x = a ∧ t.text.getLast? = some c := by
  obtain ⟨x, c, y, htext, rfl, hlast⟩ := h.anchor ha
  by_cases hwide : 1 < c.utf8Size
  · exact .inr ⟨x, c, y, htext, hwide, rfl, hlast⟩
  · have hpos := c.utf8Size_pos
    refine .inl ⟨x ++ [c], y, by rw [htext]; simp, ?_⟩
    rw [Text.size_append, Text.size_cons, Text.size_nil]
    omega

theorem hasPlace_anchor (h : t.Placed e) (ha : t.anchor? = some a) : e.HasPlace (e.position a) := by
  obtain ⟨x, c, y, htext, rfl, -⟩ := h.anchor ha
  exact Excerpt.hasPlace_position htext

theorem exists_last (h : t.Placed e) (hk : t.kind = .word ∨ t.kind = .comment) :
    ∃ a, t.last = some a ∧ t.anchor? = some a := by
  have hsome : t.last.isSome = true := by
    rcases h.last_isSome with hsome | hspace | ⟨c, hmark, -⟩
    · exact hsome
    · rw [hspace] at hk
      cases hk with
      | inl hk => cases hk
      | inr hk => cases hk
    · cases hk with
      | inl hk => simp [hk, Lexeme.IsMark] at hmark
      | inr hk => simp [hk, Lexeme.IsMark] at hmark
  obtain ⟨a, ha⟩ := Option.isSome_iff_exists.1 hsome
  exact ⟨a, ha, by rw [Token.anchor?, ha]; rfl⟩

theorem last_of_comment (h : t.Placed e) (hk : t.kind = .comment) : t.text.getLast? = some '/' := by
  have hspells := h.spells
  rw [hk] at hspells
  obtain ⟨inner, htext⟩ := hspells
  have hfront : t.text = '/' :: '*' :: inner ++ ['*', '/'] := htext
  rw [hfront, List.getLast?_append]
  rfl

theorem behind_comment (h : t.Placed e) (hk : t.kind = .comment) :
    e.HasCut (e.origin.offset + t.last.getD (t.start.getD 0) + 1) := by
  obtain ⟨a, ha, hanchor⟩ := h.exists_last (.inr hk)
  rw [ha, Option.getD_some]
  rcases h.behind hanchor with hcut | ⟨x, c, y, -, hwide, -, hlast⟩
  · exact Excerpt.hasCut_of_size hcut
  · rw [h.last_of_comment hk] at hlast
    obtain rfl := Option.some.inj hlast
    exact absurd hwide (by decide)

/-- A missed semicolon is told behind a word, or inside the last character of the word. -/
theorem fault_behind (h : t.Placed e) (hk : t.kind = .word) :
    (Fault.style (e.error .missedSemicolon ((t.last.map (· + 1)).getD 0))).Placed e := by
  obtain ⟨a, ha, hanchor⟩ := h.exists_last (.inl hk)
  rw [ha]
  rcases h.behind hanchor with ⟨x, y, htext, hsize⟩ | ⟨x, c, y, htext, hwide, rfl, -⟩
  · have hplace := Excerpt.hasPlace_position htext
    rw [hsize] at hplace
    exact Fault.placed_of_hasPlace hplace (by rintro _ ⟨⟩)
  · exact .inr ⟨rfl, x, c, y, htext, hwide, rfl⟩

theorem kind_of_custom (h : t.Placed e) (hcustom : t.isCustom = true) : t.kind = .word := by
  obtain ⟨more, hmore⟩ := List.isPrefixOf_iff_prefix.1 hcustom
  exact h.hyphen (by rw [← hmore]; rfl)

theorem not_hole_of_custom (h : t.Placed e) (hcustom : t.isCustom = true) {holes : List Hole}
    (hmarked : ∀ h ∈ holes, h.Marked e.text) : t.isHole holes = false := by
  obtain ⟨more, hmore⟩ := List.isPrefixOf_iff_prefix.1 hcustom
  obtain ⟨i, hi⟩ := Option.isSome_iff_exists.1 (h.start_isSome (by rw [h.kind_of_custom hcustom]; decide))
  obtain ⟨x, y, htext, hx⟩ := h.start i hi
  cases hlast : Hole.lastAt? holes i with
  | none => simp [Token.isHole, hi, hlast]
  | some last =>
    obtain ⟨g, hg, rfl, -⟩ := Hole.lastAt?_eq_some hlast
    obtain ⟨a, b, hdollar, ha, -⟩ := (hmarked g hg).opening
    rw [htext, ← hmore] at hdollar
    have hsame := (Text.append_inj_of_size hdollar (hx.trans ha.symm)).2
    cases hsame

end Token.Placed

/-! ## Runs -/

namespace Run
variable {ts us : List Token} {t u : Token}

theorem splitEnd_subset (p : Token → Bool) (ts : List Token) : (splitEnd p ts).1 ⊆ ts := by
  intro t ht
  rw [← splitEnd_append p ts]
  exact List.mem_append_left _ ht

theorem splitColon_subset {between between' : Text} (h : splitColon between ts = .ok (between', us)) : us ⊆ ts := by
  induction ts generalizing between with
  | nil =>
    obtain ⟨-, rfl⟩ := Prod.mk.inj (Except.ok.inj h)
    exact List.Subset.refl _
  | cons t ts ih =>
    rw [splitColon] at h
    split at h
    · obtain ⟨-, rfl⟩ := Prod.mk.inj (Except.ok.inj h)
      exact List.subset_cons_self t _
    · split at h
      · cases h
      · exact List.subset_cons_of_subset t (ih h)

theorem unwindMark_subset (n : Nat) (ts : List Token) (mark : Text) : (unwindMark n ts mark).1 ⊆ ts := by
  induction n generalizing ts mark with
  | zero => exact List.Subset.refl _
  | succ n ih =>
    rw [unwindMark]
    split
    · exact List.Subset.refl _
    · exact List.Subset.trans (ih ..) (List.dropLast_subset ts)

theorem splitImportant_subset (ts : List Token) : (splitImportant ts).1 ⊆ ts := by
  have hkept := splitEnd_subset Token.isTrivia ts
  unfold splitImportant
  simp only
  split
  · exact List.Subset.refl _
  · split
    · exact List.Subset.trans (splitEnd_subset ..) (List.Subset.trans (List.dropLast_subset _) hkept)
    · split
      · split
        · exact unwindMark_subset ..
        · exact List.Subset.refl _
      · exact List.Subset.refl _

/-- The last parameter of an at-rule is the last of its tokens but for spaces, if that is no comment. -/
theorem getLast?_params (h : (ts.filter (!isSpaceToken ·)).getLast? = some t) (ht : t.isTrivia = false) :
    ((splitEnd Token.isTrivia ts).1.dropWhile Token.isTrivia).getLast? = some t := by
  rw [List.getLast?_eq_head?_reverse, ← List.filter_reverse, List.head?_filter] at h
  obtain ⟨-, as, bs, hsplit, hspaces⟩ := List.find?_eq_some_iff_append.1 h
  have htrivia : ∀ u ∈ as, u.isTrivia = true := by
    intro u hu
    have hspace := hspaces u hu
    simp only [isSpaceToken, Bool.not_not] at hspace
    rw [Token.isTrivia, hspace, Bool.true_or]
  have hkept : (splitEnd Token.isTrivia ts).1 = bs.reverse ++ [t] := by
    rw [splitEnd, hsplit, List.dropWhile_append_of_pos htrivia, List.dropWhile_cons_of_neg (by simp [ht]),
      List.reverse_cons]
  obtain ⟨us, hus⟩ := List.dropWhile_suffix Token.isTrivia (l := bs.reverse ++ [t])
  have hne : (bs.reverse ++ [t]).dropWhile Token.isTrivia ≠ [] := by
    intro hnil
    have hall := List.dropWhile_eq_nil_iff.1 hnil t (by simp)
    rw [ht] at hall
    cases hall
  obtain ⟨u, hu⟩ := Option.isSome_iff_exists.1 (List.getLast?_isSome.2 hne)
  have hlast := congrArg List.getLast? hus
  rw [List.getLast?_append, hu, List.getLast?_concat] at hlast
  rw [hkept, hu]
  exact hlast

theorem getLast?_joined {c : Char} (h : ts.getLast? = some t) (hc : t.text.getLast? = some c) :
    (Token.joined ts).getLast? = some c := by
  obtain ⟨init, rfl⟩ := List.getLast?_eq_some_iff.1 h
  rw [Token.joined_append, Token.joined_cons, Token.joined_nil, List.append_nil, List.getLast?_append, hc]
  rfl

end Run

namespace Ensures
variable {e : Excerpt} {α ε : Type} {P : α → Prop}

theorem mapError {x : Except ε α} {f : ε → Fault} (hok : ∀ a, x = .ok a → P a)
    (herror : ∀ t, x = .error t → (f t).Placed e) : Ensures e P (x.mapError f) := by
  cases x with
  | error t => exact herror t rfl
  | ok a => exact hok a rfl

theorem guard {c : Bool} {o : Option (Cause × Nat)} {fault : Cause → Nat → Fault} {x : α} (hx : P x) :
    (∀ cause offset, o = some (cause, offset) → (fault cause offset).Placed e) →
    Ensures e P (if c = true then
        match o with
        | some (cause, offset) => do
          (throw (fault cause offset) : Except Fault PUnit)
          pure x
        | _ => pure x
      else pure x) := by
  intro hfault
  split
  · split
    · exact hfault _ _ rfl
    · exact hx
  · exact hx

end Ensures

/-! ## Builders -/

/-- The nodes of a root are in place, and the root starts and ends at places of the excerpt. -/
structure Root.Placed (e : Excerpt) (r : Root) : Prop where
  nodes : EveryIn (Node.InPlace e) r.nodes
  rangeStart : e.HasCut r.rangeStart
  rangeEnd : e.HasCut r.rangeEnd
  start : e.HasPlace r.source.start
  stop : ∀ p ∈ r.source.stop, e.HasPlace p

/-- An open block starts at a place, and all nodes in it are in place. -/
structure Frame.Placed (e : Excerpt) (f : Frame) : Prop where
  place : e.HasPlace f.source.start
  nodes : EveryIn (Node.InPlace e) f.nodes

namespace Builder

/-- All nodes that a builder holds are in place. -/
structure Placed (e : Excerpt) (b : Builder) : Prop where
  excerpt : b.excerpt = e
  holes : ∀ h ∈ b.holes, h.Marked e.text
  nodes : EveryIn (Node.InPlace e) b.nodes
  frames : ∀ f ∈ b.frames, f.Placed e

namespace Placed
variable {e : Excerpt} {b : Builder} {n : Node} {t : Token} {ts us : List Token} {fault : Option Fault} {a : Nat}

theorem position (h : b.Placed e) (i : Nat) : b.position i = e.position i := by rw [Builder.position, h.excerpt]

theorem positionBehind (h : b.Placed e) (i : Nat) : (b.positionBehind i).offset = e.origin.offset + i + 1 := by
  rw [positionBehind_offset, h.excerpt]

theorem error (h : b.Placed e) (cause : Cause) (i : Nat) : b.error cause i = .style (e.error cause i) := by
  rw [Builder.error, h.excerpt]

theorem wait (h : b.Placed e) (t : Text) : (b.wait t).Placed e := ⟨h.excerpt, h.holes, h.nodes, h.frames⟩

theorem taken (h : b.Placed e) : b.taken.Placed e := ⟨h.excerpt, h.holes, h.nodes, h.frames⟩

theorem every (h : b.Placed e) : b.Every (Node.InPlace e) fun _ _ source => e.HasPlace source.start :=
  ⟨h.nodes, fun f hf => ⟨(h.frames f hf).place, (h.frames f hf).nodes⟩⟩

theorem of_every (hexcerpt : b.excerpt = e) (hholes : ∀ h ∈ b.holes, h.Marked e.text)
    (h : b.Every (Node.InPlace e) fun _ _ source => e.HasPlace source.start) : b.Placed e :=
  ⟨hexcerpt, hholes, h.nodes, fun f hf => ⟨(h.frames f hf).1, (h.frames f hf).2⟩⟩

theorem replaceLast (h : b.Placed e) (hn : n.Every (Node.InPlace e)) : (b.mapNodes (·.dropLast ++ [n])).Placed e :=
  of_every ((mapNodes_excerpt _ b).trans h.excerpt) (mapNodes_holes _ b ▸ h.holes) (h.every.replaceLast hn)

theorem add (h : b.Placed e) (hn : n.Every (Node.InPlace e)) : (b.add n).Placed e :=
  of_every ((mapNodes_excerpt _ b).trans h.excerpt) (mapNodes_holes _ b ▸ h.holes) (h.every.add hn)

theorem openBlock {f : Frame} (h : b.Placed e) (hplace : e.HasPlace f.source.start) (hnil : f.nodes = []) :
    (b.openBlock f).Placed e :=
  of_every h.excerpt h.holes (h.every.openBlock hplace hnil)

theorem lastNode (h : b.Placed e) (hlast : b.lastNode? = some n) : n.Every (Node.InPlace e) := h.every.lastNode hlast

/-! ## Constructs -/

theorem comment (h : b.Placed e) (ht : t.Placed e) (hk : t.kind = .comment) : (b.comment t).Placed e := by
  have hpend : Builder.Placed e { b with pending := [] } := ⟨h.excerpt, h.holes, h.nodes, h.frames⟩
  unfold Builder.comment
  refine hpend.add ⟨_, rfl, ?_, fun stop hstop => .inl ?_⟩
  · show e.HasPlace (b.position _)
    rw [h.position]
    exact ht.hasPlace
  · obtain rfl := Option.some.inj hstop
    rw [h.positionBehind]
    exact ht.behind_comment hk

theorem openRule (h : b.Placed e) (hts : ∀ t ∈ ts, t.Placed e) : (b.openRule ts).Placed e := by
  have hlines := Run.splitHoleLines_append b.holes ts
  unfold Builder.openRule
  refine h.taken.openBlock ?_ rfl
  show e.HasPlace (b.position _)
  rw [h.position]
  refine Excerpt.hasPlace_head fun t ht => hts t ?_
  rw [← hlines]
  exact List.mem_append_right _ ht

theorem openBareRule (h : b.Placed e) (ht : t.Placed e) : (b.openBareRule t).Placed e := by
  unfold Builder.openBareRule
  refine h.taken.openBlock ?_ rfl
  show e.HasPlace (b.position _)
  rw [h.position]
  exact ht.hasPlace

theorem fill (h : b.Placed e) (hts : ∀ t ∈ ts, t.Placed e) : Ensures e (Builder.Placed e) (b.fill ts) := by
  induction ts generalizing b with
  | nil => exact h
  | cons t ts ih =>
    have ht := hts t List.mem_cons_self
    have hrest : ∀ u ∈ ts, u.Placed e := fun u hu => hts u (List.mem_cons_of_mem t hu)
    rw [Builder.fill]
    split
    · exact ih (h.wait t.text) hrest
    · rename_i hfiller
      split
      · exact ih (h.comment ht ‹_›) hrest
      · have hspace : t.kind ≠ .space := by
          intro hk
          rw [hk] at hfiller
          exact hfiller rfl
        show (b.unknownWord t 0).Placed e
        rw [unknownWord, h.error]
        exact ht.unknownWord fun hk => absurd hk hspace

theorem freeSemicolon (h : b.Placed e) (ht : t.Placed e) (hk : t.kind = .semicolon) : (b.freeSemicolon t).Placed e := by
  have hpend : Builder.Placed e { b with pending := [] } := ⟨h.excerpt, h.holes, h.nodes, h.frames⟩
  unfold Builder.freeSemicolon
  split
  · rename_i selector nodes raws source hlast
    split
    · exact h.wait _
    · obtain ⟨⟨s, hsource, hplace, -⟩, hnodes⟩ := h.lastNode hlast
      obtain rfl : source = some s := hsource
      refine hpend.replaceLast ⟨⟨_, rfl, hplace, fun stop hstop => .inl ?_⟩, hnodes⟩
      obtain rfl := Option.some.inj hstop
      rw [h.positionBehind]
      exact ht.behind_mark (c := ';') (by rw [hk]; simp [Lexeme.IsMark])
  · exact h.wait _

theorem close (h : b.Placed e) (ht : t.Placed e) (hk : t.kind = .closeCurly) :
    Ensures e (Builder.Placed e) (b.close t) := by
  have hbehind := h.positionBehind (t.start.getD 0)
  unfold Builder.close
  split
  · show (b.error _ _).Placed e
    rw [h.error]
    exact ht.fault (by rintro _ ⟨⟩)
  · rename_i f fs he
    have hframes := h.frames
    rw [he] at hframes
    have hf := hframes f List.mem_cons_self
    have hrest : Builder.Placed e { b with frames := fs, pending := [], semicolon := false } :=
      ⟨h.excerpt, h.holes, h.nodes, fun g hg => hframes g (List.mem_cons_of_mem f hg)⟩
    refine hrest.add ⟨⟨_, rfl, hf.place, fun stop hstop => .inl ?_⟩, hf.nodes⟩
    obtain rfl := Option.some.inj hstop
    rw [hbehind]
    exact ht.behind_mark (c := '\x7d') (by rw [hk]; simp [Lexeme.IsMark])

/-- A declaration is in place, and so is its fault, if a space that takes the place of its property stands in front of
the semicolon that has been reached. -/
theorem declare {run : List Token} {custom : Bool} {reached : Nat} (h : b.Placed e) (hrun : ∀ t ∈ run, t.Placed e)
    (hspace : ∀ last ∈ run.getLast?, ∀ t, t.kind = .space →
      Run.splitProperty b.holes b.pending (if last.kind = .semicolon then run.dropLast else run) = .error t →
      ∃ x y, e.text = x ++ y ∧ t.text ++ [';'] <:+ x ∧ Text.size x = reached) :
    Ensures e (Builder.Placed e) (b.declare run custom reached) := by
  unfold Builder.declare
  split
  · rename_i last hlast
    have hts : (if last.kind = .semicolon then run.dropLast else run) ⊆ run := by
      split
      · exact List.dropLast_subset run
      · exact List.Subset.refl run
    have hreached := hspace last hlast
    simp only
    generalize (if last.kind = .semicolon then run.dropLast else run) = ts at hts hreached ⊢
    have hfirst : Ensures e (fun split => split.2 ⊆ ts)
        ((Run.splitProperty b.holes b.pending ts).mapError (b.unknownWord · reached)) := by
      refine .mapError (fun split hsplit => ?_) fun t ht => ?_
      · obtain ⟨dropped, happ, -, -⟩ := Run.splitProperty_eq_ok hsplit
        rw [happ]
        exact List.subset_append_right dropped split.2
      · have hmem := List.mem_of_getLast? (Run.splitProperty_eq_error ht).1
        rw [unknownWord, h.error]
        exact (hrun t (hts hmem)).unknownWord fun hk => hreached t hk ht
    refine hfirst.bind fun ⟨before, rest⟩ hrest => ?_
    have hsecond : Ensures e (fun split => split.2 ⊆ rest)
        ((Run.splitColon [] (rest.dropWhile (!Run.endsProperty ·))).mapError (b.unknownWord · reached)) := by
      refine .mapError (fun split hsplit => ?_) fun t ht => ?_
      · exact List.Subset.trans (Run.splitColon_subset hsplit) (List.dropWhile_suffix _).subset
      · obtain ⟨hmem, hword⟩ := Run.splitColon_eq_error ht
        rw [unknownWord, h.error]
        refine (hrun t (hts (hrest ((List.dropWhile_suffix _).subset hmem)))).unknownWord fun hk => ?_
        rw [hword] at hk
        cases hk
    refine hsecond.bind fun ⟨between, value⟩ hvalue => ?_
    have hin : (Run.splitImportant (value.dropWhile Token.isTrivia)).1 ⊆ run :=
      List.Subset.trans (Run.splitImportant_subset _) (List.Subset.trans (List.dropWhile_suffix _).subset
        (List.Subset.trans hvalue (List.Subset.trans hrest hts)))
    refine .guard ?_ fun cause offset hfault => ?_
    · refine Placed.add ⟨h.excerpt, h.holes, h.nodes, h.frames⟩ ⟨_, rfl, ?_, fun stop hstop => .inl ?_⟩
      · show e.HasPlace (b.position _)
        rw [h.position]
        exact Excerpt.hasPlace_head fun t ht => hrun t (hts (hrest ht))
      · obtain ⟨a, ha, rfl⟩ := Option.map_eq_some_iff.1 hstop
        obtain ⟨t, ht, hanchor⟩ : ∃ t ∈ run, t.anchor? = some a := by
          cases hanchor : last.anchor? with
          | some i =>
            rw [hanchor] at ha
            exact ⟨last, List.mem_of_getLast? hlast, hanchor.trans ha⟩
          | none =>
            rw [hanchor] at ha
            obtain ⟨t, ht, ha⟩ := List.exists_of_findSome?_eq_some ha
            exact ⟨t, hts (List.mem_reverse.1 ht), ha⟩
        rw [h.position]
        exact ((hrun t ht).hasPlace_anchor hanchor).cut
    · obtain ⟨hcause, t, ht, hplace⟩ := Run.colonFault?_eq_some hfault
      rw [h.error]
      cases hplace with
      | inl hplace =>
        rw [hplace]
        exact (hrun t (hin ht)).fault hcause
      | inr hplace =>
        obtain ⟨rfl, hword, rfl⟩ := hplace
        exact (hrun t (hin ht)).fault_behind hword
  · exact h.taken

/-! ## Steps -/

/-- An at-rule whose last token is a comment or its last parameter ends behind that token, or inside the parameter. -/
theorem stopBehind (h : b.Placed e) (hts : ∀ t ∈ ts, t.Placed e) {ps : List Token}
    (hps : ∀ t ∈ ts.getLast?, t.kind = .comment ∨ ps.getLast? = some t) {name : Text} {raws : Raws}
    {source : Option Span} (hraws : raws.params = (Run.clean false ps).2) :
    ∀ stop ∈ b.stopBehind ts, e.HasCut stop.offset ∨
      Node.EndsInside e stop.offset (.leaf (.atRule name (Run.clean false ps).1) raws source) := by
  intro stop hstop
  obtain ⟨a, ha, rfl⟩ := Option.map_eq_some_iff.1 hstop
  obtain ⟨t, ht, hanchor⟩ := Option.bind_eq_some_iff.1 ha
  have hplaced := hts t (List.mem_of_getLast? ht)
  rw [h.positionBehind]
  refine (hplaced.behind hanchor).imp Excerpt.hasCut_of_size ?_
  rintro ⟨x, c, y, htext, hwide, rfl, hlast⟩
  refine ⟨x, c, y, htext, hwide, rfl, ?_⟩
  rw [hraws, Run.text_clean]
  cases hps t ht with
  | inl hk =>
    rw [hplaced.last_of_comment hk] at hlast
    obtain rfl := Option.some.inj hlast
    exact absurd hwide (by decide)
  | inr hparam => exact Run.getLast?_joined hparam hlast

theorem atRule (h : b.Placed e) (hts : ∀ u ∈ t :: ts, u.Placed e) (hfault : ∀ f ∈ fault, f.Placed e) :
    Ensures e (fun r => r.1.Placed e ∧ r.2 <:+ t :: ts) (b.atRule fault t ts) := by
  have ht := hts t List.mem_cons_self
  have hsplits := collectParams_splits [] ts
  have hstart : e.HasPlace (b.position (t.start.getD 0)) := by
    rw [h.position]
    exact ht.hasPlace
  unfold Builder.atRule
  generalize collectParams [] ts = run at hsplits ⊢
  obtain ⟨ps, ending, unread⟩ := run
  have hps : ∀ u ∈ ps, u.Placed e := fun u hu => hts u (List.mem_cons_of_mem t (hsplits.params_subset hu))
  simp only
  split
  · show (b.error _ _).Placed e
    rw [h.error]
    exact ht.fault (by rintro _ ⟨⟩)
  · cases ending with
    | semicolon =>
      obtain ⟨s, us, rfl, hs, rfl⟩ := hsplits
      have hmark := (hts s (by simp)).behind_mark (c := ';') (by rw [hs]; simp [Lexeme.IsMark])
      refine ⟨Placed.add ⟨h.excerpt, h.holes, h.nodes, h.frames⟩ ⟨_, rfl, hstart, fun stop hstop => .inl ?_⟩, ?_⟩
      · obtain rfl := Option.some.inj hstop
        rw [h.positionBehind]
        exact hmark
      · exact ⟨t :: ps ++ [s], by simp⟩
    | block =>
      obtain ⟨s, -, rfl⟩ := hsplits
      exact ⟨Placed.openBlock ⟨h.excerpt, h.holes, h.nodes, h.frames⟩ hstart rfl, ⟨t :: ps ++ [s], by simp⟩⟩
    | boundary s =>
      obtain ⟨hs, rfl⟩ := hsplits
      refine Ensures.bind (Placed.close (Placed.add ⟨h.excerpt, h.holes, h.nodes, h.frames⟩
        ⟨_, rfl, hstart, h.stopBehind (fun u hu => hps u (List.mem_filter.1 hu).1) (fun u hu => ?_) rfl⟩)
        (hts s (by simp)) hs) fun built hbuilt => ⟨hbuilt, ⟨t :: ps ++ [s], by simp⟩⟩
      cases htrivia : u.isTrivia with
      | false => exact .inr (Run.getLast?_params hu htrivia)
      | true =>
        have hsolid := (List.mem_filter.1 (List.mem_of_getLast? hu)).2
        simp only [Run.isSpaceToken, Bool.not_eq_true'] at hsolid
        rw [Token.isTrivia, hsolid, Bool.false_or, decide_eq_true_eq] at htrivia
        exact .inl htrivia
    | exhausted =>
      obtain ⟨rfl, rfl⟩ := hsplits
      cases fault with
      | some fault => exact hfault fault rfl
      | none =>
        refine ⟨Placed.add ⟨h.excerpt, h.holes, h.nodes, h.frames⟩
          ⟨_, rfl, hstart, h.stopBehind (fun u hu => hps u ?_) (fun u hu => .inr hu) rfl⟩, List.nil_suffix⟩
        exact Run.splitEnd_subset _ _ ((List.dropWhile_suffix _).subset hu)

/-- A declaration that no semicolon ends: spaces at its end are left, unless it is that of a custom property, whose name
is no hole. -/
theorem declareOpen (h : b.Placed e) (reached : Nat) (hts : ∀ u ∈ t :: ts, u.Placed e)
    (hinside : Run.SemicolonsInside (t :: ts)) :
    Ensures e (Builder.Placed e) (b.declare (if t.isCustom then t :: ts else (Run.splitEnd Token.isTrivia (t :: ts)).1)
      t.isCustom reached) := by
  cases hcustom : t.isCustom with
  | true =>
    rw [if_pos rfl]
    refine h.declare hts fun last hlast u _ hu => ?_
    rw [← List.append_nil (t :: ts)] at hinside
    rw [if_neg (hinside.kind_last (by simp) hlast)] at hu
    have ht := hts t List.mem_cons_self
    have hhole := (Run.splitProperty_eq_error hu).2 t rfl (ht.kind_of_custom hcustom)
    rw [ht.not_hole_of_custom hcustom h.holes] at hhole
    cases hhole
  | false =>
    rw [if_neg Bool.false_ne_true]
    refine h.declare (fun u hu => hts u (Run.splitEnd_subset _ _ hu)) fun last hlast u hk hu => ?_
    rw [← Run.splitEnd_append Token.isTrivia (t :: ts)] at hinside
    rw [if_neg (hinside.kind_last (fun v hv => Run.of_mem_splitEnd hv) hlast)] at hu
    have htrivia := Run.getLast?_splitEnd (Run.splitProperty_eq_error hu).1
    rw [Token.isTrivia, hk] at htrivia
    cases htrivia

/-- A declaration that ends with a semicolon, behind which an unknown word of spaces is told. -/
theorem declareClosed (h : b.Placed e) (custom : Bool) {init unread : List Token} {s : Token} (hs : s.kind = .semicolon)
    (hts : e.HasTokens (init ++ s :: unread)) :
    Ensures e (Builder.Placed e) (b.declare (init ++ [s]) custom (Run.behind s)) := by
  refine h.declare (fun u hu => hts.placed u ?_) fun last hlast u _ hu => ?_
  · rw [← List.singleton_append, ← List.append_assoc]
    exact List.mem_append_left _ hu
  · rw [List.getLast?_concat] at hlast
    obtain rfl := Option.some.inj hlast
    rw [if_pos hs, List.dropLast_concat] at hu
    obtain ⟨front, rfl⟩ := List.getLast?_eq_some_iff.1 (Run.splitProperty_eq_error hu).1
    rw [List.append_assoc] at hts
    exact hts.behind_semicolon hs

theorem declareRest (h : b.Placed e) (reached : Nat) {us unread : List Token} (hts : ∀ u ∈ t :: us, u.Placed e)
    (hinside : Run.SemicolonsInside (t :: us)) (happ : t :: us ++ unread = t :: ts) :
    Ensures e (fun r => r.1.Placed e ∧ r.2 <:+ t :: ts) (do
      return (← b.declare (if t.isCustom then (t :: us, []) else Run.splitEnd Token.isTrivia (t :: us)).1 t.isCustom
        reached, (if t.isCustom then (t :: us, []) else Run.splitEnd Token.isTrivia (t :: us)).2 ++ unread)) := by
  have hopen := h.declareOpen reached hts hinside
  have hsplit := Run.splitEnd_append Token.isTrivia (t :: us)
  cases hcustom : t.isCustom with
  | true =>
    rw [hcustom] at hopen
    exact Ensures.bind hopen fun built hbuilt => ⟨hbuilt, t :: us, happ⟩
  | false =>
    rw [hcustom] at hopen
    refine Ensures.bind hopen fun built hbuilt => ⟨hbuilt, (Run.splitEnd Token.isTrivia (t :: us)).1, ?_⟩
    rw [← List.append_assoc, ← happ]
    exact congrArg (· ++ unread) hsplit

theorem run (h : b.Placed e) (hts : e.HasTokens (t :: ts)) (hkind : t.StartsRun) (hfault : ∀ f ∈ fault, f.Placed e) :
    Ensures e (fun r => r.1.Placed e ∧ r.2 <:+ t :: ts) (b.run fault t ts) := by
  have hfound := Run.collects t.isCustom false [] none (t :: ts)
  have hcustom : ['-', '-'].isPrefixOf t.text = t.isCustom := rfl
  unfold Builder.run
  simp only [hcustom]
  generalize Run.collect t.isCustom false [] none (t :: ts) = found at hfound ⊢
  simp only [Token.StartsRun, List.mem_cons, List.not_mem_nil, or_false, not_or] at hkind
  obtain ⟨us, hus⟩ := hfound.head ⟨hkind.2.2.1, hkind.2.2.2.2.2⟩
  have happ := hfound.append
  have hends := hfound.endsAsSaid
  have hopener := hfound.opener_mem
  have hinside := hfound.semicolonsInside ⟨by simp, by simp⟩
  obtain ⟨tokens, colon, opener, ending, unread⟩ := found
  simp only at hus happ hopener hinside
  subst hus
  unfold Run.Found.EndsAsSaid at hends
  have hplaced : ∀ u ∈ t :: us, u.Placed e := fun u hu => hts.placed u (happ ▸ List.mem_append_left _ hu)
  have hunread : unread <:+ t :: ts := ⟨_, happ⟩
  cases opener with
  | some o =>
    have ho : (b.error .unclosedBracket (o.start.getD 0)).Placed e := by
      rw [h.error]
      exact (hplaced o ((hopener o rfl).resolve_right (by rintro ⟨⟩))).fault (by rintro _ ⟨⟩)
    cases ending with
    | semicolon | block | boundary => exact ho
    | exhausted =>
      cases fault with
      | some fault => exact hfault fault rfl
      | none => exact ho
  | none =>
    have hfill : Ensures e (fun r => r.1.Placed e ∧ r.2 <:+ t :: ts) (do return (← b.fill (t :: us), unread)) :=
      (h.fill hplaced).bind fun built hbuilt => ⟨hbuilt, hunread⟩
    cases ending with
    | block => exact ⟨h.openRule fun u hu => hplaced u (List.dropLast_subset _ hu), hunread⟩
    | semicolon =>
      cases colon with
      | false => exact hfill
      | true =>
        obtain ⟨init, s, htokens, hs⟩ := hends
        have htokens : t :: us = init ++ [s] := htokens
        have hreached : Run.Found.reached ⟨t :: us, true, none, .semicolon, unread⟩ b.excerpt.text.size =
            Run.behind s := by
          rw [Run.Found.reached, htokens, List.getLast?_concat]
          rfl
        rw [← happ, htokens, List.append_assoc] at hts
        rw [hreached, htokens]
        exact (h.declareClosed _ hs hts).bind fun built hbuilt => ⟨hbuilt, htokens ▸ hunread⟩
    | boundary next =>
      cases colon with
      | false => exact hfill
      | true => exact h.declareRest _ hplaced (hinside rfl ⟨by simp, by simp⟩).2 happ
    | exhausted =>
      cases fault with
      | some fault => exact hfault fault rfl
      | none =>
        cases colon with
        | false => exact hfill
        | true => exact h.declareRest _ hplaced (hinside rfl ⟨by simp, by simp⟩).2 happ

/-- A step keeps all nodes in place and leaves an end of the tokens, or its fault tells an exact place. -/
theorem step (h : b.Placed e) (hts : e.HasTokens (t :: ts)) (hfault : ∀ f ∈ fault, f.Placed e) :
    Ensures e (fun r => r.1.Placed e ∧ r.2 <:+ t :: ts) (b.step fault t ts) := by
  have ht := hts.placed t List.mem_cons_self
  have hrest : ts <:+ t :: ts := List.suffix_cons t ts
  unfold Builder.step
  split
  · exact ⟨h.wait t.text, hrest⟩
  · exact ⟨h.freeSemicolon ht ‹_›, hrest⟩
  · exact (h.close ht ‹_›).map fun built hbuilt => ⟨hbuilt, hrest⟩
  · exact ⟨h.comment ht ‹_›, hrest⟩
  · exact h.atRule hts.placed hfault
  · exact ⟨h.openBareRule ht, hrest⟩
  · exact h.run hts (by simp_all [Token.StartsRun]) hfault

theorem steps {m : Nat} (h : b.Placed e) (hts : e.HasTokens ts) (hfault : ∀ f ∈ fault, f.Placed e) :
    Ensures e (Builder.Placed e) (steps fault m b ts) := by
  induction m generalizing b ts with
  | zero =>
    cases ts with
    | nil =>
      cases fault with
      | some fault => exact hfault fault rfl
      | none => exact h
    | cons t ts => exact h
  | succ m ih =>
    cases ts with
    | nil =>
      cases fault with
      | some fault => exact hfault fault rfl
      | none => exact h
    | cons t ts =>
      refine (h.step hts hfault).bind fun r hr => ?_
      exact ih hr.1 (hts.suffix hr.2)

theorem finish {role : Role} (h : b.Placed e) : Ensures e (Root.Placed e) (b.finish role) := by
  unfold Builder.finish
  split
  · rename_i frame frames he
    have hframe := h.frames frame (by rw [he]; exact List.mem_cons_self)
    rw [h.excerpt]
    exact Fault.placed_of_hasPlace hframe.place (by rintro _ ⟨⟩)
  · have hend : e.text = e.text ++ [] := (List.append_nil _).symm
    rw [h.excerpt]
    refine ⟨h.nodes, ⟨[], e.text, rfl, rfl⟩, ⟨e.text, [], hend, rfl⟩, ⟨[], e.text, rfl, rfl⟩, fun stop hstop => ?_⟩
    obtain rfl := Option.some.inj hstop
    rw [h.position]
    exact Excerpt.hasPlace_position hend

end Placed
end Builder

/-! ## Roots -/

theorem Excerpt.Holds.cut {e : Excerpt} {raw : Option Text} {stop : Option Nat} (h : e.Holds raw stop) :
    ∀ n ∈ stop, e.HasCut n := by
  intro n hn
  obtain rfl : stop = some n := hn
  cases raw with
  | none => exact h.elim
  | some t =>
    obtain ⟨hle, hslice⟩ := h
    obtain ⟨front, back, htext, hfront, hback⟩ := Text.slice?_eq_some.1 hslice
    refine ⟨front ++ t, back, htext, ?_⟩
    rw [Text.size_append]
    omega

section
variable {source a b : Text} {e : Excerpt}

theorem Excerpt.HasCut.of_source {n : Nat} (h : e.HasCut n) (hsource : source = a ++ (e.text ++ b))
    (horigin : e.origin = .ofFront a) : (source.splitAt? n).isSome = true := by
  obtain ⟨x, y, htext, rfl⟩ := h
  have hwhole : source = (a ++ x) ++ (y ++ b) := by
    rw [hsource, htext]
    simp only [List.append_assoc]
  have hsize : e.origin.offset + Text.size x = Text.size (a ++ x) := by
    rw [horigin, Text.size_append]
    rfl
  rw [hwhole, hsize, Text.splitAt?_append]
  rfl

theorem Excerpt.behind_of_source (horigin : e.origin = .ofFront a) (x : Text) : e.origin.behind x = .ofFront (a ++ x) := by
  rw [horigin, ← Position.front_behind, ← Position.front_behind, Position.behind_append]

end

namespace Root
variable {e : Excerpt} {holes : List Hole} {role : Role}

/-- What is parsed is in place, and a fault is told with its place. -/
theorem parse_placed (hmarked : ∀ h ∈ holes, h.fits e.text.size = true → h.Marked e.text) :
    Ensures e (Root.Placed e) (Root.parse e holes role) := by
  have hfitting : ∀ h ∈ (Reader.start e holes).holes, h.Marked e.text := by
    intro h hh
    obtain ⟨hmem, hfits⟩ := List.mem_filter.1 hh
    exact hmarked h hmem hfits
  have hfault : ∀ fault ∈ (Reader.start e holes).drain.2.1, fault.Placed e :=
    Reader.take_fault_placed (.start e holes false) rfl fun h hh hfits => (hmarked h hh hfits).onCharacters
  have hstart : Builder.Placed e { excerpt := e, holes := (Reader.start e holes).holes } :=
    ⟨rfl, hfitting, trivial, by simp⟩
  unfold Root.parse
  exact (hstart.steps (Excerpt.hasTokens_drain e holes) hfault).bind fun built hbuilt => hbuilt.finish

/-- In a tree that is parsed from a slice of a source, every recorded offset is a place between two characters of the
source, but for the end of an at-rule without a block whose parameters end with a wide character: it is told inside that
character. A fault is an error at an exact position in the slice, where its unknown word stands, but for two. An unknown
word of spaces is told behind the semicolon that follows it, and a missed semicolon may be told inside the wide character
it is missed behind. -/
theorem places_of_parse {source a b : Text} (hsource : source = a ++ (e.text ++ b)) (horigin : e.origin = .ofFront a)
    (hmarked : ∀ h ∈ holes, h.fits e.text.size = true → h.Marked e.text) :
    match Root.parse e holes role with
    | .ok r =>
      (∀ n ∈ [r.rangeStart, r.rangeEnd, r.source.start.offset], (source.splitAt? n).isSome = true) ∧
      (∀ stop ∈ r.source.stop, (source.splitAt? stop.offset).isSome = true) ∧
      ∀ x ∈ preorder 1 0 r.nodes,
        (∃ s, x.node.source = some s ∧ (source.splitAt? s.start.offset).isSome = true ∧
          ∀ stop ∈ s.stop, (source.splitAt? stop.offset).isSome = true ∨ x.node.EndsInside e stop.offset) ∧
        ∀ stop ∈ [x.node.raws.ends.before, x.node.raws.ends.after, x.node.raws.ends.ownSemicolon],
          ∀ n ∈ stop, (source.splitAt? n).isSome = true
    | .error (.style error) =>
      (∃ x y, e.text = x ++ y ∧ error.position = .ofFront (a ++ x) ∧
        ∀ w, error.cause = .unknownWord w → w <+: y ∨ ((∀ c ∈ w, isSpace c = true) ∧ w ++ [';'] <:+ x)) ∨
      (error.cause = .missedSemicolon ∧ ∃ x c y, e.text = x ++ c :: y ∧ 1 < c.utf8Size ∧
        error.position.offset = (a ++ x).size + 1)
    | .error (.splitCharacter _) => False := by
  have hplaced := @parse_placed e holes role hmarked
  split
  · rename_i r hr
    rw [hr] at hplaced
    have hcut : ∀ n, e.HasCut n → (source.splitAt? n).isSome = true := fun n hn => hn.of_source hsource horigin
    refine ⟨fun n hn => ?_, fun stop hstop => hcut _ (hplaced.stop stop hstop).cut, fun x hx => ⟨?_, ?_⟩⟩
    · simp only [List.mem_cons, List.not_mem_nil, or_false] at hn
      rcases hn with rfl | rfl | rfl
      · exact hcut _ hplaced.rangeStart
      · exact hcut _ hplaced.rangeEnd
      · exact hcut _ hplaced.start.cut
    · obtain ⟨s, hs, hstart, hstop⟩ := hplaced.nodes.preorder 1 0 x hx
      exact ⟨s, hs, hcut _ hstart.cut, fun stop hmem => (hstop stop hmem).imp (hcut _) id⟩
    · obtain ⟨-, hbefore, hafter, hown⟩ := (raws_of_parse hr).1 x hx
      intro stop hstop n hn
      simp only [List.mem_cons, List.not_mem_nil, or_false] at hstop
      rcases hstop with rfl | rfl | rfl
      · exact hcut n (hbefore.cut n hn)
      · exact hcut n (hafter.cut n hn)
      · exact hcut n (hown.cut n hn)
  · rename_i error herror
    rw [herror] at hplaced
    cases hplaced with
    | inl hexact =>
      obtain ⟨x, y, htext, hposition, hword⟩ := hexact
      rw [Excerpt.behind_of_source horigin] at hposition
      exact .inl ⟨x, y, htext, hposition, hword⟩
    | inr hinside =>
      obtain ⟨hcause, x, c, y, htext, hwide, hposition⟩ := hinside
      refine .inr ⟨hcause, x, c, y, htext, hwide, ?_⟩
      rw [hposition, Text.size_append]
      show e.origin.offset + (Text.size x + 1) = _
      rw [horigin]
      exact (Nat.add_assoc _ _ _).symm
  · rename_i n hfault
    rw [hfault] at hplaced
    exact hplaced

/-- Behind wide characters and a line break: an at-rule ends inside its last character, and an unknown word stands at
the place of its error. -/
theorem places_of_parse_wide :
    Hole.Marked "\nü\x7bb:$\x7bé\x7d;@m ß\x7d".toList ⟨6, 10⟩ ∧
    Hole.Marked "\nü\x7bb:$\x7bé\x7d\x7d ß".toList ⟨6, 10⟩ ∧
    (∃ r, Root.parse ⟨"\nü\x7bb:$\x7bé\x7d;@m ß\x7d".toList, .ofFront "é\nx".toList, none⟩ [⟨6, 10⟩] = .ok r ∧
      ((preorder 1 0 r.nodes).map fun x => x.node.source.map fun s => (s.start.offset, s.stop.map (·.offset))) =
        [some (5, some 22), some (8, some 15), some (16, some 20)] ∧
      ∀ x ∈ preorder 1 0 r.nodes, ∃ s, x.node.source = some s ∧ ∀ stop ∈ s.stop,
        (Text.splitAt? "é\nx\nü\x7bb:$\x7bé\x7d;@m ß\x7d;".toList stop.offset).isSome = true ∨
          x.node.EndsInside ⟨"\nü\x7bb:$\x7bé\x7d;@m ß\x7d".toList, .ofFront "é\nx".toList, none⟩ stop.offset) ∧
    ∃ x y, "\nü\x7bb:$\x7bé\x7d\x7d ß".toList = x ++ y ∧ ['ß'] <+: y ∧
      (Root.parse ⟨"\nü\x7bb:$\x7bé\x7d\x7d ß".toList, .ofFront "é\nx".toList, none⟩ [⟨6, 10⟩]).map (fun _ => ()) =
        .error (.style ⟨.unknownWord ['ß'], .ofFront ("é\nx".toList ++ x), none⟩) := by
  have hmarked : Hole.Marked "\nü\x7bb:$\x7bé\x7d;@m ß\x7d".toList ⟨6, 10⟩ := by decide +kernel
  have hmarked' : Hole.Marked "\nü\x7bb:$\x7bé\x7d\x7d ß".toList ⟨6, 10⟩ := by decide +kernel
  refine ⟨hmarked, hmarked', ?_, ?_⟩
  · have hspans : (Root.parse ⟨"\nü\x7bb:$\x7bé\x7d;@m ß\x7d".toList, .ofFront "é\nx".toList, none⟩
        [⟨6, 10⟩]).toOption.map (fun r => (preorder 1 0 r.nodes).map fun x => x.node.source.map fun s =>
          (s.start.offset, s.stop.map (·.offset))) =
        some [some (5, some 22), some (8, some 15), some (16, some 20)] := by decide +kernel
    have hplaces := @places_of_parse ⟨"\nü\x7bb:$\x7bé\x7d;@m ß\x7d".toList, .ofFront "é\nx".toList, none⟩ [⟨6, 10⟩]
      (.component [] none) _ _ [';'] rfl rfl (List.forall_mem_singleton.2 fun _ => hmarked)
    obtain ⟨r, hr⟩ : ∃ r, Root.parse ⟨"\nü\x7bb:$\x7bé\x7d;@m ß\x7d".toList, .ofFront "é\nx".toList, none⟩
        [⟨6, 10⟩] = .ok r := exists_ok_of_isOk (by decide +kernel)
    rw [hr] at hspans hplaces
    refine ⟨r, hr, Option.some.inj hspans, fun x hx => ?_⟩
    obtain ⟨⟨s, hs, -, hstop⟩, -⟩ := hplaces.2.2 x hx
    exact ⟨s, hs, hstop⟩
  · have hfault : (Root.parse ⟨"\nü\x7bb:$\x7bé\x7d\x7d ß".toList, .ofFront "é\nx".toList, none⟩ [⟨6, 10⟩]).map
        (fun _ => ()) = .error (.style ⟨.unknownWord ['ß'], ⟨17, 3, 11⟩, none⟩) := by decide +kernel
    have hplaces := @places_of_parse ⟨"\nü\x7bb:$\x7bé\x7d\x7d ß".toList, .ofFront "é\nx".toList, none⟩ [⟨6, 10⟩]
      (.component [] none) _ _ [] rfl rfl (List.forall_mem_singleton.2 fun _ => hmarked')
    rw [hfault]
    cases hparse : Root.parse ⟨"\nü\x7bb:$\x7bé\x7d\x7d ß".toList, .ofFront "é\nx".toList, none⟩ [⟨6, 10⟩] with
    | ok r =>
      rw [hparse] at hfault
      cases hfault
    | error fault =>
      rw [hparse] at hfault hplaces
      obtain rfl := Except.error.inj hfault
      obtain ⟨x, y, htext, hposition, hword⟩ := hplaces.resolve_right nofun
      refine ⟨x, y, htext, ?_, by rw [← hposition]⟩
      exact (hword _ rfl).resolve_right fun hspace => absurd (hspace.1 'ß' List.mem_cons_self) (by decide)

/-- An at-rule ends inside its last character, a semicolon is missed inside the character in front of its place, and a
space stands in front of the semicolon behind which it is told. -/
theorem parse_misplaces :
    ((Root.parse ⟨"@a é".toList, Position.front, none⟩ []).toOption.map fun r =>
        r.nodes.map fun n => n.source.bind fun s => s.stop.map (·.offset)) = some [some 4] ∧
      Text.splitAt? "@a é".toList 4 = none ∧
    (Root.parse ⟨"a: é b: c".toList, Position.front, none⟩ []).map (fun _ => ()) =
        .error (.style ⟨.missedSemicolon, ⟨4, 1, 5⟩, none⟩) ∧
      Text.splitAt? "a: é b: c".toList 4 = none ∧
    (Root.parse ⟨"(a): ;".toList, Position.front, none⟩ []).map (fun _ => ()) =
        .error (.style ⟨.unknownWord [' '], ⟨6, 1, 7⟩, none⟩) ∧
      Text.suffix? "(a): ;".toList 6 = some [] := by
  refine ⟨?_, ?_, ?_, ?_, ?_, ?_⟩
  all_goals decide +kernel

end Root
end TaggedStyles
