import TaggedStyles.Printer.Basic

/-! Remembered answers are fresh answers. Whatever has been asked before, a lookup that remembers its answers gives the
one that is inferred afresh (`Cache.Gives`), and so does all that is printed with it. -/
namespace TaggedStyles
set_option autoImplicit false

namespace Lookup

/-- What a printer can ask for. -/
inductive Question where
  | separator (s : Separator)
  | semicolon

namespace Cache
variable {entries : List Entry} {α β : Type}

/-- All that is remembered is what would be inferred. -/
structure Sound (entries : List Entry) (c : Cache) : Prop where
  separators : ∀ s t, c.separators.lookup s = some t → t = s.infer entries
  semicolon : ∀ b, c.semicolon = some b → b = inferSemicolon entries

theorem Sound.start (entries : List Entry) : Sound entries {} where
  separators := fun s t h => by cases h
  semicolon := fun b h => by cases h

theorem Sound.addSeparator {c : Cache} (h : c.Sound entries) (s : Separator) :
    Sound entries { c with separators := (s, s.infer entries) :: c.separators } where
  separators := by
    intro u t ht
    rw [List.lookup_cons] at ht
    split at ht
    · rename_i hu
      rw [beq_iff_eq.1 hu]
      exact (Option.some.inj ht).symm
    · exact h.separators u t ht
  semicolon := h.semicolon

/-- With any sound cache a computation has this result, and leaves a sound cache. -/
structure Gives (entries : List Entry) (x : StateM Cache α) (a : α) : Prop where
  result : ∀ c : Cache, c.Sound entries → (x.run c).1 = a
  sound : ∀ c : Cache, c.Sound entries → Sound entries (x.run c).2

theorem Gives.pure (a : α) : Gives entries (pure a) a := ⟨fun _ _ => rfl, fun _ hc => hc⟩

theorem Gives.bind {x : StateM Cache α} {x' : Id α} {f : α → StateM Cache β} {f' : α → Id β}
    (hx : Gives entries x x') (hf : ∀ a, Gives entries (f a) (f' a)) : Gives entries (x >>= f) (x' >>= f') where
  result := by
    intro c hc
    show ((f (x.run c).1).run (x.run c).2).1 = f' x'
    rw [hx.result c hc]
    exact (hf x').result _ (hx.sound c hc)
  sound := by
    intro c hc
    show Sound entries ((f (x.run c).1).run (x.run c).2).2
    exact (hf _).sound _ (hx.sound c hc)

theorem Gives.of_run {x : StateM Cache α} {a : α}
    (h : ∀ c : Cache, c.Sound entries → ∃ c', x.run c = (a, c') ∧ Sound entries c') : Gives entries x a where
  result := by
    intro c hc
    obtain ⟨c', hrun, -⟩ := h c hc
    rw [hrun]
  sound := by
    intro c hc
    obtain ⟨c', hrun, hc'⟩ := h c hc
    rw [hrun]
    exact hc'

/-! ## Answers -/

/-- A search that starts with `s` gives what is inferred for `s`, if the search for the others gives what they show. -/
theorem gives_search {s : Separator} {more : List Separator} (hs : s.chain = s :: more)
    (hmore : Gives entries (search entries s.default more)
      ((more.findSome? (Separator.shown entries)).getD s.default)) :
    Gives entries (search entries s.default (s :: more)) (s.infer entries) := by
  have hinfer : s.infer entries =
      (s.shown entries).getD ((more.findSome? (Separator.shown entries)).getD s.default) := by
    rw [Separator.infer, hs, List.findSome?_cons]
    cases s.shown entries <;> rfl
  refine .of_run fun c hc => ?_
  cases hknown : c.separators.lookup s with
  | some text =>
    refine ⟨c, ?_, hc⟩
    rw [← hc.separators s text hknown]
    simp only [search, StateT.run_bind, StateT.run_get, pure_bind, hknown]
    rfl
  | none =>
    cases hshown : s.shown entries with
    | some text =>
      rw [hshown, Option.getD_some] at hinfer
      refine ⟨_, ?_, hc.addSeparator s⟩
      simp only [search, StateT.run_bind, StateT.run_get, pure_bind, hknown, hshown, hinfer]
      rfl
    | none =>
      rw [hshown, Option.getD_none] at hinfer
      have hfound := hmore.result c hc
      refine ⟨_, ?_, (hmore.sound c hc).addSeparator s⟩
      rw [hinfer, ← hfound]
      simp only [search, StateT.run_bind, StateT.run_get, pure_bind, hknown, hshown]
      rfl

theorem gives_separator (s : Separator) : Gives entries ((cached entries).separator s) (s.infer entries) := by
  have hnil : ∀ text, Gives entries (search entries text []) text := fun text => .pure text
  have hrule := @gives_search entries .beforeRule [] rfl (hnil _)
  have hdeclaration := @gives_search entries .beforeDeclaration [.beforeRule] rfl hrule
  cases s with
  | beforeRule => exact hrule
  | beforeDeclaration => exact hdeclaration
  | beforeComment => exact gives_search rfl hdeclaration
  | _ => exact gives_search rfl (hnil _)

theorem gives_semicolon : Gives entries (cached entries).semicolon (inferSemicolon entries) := by
  refine .of_run fun c hc => ?_
  cases hknown : c.semicolon with
  | some semicolon =>
    refine ⟨c, ?_, hc⟩
    rw [← hc.semicolon semicolon hknown]
    simp only [cached, StateT.run_bind, StateT.run_get, pure_bind, hknown]
    rfl
  | none =>
    refine ⟨{ c with semicolon := some (inferSemicolon entries) }, ?_, hc.separators,
      fun b hb => (Option.some.inj hb).symm⟩
    simp only [cached, StateT.run_bind, StateT.run_get, pure_bind, hknown]
    rfl

end Cache
end Lookup

/-! ## Printing -/

namespace Printer
open Lookup
open Lookup.Cache (Gives)
variable {entries : List Entry} (rendered : List Rendered)

theorem gives_rawOr (own : Option Text) (place : Place) (s : Separator) :
    Gives entries (rawOr (cached entries) own place s) (rawOr (fresh entries) own place s) := by
  unfold rawOr
  cases own with
  | some text => exact .pure text
  | none =>
    by_cases hplace : place.isFloating = true
    · simp only [hplace, if_true]
      exact .pure s.default
    · simp only [hplace]
      exact Cache.gives_separator s

theorem gives_indented (s : Separator) (depth : Nat) :
    Gives entries (indented (cached entries) s depth) (indented (fresh entries) s depth) := by
  refine .bind (Cache.gives_separator s) fun text => ?_
  by_cases hline : '\n' ∈ text
  · simp only [hline, if_true]
    exact .bind (Cache.gives_separator .indent) fun indent => .pure _
  · simp only [hline, if_false]
    exact .pure text

theorem gives_before (place : Place) (n : Node) :
    Gives entries (before (cached entries) place n) (before (fresh entries) place n) := by
  unfold before
  cases n.raws.before with
  | some text => exact .pure text
  | none =>
    simp only
    split
    · exact .pure []
    · split <;> exact gives_indented _ _

theorem gives_afterChildren (place : Place) (raws : Raws) :
    Gives entries (afterChildren (cached entries) place raws) (afterChildren (fresh entries) place raws) := by
  unfold afterChildren
  cases raws.after with
  | some text => exact .pure text
  | none =>
    simp only
    split
    · exact .pure _
    · exact gives_indented _ _

theorem gives_leaf (place : Place) (semicolon : Bool) (raws : Raws) (content : Leaf) :
    Gives entries (leaf (cached entries) place semicolon raws content)
      (leaf (fresh entries) place semicolon raws content) := by
  cases content with
  | declaration prop value important => exact .bind (gives_rawOr ..) fun between => .pure _
  | atRule name params => exact .pure _
  | comment text => exact .bind (gives_rawOr ..) fun left => .bind (gives_rawOr ..) fun right => .pure _

mutual

theorem gives_node (place : Place) (semicolon : Bool) (n : Node) :
    Gives entries (node (cached entries) rendered place semicolon n)
      (node (fresh entries) rendered place semicolon n) := by
  cases n with
  | leaf content raws source =>
    rw [node, node]
    exact gives_leaf place semicolon raws content
  | block header ns raws source =>
    rw [node, node]
    refine .bind (gives_rawOr ..) fun between => ?_
    by_cases hnil : ns.isEmpty = true
    · simp only [hnil, if_true]
      exact .bind (gives_rawOr ..) fun after => .bind (.pure _) fun inner => .pure _
    · simp only [hnil]
      cases raws.semicolon with
      | some semicolon =>
        exact .bind (.pure semicolon) fun semicolon => .bind (gives_nodes ..) fun children =>
          .bind (gives_afterChildren ..) fun after => .bind (.pure _) fun inner => .pure _
      | none =>
        by_cases hfloating : place.isFloating = true
        · simp only [hfloating, if_true]
          exact .bind (.pure false) fun semicolon => .bind (gives_nodes ..) fun children =>
            .bind (gives_afterChildren ..) fun after => .bind (.pure _) fun inner => .pure _
        · simp only [hfloating]
          exact .bind Cache.gives_semicolon fun semicolon => .bind (gives_nodes ..) fun children =>
            .bind (gives_afterChildren ..) fun after => .bind (.pure _) fun inner => .pure _

theorem gives_nodes (place : Place) (last : Nat) (semicolon : Bool) (ns : List Node) :
    Gives entries (nodes (cached entries) rendered place last semicolon ns)
      (nodes (fresh entries) rendered place last semicolon ns) := by
  cases ns with
  | nil =>
    rw [nodes, nodes]
    exact .pure []
  | cons n ns =>
    rw [nodes, nodes]
    exact .bind (gives_before place n) fun before => .bind (gives_node ..) fun text =>
      .bind (gives_nodes ..) fun more => .pure _

end

theorem gives_body (r : Root) :
    Gives entries (body (cached entries) rendered r) (body (fresh entries) rendered r) := by
  unfold body
  cases r.semicolon with
  | some semicolon => exact gives_nodes ..
  | none => exact .bind Cache.gives_semicolon fun semicolon => gives_nodes ..

end Printer

/-- What remembered answers print is what fresh ones print. -/
theorem printIn_of_gives {scope : List Node} {print : Lookup (StateM Lookup.Cache) → StateM Lookup.Cache Text}
    {text : Text}
    (h : Lookup.Cache.Gives (descendants scope) (print (Lookup.cached (descendants scope))) text) :
    printIn scope print = text := h.result {} (.start _)

theorem Node.css_eq_fresh (n : Node) :
    n.css = Id.run (Printer.node (Lookup.fresh (descendants (n.nodes?.getD []))) [] Place.floating false n) :=
  printIn_of_gives (Printer.gives_node ..)

theorem Root.print_eq_fresh (r : Root) (rendered : List Rendered) :
    r.print rendered = Id.run (Printer.root (Lookup.fresh (descendants r.nodes)) rendered r) :=
  printIn_of_gives (.bind (Printer.gives_body ..) fun _ => .pure _)

theorem Root.css_eq_fresh (r : Root) :
    r.css = Id.run (Printer.body (Lookup.fresh (descendants r.nodes)) [] r) ++ r.after :=
  printIn_of_gives (@Lookup.Cache.Gives.bind _ _ _ _ _ _ (fun body => pure (body ++ r.after)) (Printer.gives_body [] r)
    fun _ => .pure _)

/-! ## Any questions -/

namespace Lookup

/-- What is remembered after some questions. -/
def Cache.after (entries : List Entry) : Cache → List Question → Cache
  | c, [] => c
  | c, .separator s :: qs => after entries (((cached entries).separator s).run c).2 qs
  | c, .semicolon :: qs => after entries ((cached entries).semicolon.run c).2 qs

theorem Cache.Sound.after {entries : List Entry} {c : Cache} (h : c.Sound entries) (qs : List Question) :
    (c.after entries qs).Sound entries := by
  induction qs generalizing c with
  | nil => exact h
  | cons q qs ih =>
    cases q with
    | separator s => exact ih ((Cache.gives_separator s).sound c h)
    | semicolon => exact ih (Cache.gives_semicolon.sound c h)

/-- Whatever has been asked before, an answer is the one that an empty cache gives, which is the one that is inferred
afresh. So a node or a root is printed with remembered answers as with fresh ones. -/
theorem cached_transparent :
    (∀ (entries : List Entry) (asked : List Question),
      (∀ s, (((cached entries).separator s).run (Cache.after entries {} asked)).1 =
          (((cached entries).separator s).run {}).1 ∧
        (((cached entries).separator s).run {}).1 = (fresh entries).separator s) ∧
      ((cached entries).semicolon.run (Cache.after entries {} asked)).1 = ((cached entries).semicolon.run {}).1 ∧
      ((cached entries).semicolon.run {}).1 = (fresh entries).semicolon) ∧
    (∀ n : Node, n.css = Id.run (Printer.node (fresh (descendants (n.nodes?.getD []))) [] Place.floating false n)) ∧
    (∀ (r : Root) (rendered : List Rendered),
      r.print rendered = Id.run (Printer.root (fresh (descendants r.nodes)) rendered r)) ∧
    ∀ r : Root, r.css = Id.run (Printer.body (fresh (descendants r.nodes)) [] r) ++ r.after := by
  refine ⟨fun entries asked => ?_, Node.css_eq_fresh, Root.print_eq_fresh, Root.css_eq_fresh⟩
  have hstart := Cache.Sound.start entries
  have hasked := hstart.after asked
  refine ⟨fun s => ?_, ?_⟩
  · have hnow := (Cache.gives_separator s).result _ hasked
    have hfirst := (Cache.gives_separator s).result _ hstart
    exact ⟨hnow.trans hfirst.symm, hfirst⟩
  · have hnow := Cache.gives_semicolon.result _ hasked
    have hfirst := Cache.gives_semicolon.result _ hstart
    exact ⟨hnow.trans hfirst.symm, hfirst⟩

end Lookup
end TaggedStyles
