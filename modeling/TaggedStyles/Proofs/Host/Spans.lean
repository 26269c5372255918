import TaggedStyles.Host.Locate
import TaggedStyles.Proofs.Document.Nesting

/-! Code with right spans: its templates stand between backticks, one behind the other or in the holes of
others as the tree says. The fragments located in such code have room between them. -/
namespace TaggedStyles.Host
set_option autoImplicit false

/-! ## Right spans -/

/-- A template in its source: between backticks, with its holes in it. -/
def Template.StandsIn (source : Text) (t : Template) : Prop :=
  source.slice? t.span.start t.start = some ['\x60'] ∧ source.slice? t.stop t.span.stop = some ['\x60'] ∧
    (source.slice? t.start t.stop).isSome = true ∧
      (∀ hole ∈ t.holes, t.start ≤ hole.start ∧ hole.stop ≤ t.stop) ∧
    Hole.Proper (t.fragment source).text (t.fragment source).localHoles

instance (source : Text) (t : Template) : Decidable (t.StandsIn source) :=
  inferInstanceAs (Decidable (_ ∧ _ ∧ _ ∧ _ ∧ _))

namespace Code

/-- Where a template ends that is read from an offset on, if `reachHoles` is where its values end. -/
def reachTemplate (source : Text) (i : Nat) (t : Template) (reachHoles : Nat → Option Nat) : Option Nat := do
  if ¬ (i < t.start ∧ t.StandsIn source) then none
  let j ← reachHoles t.start
  if j ≤ t.stop then some (t.stop + 1) else none

mutual

/-- Where the templates of some code end that is read from an offset on, if they stand where they say. -/
def reach (source : Text) (i : Nat) : Code → Option Nat
  | name _ => some i
  | member object => object.reach source i
  | call callee types args => do reachIn source (← reachIn source (← callee.reach source i) types) args
  | template t values => reachTemplate source i t fun j => reachHoles source j t.holes values
  | tagged tag types t values => do
    reachTemplate source (← reachIn source (← tag.reach source i) types) t fun j =>
      reachHoles source j t.holes values
  | arrow params value => do value.reach source (← reachIn source i params)
  | other parts => reachIn source i parts

def reachIn (source : Text) (i : Nat) : List Code → Option Nat
  | [] => some i
  | c :: cs => do reachIn source (← c.reach source i) cs

/-- The values in the holes of a template, each behind the mark of its hole and in front of the brace. -/
def reachHoles (source : Text) (i : Nat) : List Range → List Code → Option Nat
  | [], [] => some i
  | hole :: holes, value :: values => do
    if hole.start < i then none
    let j ← value.reach source (hole.start + 2)
    if j < hole.stop then reachHoles source hole.stop holes values else none
  | _, _ => none

end

/-- All spans in the code of a source are right. -/
def Spanned (source : Text) (code : List Code) : Prop := (reachIn source 0 code).isSome = true

instance (source : Text) (code : List Code) : Decidable (Spanned source code) :=
  inferInstanceAs (Decidable (_ = true))

end Code

namespace Parser

/-- All spans in the code that is read of a source are right. -/
def SpansRight (p : Parser) (source : Text) (file : Option String) : Prop :=
  ∀ code, p.code? source file = some code → Code.Spanned source code

/-- The parser that knows the code of one source only. -/
def only (source : Text) (code : List Code) : Parser where
  Dialect := Unit
  ofPath? _ := none
  standard := ()
  parse? text _ := if text = source then some code else none

theorem only_code? (source : Text) (code : List Code) (file : Option String) :
    (only source code).code? source file = some code := if_pos rfl

theorem only_spansRight {source : Text} {code : List Code} {file : Option String} (h : Code.Spanned source code) :
    (only source code).SpansRight source file := by
  intro code' hcode
  obtain rfl := Option.some.inj ((only_code? source code file).symm.trans hcode)
  exact h

end Parser

/-! ## Templates in their places -/

/-- In a hole of another template. -/
def Template.IsIn (t u : Template) : Prop := ∃ hole ∈ u.holes, hole.start < t.start ∧ t.stop < hole.stop

/-- Templates between two offsets, with something in between any two that are not one in a hole of the other. -/
structure Located (source : Text) (i j : Nat) (ts : List Template) : Prop where
  le : i ≤ j
  stands : ∀ t ∈ ts, t.StandsIn source
  within : ∀ t ∈ ts, i < t.start ∧ t.stop < j
  apart : ts.Pairwise fun t u => t.stop < u.start ∨ u.stop < t.start ∨ t.IsIn u ∨ u.IsIn t

namespace Located
variable {source : Text} {i j k : Nat} {t : Template} {ts us : List Template}

theorem nil (h : i ≤ j) : Located source i j [] := ⟨h, by simp, by simp, .nil⟩

theorem mono {i' j' : Nat} (h : Located source i j ts) (hi : i' ≤ i) (hj : j ≤ j') :
    Located source i' j' ts := by
  have hle := h.le
  refine ⟨by omega, h.stands, fun t ht => ?_, h.apart⟩
  have hwithin := h.within t ht
  omega

theorem append (h : Located source i j ts) (h' : Located source j k us) : Located source i k (ts ++ us) := by
  have hle := h.le
  have hle' := h'.le
  refine ⟨by omega, fun t ht => ?_, fun t ht => ?_, ?_⟩
  · rcases List.mem_append.1 ht with ht | ht
    · exact h.stands t ht
    · exact h'.stands t ht
  · rcases List.mem_append.1 ht with ht | ht
    · have hwithin := h.within t ht
      omega
    · have hwithin := h'.within t ht
      omega
  · refine List.pairwise_append.2 ⟨h.apart, h'.apart, fun t ht u hu => .inl ?_⟩
    have hwithin := h.within t ht
    have hwithin' := h'.within u hu
    omega

theorem perm (h : Located source i j ts) (hperm : ts.Perm us) : Located source i j us := by
  refine ⟨h.le, fun t ht => h.stands t (hperm.mem_iff.2 ht), fun t ht => h.within t (hperm.mem_iff.2 ht), ?_⟩
  refine hperm.pairwise h.apart fun {t u} htu => ?_
  rcases htu with htu | htu | htu | htu
  · exact .inr (.inl htu)
  · exact .inl htu
  · exact .inr (.inr (.inr htu))
  · exact .inr (.inr (.inl htu))

theorem tail (h : Located source i j (t :: ts)) : Located source i j ts :=
  ⟨h.le, fun u hu => h.stands u (List.mem_cons_of_mem t hu), fun u hu => h.within u (List.mem_cons_of_mem t hu),
    (List.pairwise_cons.1 h.apart).2⟩

theorem of_template {m : Nat} (ht : t.StandsIn source) (hi : i < t.start) (hm : m ≤ t.stop)
    (h : Located source t.start m ts) (hin : ∀ u ∈ ts, u.IsIn t) : Located source i (t.stop + 1) (t :: ts) := by
  have hle := h.le
  refine ⟨by omega, fun u hu => ?_, fun u hu => ?_, List.pairwise_cons.2 ⟨fun u hu => ?_, h.apart⟩⟩
  · rcases List.mem_cons.1 hu with rfl | hu
    · exact ht
    · exact h.stands u hu
  · rcases List.mem_cons.1 hu with rfl | hu
    · omega
    · have hwithin := h.within u hu
      omega
  · exact .inr (.inr (.inr (hin u hu)))

end Located

namespace Code

theorem reachTemplate_eq_some {source : Text} {i j : Nat} {t : Template} {reachHoles : Nat → Option Nat}
    (h : reachTemplate source i t reachHoles = some j) :
    i < t.start ∧ t.StandsIn source ∧ ∃ m, reachHoles t.start = some m ∧ m ≤ t.stop ∧ j = t.stop + 1 := by
  unfold reachTemplate at h
  split at h
  · simp at h
  · rename_i hstands
    rw [not_not] at hstands
    obtain ⟨m, hm, h⟩ := Option.bind_eq_some_iff.1 h
    split at h
    · exact ⟨hstands.1, hstands.2, m, hm, ‹_›, (Option.some.inj h).symm⟩
    · cases h

/-- The template that some code is or that an arrow function returns. -/
def ownTemplate? : Code → Option Template
  | template t _ | arrow _ (template t _) => some t
  | _ => none

theorem returnedStyles?_eq_some {callee : Code} {args : List Code} {t : Template}
    (h : returnedStyles? callee args = some t) : ∃ c cs, args = c :: cs ∧ c.ownTemplate? = some t := by
  unfold returnedStyles? at h
  split at h
  · split at h
    · exact ⟨_, _, rfl, h⟩
    · cases h
  · cases h

mutual

/-- Code that is reached holds its templates in their places, its own one included. -/
theorem reach_located {source : Text} {i j : Nat} {c : Code} (h : c.reach source i = some j) :
    Located source i j c.styles ∧ ∀ t, c.ownTemplate? = some t → Located source i j (t :: c.styles) := by
  cases c with
  | name =>
    obtain rfl := Option.some.inj h
    exact ⟨.nil (Nat.le_refl _), fun t ht => by cases ht⟩
  | member object =>
    rw [reach] at h
    rw [styles]
    exact ⟨(reach_located h).1, fun t ht => by cases ht⟩
  | call callee types args =>
    obtain ⟨m, hm, h⟩ := Option.bind_eq_some_iff.1 h
    obtain ⟨n, hn, h⟩ := Option.bind_eq_some_iff.1 h
    have hfront := (reach_located hm).1.append (reachIn_located hn).1
    obtain ⟨hargs, hown⟩ := reachIn_located h
    refine ⟨?_, fun t ht => by cases ht⟩
    rw [styles]
    cases hreturned : returnedStyles? callee args with
    | none => simpa using hfront.append hargs
    | some t =>
      obtain ⟨c, cs, hcs, ht⟩ := returnedStyles?_eq_some hreturned
      have hall := (hfront.append (hown c cs t hcs ht)).perm List.perm_middle
      simpa using hall
  | template t values =>
    obtain ⟨hi, hstands, m, hm, hle, rfl⟩ := reachTemplate_eq_some h
    obtain ⟨hvalues, hin⟩ := reachHoles_located hm
    have hall := Located.of_template hstands hi hle hvalues hin
    rw [styles]
    refine ⟨hall.tail, fun u hu => ?_⟩
    obtain rfl := Option.some.inj hu
    exact hall
  | tagged tag types t values =>
    obtain ⟨m, hm, h⟩ := Option.bind_eq_some_iff.1 h
    obtain ⟨n, hn, h⟩ := Option.bind_eq_some_iff.1 h
    obtain ⟨hi, hstands, k, hk, hle, rfl⟩ := reachTemplate_eq_some h
    obtain ⟨hvalues, hin⟩ := reachHoles_located hk
    have hfront := (reach_located hm).1.append (reachIn_located hn).1
    -- The template comes first in the walk and behind its tag in the source.
    have hall := (hfront.append (.of_template hstands hi hle hvalues hin)).perm List.perm_middle
    refine ⟨?_, fun u hu => by cases hu⟩
    rw [styles]
    split
    · simpa using hall
    · simpa using hall.tail
  | arrow params value =>
    obtain ⟨m, hm, h⟩ := Option.bind_eq_some_iff.1 h
    obtain ⟨hvalue, hown⟩ := reach_located h
    have hparams := (reachIn_located hm).1
    rw [styles]
    refine ⟨hparams.append hvalue, fun t ht => ?_⟩
    have hvalue' : value.ownTemplate? = some t := by
      cases value <;> simp_all [ownTemplate?]
    exact (hparams.append (hown t hvalue')).perm List.perm_middle
  | other parts =>
    rw [reach] at h
    rw [styles]
    exact ⟨(reachIn_located h).1, fun t ht => by cases ht⟩

theorem reachIn_located {source : Text} {i j : Nat} {cs : List Code} (h : reachIn source i cs = some j) :
    Located source i j (stylesIn cs) ∧
    ∀ c more t, cs = c :: more → c.ownTemplate? = some t → Located source i j (t :: stylesIn cs) := by
  cases cs with
  | nil =>
    obtain rfl := Option.some.inj h
    exact ⟨.nil (Nat.le_refl _), fun c more t hcs => by cases hcs⟩
  | cons c cs =>
    obtain ⟨m, hm, h⟩ := Option.bind_eq_some_iff.1 h
    obtain ⟨hc, hown⟩ := reach_located hm
    obtain ⟨hcs, -⟩ := reachIn_located h
    refine ⟨hc.append hcs, fun c' more t heq ht => ?_⟩
    obtain ⟨rfl, -⟩ := List.cons.inj heq
    exact (hown t ht).append hcs

theorem reachHoles_located {source : Text} {i j : Nat} {holes : List Range} {values : List Code}
    (h : reachHoles source i holes values = some j) :
    Located source i j (stylesIn values) ∧
    ∀ u ∈ stylesIn values, ∃ hole ∈ holes, hole.start < u.start ∧ u.stop < hole.stop := by
  cases holes with
  | nil =>
    cases values with
    | nil =>
      obtain rfl := Option.some.inj h
      exact ⟨.nil (Nat.le_refl _), by simp [stylesIn]⟩
    | cons value values => cases h
  | cons hole holes =>
    cases values with
    | nil => cases h
    | cons value values =>
      rw [reachHoles] at h
      split at h
      · cases h
      · obtain ⟨m, hm, h⟩ := Option.bind_eq_some_iff.1 h
        split at h
        · obtain ⟨hvalue, -⟩ := reach_located hm
          obtain ⟨hmore, hin⟩ := reachHoles_located h
          refine ⟨(hvalue.mono (by omega) (by omega)).append hmore, fun u hu => ?_⟩
          rcases List.mem_append.1 hu with hu | hu
          · have hwithin := hvalue.within u hu
            exact ⟨hole, List.mem_cons_self, by omega, by omega⟩
          · obtain ⟨other, hother, hrest⟩ := hin u hu
            exact ⟨other, List.mem_cons_of_mem hole hother, hrest⟩
        · cases h

end

end Code

/-! ## Located fragments -/

theorem Template.nested_of_isIn {t u : Template} (source : Text) (h : t.IsIn u) :
    (t.fragment source).isNestedIn (u.fragment source) = true := by
  obtain ⟨hole, hhole, hstart, hstop⟩ := h
  refine List.any_eq_true.2 ⟨hole, hhole, ?_⟩
  rw [Bool.and_eq_true, decide_eq_true_eq, decide_eq_true_eq]
  exact ⟨hstart, hstop⟩

theorem Template.StandsIn.placed {source : Text} {t : Template} (h : t.StandsIn source) :
    (t.fragment source).Placed source := by
  obtain ⟨-, -, htext, hholes, -⟩ := h
  obtain ⟨text, htext⟩ := Option.isSome_iff_exists.1 htext
  refine ⟨?_, ?_, hholes⟩
  · show source.slice? t.start t.stop = some ((source.slice? t.start t.stop).getD [])
    rw [htext, Option.getD_some]
  · show 0 + t.start = t.start
    exact Nat.zero_add _

theorem Located.separate {source : Text} {i j : Nat} {ts : List Template} (h : Located source i j ts) :
    Fragment.Separate source (ts.map (Template.fragment source)) := by
  refine ⟨fun f hf => ?_, fun f hf => ?_, List.pairwise_map.2 (h.apart.imp fun {t u} htu => ?_)⟩
  · obtain ⟨t, ht, rfl⟩ := List.mem_map.1 hf
    exact (h.stands t ht).placed
  · obtain ⟨t, ht, rfl⟩ := List.mem_map.1 hf
    exact (h.stands t ht).2.2.2.2
  · rcases htu with htu | htu | htu | htu
    · exact .inl htu
    · exact .inr (.inl htu)
    · exact .inr (.inr (.inl (Template.nested_of_isIn source htu)))
    · exact .inr (.inr (.inr (Template.nested_of_isIn source htu)))

/-- The fragments of a source, as they are located. -/
def located (p : Parser) (source : Text) (file : Option String) : List Fragment := (locate? p source file).getD []

theorem located_separate {p : Parser} {source : Text} {file : Option String} (hspans : p.SpansRight source file) :
    Fragment.Separate source (located p source file) := by
  unfold located locate?
  cases hcode : p.code? source file with
  | none =>
    rw [Option.map_none, Option.getD_none]
    exact ⟨by simp, by simp, .nil⟩
  | some code =>
    obtain ⟨j, hj⟩ := Option.isSome_iff_exists.1 (hspans code hcode)
    rw [Option.map_some, Option.getD_some]
    exact (Code.reachIn_located hj).1.separate

/-! ## A style text in the tag of another -/

def tagSource : Text := "let a = styled(styled(X)\x60a: 1;\x60)\x60b: 2;\x60;".toList

/-- The code of `tagSource`: a declaration of one name. -/
def tagCode : List Code :=
  [.other [.other [.other [],
    .tagged (.call (.name "styled".toList) [] [.tagged (.call (.name "styled".toList) [] [.name ['X']]) []
      ⟨⟨24, 31⟩, [⟨25, 30⟩]⟩ []]) [] ⟨⟨32, 39⟩, [⟨33, 38⟩]⟩ []]]]

theorem tagCode_spanned : Code.Spanned tagSource tagCode := by decide +kernel

end TaggedStyles.Host
