import TaggedStyles.Proofs.Host.Spans

/-! The order in which style texts are located. A template is located before all that stands in its own code, its
tag included, so the walk leaves the order of the source exactly where a style text stands in front of another one
in the code that the other is located for. -/
namespace TaggedStyles.Host
set_option autoImplicit false

namespace Code

/-! ## Code in front of a style text -/

mutual

/-- Some code and all code in it. -/
def all : Code → List Code
  | name ident => [name ident]
  | member object => member object :: object.all
  | call callee types args => call callee types args :: (callee.all ++ allIn types ++ allIn args)
  | template t values => template t values :: allIn values
  | tagged tag types t values => tagged tag types t values :: (tag.all ++ allIn types ++ allIn values)
  | arrow params value => arrow params value :: (allIn params ++ value.all)
  | other parts => other parts :: allIn parts

def allIn : List Code → List Code
  | [] => []
  | c :: cs => c.all ++ allIn cs

end

/-- If a style text is located for some code, what stands in front of it there: the tag of the template, or all of
a call up to the arrow function that returns it. -/
def front : Code → List Code
  | tagged tag types _ _ => if tag.tagsStyles then tag :: types else []
  | call callee types (arrow params (template _ _) :: _) =>
    if callee.isFactory then callee :: (types ++ params) else []
  | _ => []

theorem stylesIn_append (cs ds : List Code) : stylesIn (cs ++ ds) = stylesIn cs ++ stylesIn ds := by
  induction cs with
  | nil => rfl
  | cons c cs ih => rw [List.cons_append, stylesIn, stylesIn, ih, List.append_assoc]

/-- A call that a style text is located for has an arrow function in front of its arguments. -/
theorem returnedStyles?_cases (callee : Code) (types args : List Code) :
    (∃ params t values more, args = arrow params (template t values) :: more ∧
      returnedStyles? callee args = some t ∧
      front (call callee types args) = callee :: (types ++ params)) ∨
    returnedStyles? callee args = none ∧ front (call callee types args) = [] := by
  unfold returnedStyles?
  split
  · rename_i params t values more
    by_cases hfactory : callee.isFactory = true
    · exact .inl ⟨params, t, values, more, rfl, if_pos hfactory, if_pos hfactory⟩
    · exact .inr ⟨if_neg hfactory, if_neg hfactory⟩
  · rename_i hargs
    refine .inr ⟨rfl, ?_⟩
    unfold front
    split
    · rename_i heq
      cases heq
    · rename_i params t values more heq
      obtain ⟨-, -, rfl⟩ := Code.call.inj heq
      exact absurd rfl (hargs params t values more)
    · rfl

end Code

/-! ## The order of a walk -/

/-- Templates as a walk finds them: each starts in front of those found later or is one that stands apart behind
them, and the former holds for all exactly on some condition. -/
structure Walked (forward : Prop) (ts : List Template) : Prop where
  found : ts.Pairwise fun t u => t.start < u.start ∨ u.stop < t.start
  increasing : ts.Pairwise (fun t u => t.start < u.start) ↔ forward

theorem Template.StandsIn.start_le {source : Text} {t : Template} (h : t.StandsIn source) : t.start ≤ t.stop := by
  obtain ⟨text, htext⟩ := Option.isSome_iff_exists.1 h.2.2.1
  obtain ⟨-, -, -, -, hstop⟩ := Text.slice?_eq_some.1 htext
  omega

theorem Located.ends_before {source : Text} {i j k : Nat} {ts : List Template} (h : Located source i j ts)
    (hk : j < k) : ∀ t ∈ ts, t.start ≤ t.stop ∧ t.stop < k := by
  intro t ht
  have hwithin := h.within t ht
  exact ⟨(h.stands t ht).start_le, by omega⟩

namespace Walked
variable {source : Text} {i j k : Nat} {p q : Prop} {t : Template} {ts us : List Template}

theorem nil (hp : p) : Walked p [] := ⟨.nil, iff_of_true .nil hp⟩

theorem of_iff (h : Walked p ts) (hpq : p ↔ q) : Walked q ts := ⟨h.found, h.increasing.trans hpq⟩

theorem append (h : Walked p ts) (h' : Walked q us) (hts : Located source i j ts) (hus : Located source j k us) :
    Walked (p ∧ q) (ts ++ us) := by
  have hcross : ∀ t ∈ ts, ∀ u ∈ us, t.start < u.start := by
    intro t ht u hu
    have hle := (hts.stands t ht).start_le
    have hwithin := hts.within t ht
    have hwithin' := hus.within u hu
    omega
  refine ⟨List.pairwise_append.2 ⟨h.found, h'.found, fun t ht u hu => .inl (hcross t ht u hu)⟩, ?_⟩
  rw [List.pairwise_append, h.increasing, h'.increasing]
  exact ⟨fun ⟨hp, hq, _⟩ => ⟨hp, hq⟩, fun ⟨hp, hq⟩ => ⟨hp, hq, hcross⟩⟩

/-- A template that is found before all of its code, of which `ts` stands in front of it and `us` behind. -/
theorem own (h : Walked p (ts ++ us)) (hts : ∀ u ∈ ts, u.start ≤ u.stop ∧ u.stop < t.start)
    (hus : ∀ u ∈ us, t.start < u.start) : Walked (ts = [] ∧ p) (t :: (ts ++ us)) := by
  refine ⟨List.pairwise_cons.2 ⟨fun u hu => ?_, h.found⟩, ?_⟩
  · cases List.mem_append.1 hu with
    | inl hu => exact .inr (hts u hu).2
    | inr hu => exact .inl (hus u hu)
  · rw [List.pairwise_cons, h.increasing]
    refine and_congr_left fun _ => ⟨fun hall => ?_, ?_⟩
    · refine List.eq_nil_iff_forall_not_mem.2 fun u hu => ?_
      have hfront := hts u hu
      have hbehind := hall u (List.mem_append_left us hu)
      omega
    · rintro rfl u hu
      exact hus u hu

end Walked

namespace Code

/-- No style text stands in front of another in the code that the other is located for. -/
def Forward (cs : List Code) : Prop := ∀ c ∈ allIn cs, stylesIn c.front = []

theorem allIn_append (cs ds : List Code) : allIn (cs ++ ds) = allIn cs ++ allIn ds := by
  induction cs with
  | nil => rfl
  | cons c cs ih => rw [List.cons_append, allIn, allIn, ih, List.append_assoc]

theorem forward_append {cs ds : List Code} : Forward (cs ++ ds) ↔ Forward cs ∧ Forward ds := by
  simp only [Forward, allIn_append, List.mem_append, or_imp, forall_and]

theorem forward_cons {c : Code} {cs : List Code} : Forward (c :: cs) ↔ Forward [c] ∧ Forward cs := by
  rw [← forward_append, List.singleton_append]

theorem forward_parts {c : Code} {parts : List Code} (h : c.all = c :: allIn parts) :
    Forward [c] ↔ stylesIn c.front = [] ∧ Forward parts := by
  simp only [Forward, allIn, List.append_nil, h, List.forall_mem_cons]

theorem forward_of_front {c : Code} {parts : List Code} (h : c.all = c :: allIn parts) (hfront : c.front = []) :
    Forward parts ↔ Forward [c] := by
  rw [forward_parts h, hfront]
  exact ⟨fun h => ⟨rfl, h⟩, And.right⟩

mutual

theorem reach_walked {source : Text} {i j : Nat} {c : Code} (h : c.reach source i = some j) :
    Walked (Forward [c]) c.styles := by
  cases c with
  | name => exact .nil fun c hc => by simp_all [allIn, all, front, stylesIn]
  | member object =>
    rw [reach] at h
    rw [styles]
    exact (reach_walked h).of_iff (forward_of_front (by simp [all, allIn]) rfl)
  | call callee types args =>
    obtain ⟨m, hm, h⟩ := Option.bind_eq_some_iff.1 h
    obtain ⟨n, hn, h⟩ := Option.bind_eq_some_iff.1 h
    have hlocated := (reach_located hm).1.append (reachIn_located hn).1
    have hfront := (reach_walked hm).append (reachIn_walked hn) (reach_located hm).1 (reachIn_located hn).1
    have hall := hfront.append (reachIn_walked h) hlocated (reachIn_located h).1
    rw [and_assoc, ← forward_append, ← forward_cons] at hall
    have hparts : (call callee types args).all = call callee types args :: allIn (callee :: (types ++ args)) := by
      simp [all, allIn, allIn_append]
    rw [styles]
    cases returnedStyles?_cases callee types args with
    | inr hnone =>
      rw [hnone.1]
      exact hall.of_iff (forward_of_front hparts hnone.2)
    | inl hsome =>
      obtain ⟨params, t, values, more, rfl, hreturned, hcode⟩ := hsome
      obtain ⟨a, ha, hmore⟩ := Option.bind_eq_some_iff.1 h
      obtain ⟨b, hb, ha⟩ := Option.bind_eq_some_iff.1 ha
      obtain ⟨hi, hstands, k, hk, -, rfl⟩ := reachTemplate_eq_some ha
      rw [forward_parts hparts, hcode, stylesIn, stylesIn_append, ← List.append_assoc, hreturned]
      rw [stylesIn, styles, styles, ← List.append_assoc, ← List.append_assoc, List.append_assoc] at hall
      have hown := hall.own (t := t) ((hlocated.append (reachIn_located hb).1).ends_before hi) fun u hu => ?_
      · simpa only [stylesIn, styles, Option.toList_some, List.append_assoc, List.cons_append, List.nil_append] using hown
      · cases List.mem_append.1 hu with
        | inl hu => exact ((reachHoles_located hk).1.within u hu).1
        | inr hu =>
          have hle := hstands.start_le
          have hwithin := (reachIn_located hmore).1.within u hu
          omega
  | template t values =>
    obtain ⟨hi, hstands, m, hm, hle, rfl⟩ := reachTemplate_eq_some h
    rw [styles]
    exact (reachHoles_walked hm).of_iff (forward_of_front rfl rfl)
  | tagged tag types t values =>
    obtain ⟨m, hm, h⟩ := Option.bind_eq_some_iff.1 h
    obtain ⟨n, hn, h⟩ := Option.bind_eq_some_iff.1 h
    obtain ⟨hi, hstands, k, hk, hle, rfl⟩ := reachTemplate_eq_some h
    have hlocated := (reach_located hm).1.append (reachIn_located hn).1
    have hvalues := (reachHoles_located hk).1.mono (Nat.le_of_lt hi) hle
    have hfront := (reach_walked hm).append (reachIn_walked hn) (reach_located hm).1 (reachIn_located hn).1
    have hall := hfront.append (reachHoles_walked hk) hlocated hvalues
    rw [and_assoc, ← forward_append, ← forward_cons] at hall
    have hparts : (tagged tag types t values).all = tagged tag types t values :: allIn (tag :: (types ++ values)) := by
      simp [all, allIn, allIn_append]
    rw [styles]
    by_cases htag : tag.tagsStyles = true
    · have hcode : (tagged tag types t values).front = tag :: types := if_pos htag
      rw [if_pos htag, forward_parts hparts, hcode, stylesIn]
      have hown := hall.own (t := t) (hlocated.ends_before hi) fun u hu =>
        ((reachHoles_located hk).1.within u hu).1
      simpa only [List.append_assoc, List.cons_append, List.nil_append] using hown
    · rw [if_neg htag]
      exact hall.of_iff (forward_of_front hparts (if_neg htag))
  | arrow params value =>
    obtain ⟨m, hm, h⟩ := Option.bind_eq_some_iff.1 h
    rw [styles]
    have hall := (reachIn_walked hm).append (reach_walked h) (reachIn_located hm).1 (reach_located h).1
    exact (hall.of_iff forward_append.symm).of_iff (forward_of_front (by simp [all, allIn, allIn_append]) rfl)
  | other parts =>
    rw [reach] at h
    rw [styles]
    exact (reachIn_walked h).of_iff (forward_of_front rfl rfl)

theorem reachIn_walked {source : Text} {i j : Nat} {cs : List Code} (h : reachIn source i cs = some j) :
    Walked (Forward cs) (stylesIn cs) := by
  cases cs with
  | nil => exact .nil fun c hc => by cases hc
  | cons c cs =>
    obtain ⟨m, hm, h⟩ := Option.bind_eq_some_iff.1 h
    exact ((reach_walked hm).append (reachIn_walked h) (reach_located hm).1 (reachIn_located h).1).of_iff
      forward_cons.symm

theorem reachHoles_walked {source : Text} {i j : Nat} {holes : List Range} {values : List Code}
    (h : reachHoles source i holes values = some j) : Walked (Forward values) (stylesIn values) := by
  cases holes with
  | nil =>
    cases values with
    | nil => exact .nil fun c hc => by cases hc
    | cons value values => cases h
  | cons hole holes =>
    cases values with
    | nil => cases h
    | cons value values =>
      rw [reachHoles] at h
      split at h
      · cases h
      · obtain ⟨m, hm, h⟩ := Option.bind_eq_some_iff.1 h
        split at h
        · have hvalue := (reach_located hm).1.mono (Nat.le_refl _) (Nat.le_of_lt ‹_›)
          exact ((reach_walked hm).append (reachHoles_walked h) hvalue (reachHoles_located h).1).of_iff
            forward_cons.symm
        · cases h

end

end Code

/-! ## Located fragments in order -/

/-- Components that are located by their starts stand one behind the other. -/
theorem components_in_order {source : Text} {fs : List Fragment} (hs : Fragment.Separate source fs)
    (hordered : fs.Pairwise (·.rangeStart < ·.rangeStart)) :
    (fs.filter (Fragment.isComponentAmong fs)).Pairwise (·.rangeEnd < ·.rangeStart) := by
  refine ((hs.apart.and hordered).filter _).imp_of_mem fun {f g} hf hg hfg => ?_
  obtain ⟨hf, hfree⟩ := List.mem_filter.1 hf
  obtain ⟨hg, hfree'⟩ := List.mem_filter.1 hg
  rw [Fragment.isComponentAmong_iff.1 hfree g hg, Fragment.isComponentAmong_iff.1 hfree' f hf] at hfg
  obtain ⟨h | h | h | h, hstart⟩ := hfg
  · exact h
  · have hle := hs.start_le hg
    omega
  · cases h
  · cases h

/-- A style text is located before those in its holes, and before or behind it no other starts where it does. All
are located by their starts exactly if none stands in front of another in the code that the other is located for, and
then the components stand one behind the other. -/
theorem locate_increasing_iff {p : Parser} {source : Text} {file : Option String} {code : List Code}
    (hcode : p.code? source file = some code) (hspans : p.SpansRight source file) :
    ∃ found, locate? p source file = some found ∧
      (found.Pairwise fun f g => f.rangeStart ≠ g.rangeStart ∧ f.isNestedIn g = false) ∧
      (found.Pairwise (·.rangeStart < ·.rangeStart) ↔ ∀ c ∈ Code.allIn code, Code.stylesIn c.front = []) ∧
      ((∀ c ∈ Code.allIn code, Code.stylesIn c.front = []) →
        (found.filter (Fragment.isComponentAmong found)).Pairwise (·.rangeEnd < ·.rangeStart)) := by
  obtain ⟨j, hj⟩ := Option.isSome_iff_exists.1 (hspans code hcode)
  have hwalked := Code.reachIn_walked hj
  have hs := (Code.reachIn_located hj).1.separate
  have hordered : ((Code.stylesIn code).map (Template.fragment source)).Pairwise (·.rangeStart < ·.rangeStart) ↔
      Code.Forward code := List.pairwise_map.trans hwalked.increasing
  refine ⟨_, by rw [locate?, hcode, Option.map_some], ?_, hordered, fun h => components_in_order hs (hordered.2 h)⟩
  have hfound : ((Code.stylesIn code).map (Template.fragment source)).Pairwise fun f g =>
      f.rangeStart < g.rangeStart ∨ g.rangeEnd < f.rangeStart := List.pairwise_map.2 hwalked.found
  refine hfound.imp_of_mem fun {f g} hf hg hfg => ?_
  have hle := hs.start_le hf
  have hle' := hs.start_le hg
  refine ⟨by omega, Bool.eq_false_iff.2 fun hnested => ?_⟩
  have hin := (hs.nested_iff hf hg).1 hnested
  omega

def holeSource : Text := "styled.a(p => \x60$\x7bcss\x60a:b\x60\x7d c:d\x60); css\x60e:f\x60;".toList

/-- The code of `holeSource`: a call whose arrow function returns a template, and a tagged template. -/
def holeCode : List Code :=
  [.other [.call (.member (.name "styled".toList)) []
    [.arrow [.other []] (.template ⟨⟨14, 31⟩, [⟨15, 15⟩, ⟨26, 30⟩]⟩
      [.tagged (.name "css".toList) [] ⟨⟨20, 25⟩, [⟨21, 24⟩]⟩ []])]],
   .other [.tagged (.name "css".toList) [] ⟨⟨37, 42⟩, [⟨38, 41⟩]⟩ []]]

/-- Style texts in a returned template, in a hole of it and behind it come in order. -/
theorem locate_increasing_hole :
    ∃ found, locate? (Parser.only holeSource holeCode) holeSource none = some found ∧
      found.map (·.rangeStart) = [15, 21, 38] ∧ found.Pairwise (·.rangeStart < ·.rangeStart) ∧
      (found.filter (Fragment.isComponentAmong found)).Pairwise (·.rangeEnd < ·.rangeStart) := by
  have hforward : ∀ c ∈ Code.allIn holeCode, Code.stylesIn c.front = [] := by decide +kernel
  have hstarts : (locate? (Parser.only holeSource holeCode) holeSource none).map
      (fun found => found.map (·.rangeStart)) = some [15, 21, 38] := by decide +kernel
  obtain ⟨found, hfound, -, hordered, hcomponents⟩ :=
    locate_increasing_iff (Parser.only_code? holeSource holeCode none) (Parser.only_spansRight (by decide +kernel))
  rw [hfound] at hstarts
  exact ⟨found, hfound, Option.some.inj hstarts, hordered.2 hforward, hcomponents hforward⟩

/-- A style text in the tag of another stands in front of it and is located behind it. -/
theorem locate_decreasing_tag :
    (Parser.only tagSource tagCode).SpansRight tagSource none ∧
    ∃ found, locate? (Parser.only tagSource tagCode) tagSource none = some found ∧
      found.map (·.rangeStart) = [33, 25] ∧ ¬ found.Pairwise (·.rangeStart < ·.rangeStart) := by
  have hlocate : (locate? (Parser.only tagSource tagCode) tagSource none).map
      (fun found => found.map (·.rangeStart)) = some [33, 25] := by decide +kernel
  obtain ⟨found, hfound, hstarts⟩ := Option.map_eq_some_iff.1 hlocate
  refine ⟨Parser.only_spansRight tagCode_spanned, found, hfound, hstarts, fun hordered => ?_⟩
  have hsorted : [33, 25].Pairwise (· < ·) := hstarts ▸ List.pairwise_map.2 hordered
  revert hsorted
  decide

end TaggedStyles.Host
