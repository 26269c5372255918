import TaggedStyles.Tree.Parser
import TaggedStyles.Proofs.Tree.Builder

/-! Parsing keeps the text. The tokens of a style text fall into constructs, one for each step of parsing;
the root that is built prints them as they are, with a semicolon behind each declaration that an at-word
ended. Every raw of it stands where it says. -/
namespace TaggedStyles
set_option autoImplicit false

/-! ## Constructs -/

/-- What is left to be read behind a run: the spaces and comments at the end of a declaration that no
semicolon ended are left, unless it is that of a custom property. -/
def Run.Found.left (custom : Bool) (f : Run.Found) : List Token :=
  match f.ending, f.colon with
  | .boundary _, true | .exhausted, true =>
    if custom then f.unread else (Run.splitEnd Token.isTrivia f.tokens).2 ++ f.unread
  | _, _ => f.unread

/-- Whether a run is a declaration that an at-word ended. -/
def Run.Found.severed (f : Run.Found) : Bool :=
  match f.ending, f.colon with
  | .boundary next, true => next.kind = .atWord
  | _, _ => false

/-- Whether a token starts like a custom property. -/
def Token.isCustom (t : Token) : Bool := ['-', '-'].isPrefixOf t.text

/-- What is left to be read behind the construct that starts with a token. -/
def unread (t : Token) (ts : List Token) : List Token :=
  match t.kind with
  | .space | .semicolon | .closeCurly | .comment | .openCurly => ts
  | .atWord => (collectParams [] ts).rest
  | _ => (Run.collect t.isCustom false [] none (t :: ts)).left t.isCustom

/-- Whether the construct that starts with a token is a declaration that an at-word ended. -/
def severed (t : Token) (ts : List Token) : Bool :=
  match t.kind with
  | .space | .semicolon | .closeCurly | .comment | .openCurly | .atWord => false
  | _ => (Run.collect t.isCustom false [] none (t :: ts)).severed

/-- A token that starts a run: neither a mark nor a comment nor a space. -/
def Token.StartsRun (t : Token) : Prop :=
  t.kind ∉ [Token.Kind.space, .semicolon, .closeCurly, .comment, .openCurly, .atWord]

/-- What one step of parsing reads. -/
structure Construct where
  tokens : List Token
  severed : Bool

namespace Construct

def text (c : Construct) : Text := Token.joined c.tokens

/-- A construct as the tree prints it. -/
def printed (c : Construct) : Text := c.text ++ if c.severed then [';'] else []

end Construct

/-- At most `n` constructs from the front of some tokens. -/
def constructs : Nat → List Token → List Construct
  | n + 1, t :: ts =>
    ⟨(t :: ts).take ((t :: ts).length - (unread t ts).length), severed t ts⟩ :: constructs n (unread t ts)
  | _, _ => []

theorem constructs_succ {t : Token} {ts us : List Token} (h : t :: ts = us ++ unread t ts) (n : Nat) :
    constructs (n + 1) (t :: ts) = ⟨us, severed t ts⟩ :: constructs n (unread t ts) := by
  have htake : (t :: ts).take ((t :: ts).length - (unread t ts).length) = us := by
    rw [h, List.length_append, Nat.add_sub_cancel, List.take_left]
  rw [constructs, htake]

/-- The constructs of a style text with holes. -/
def Excerpt.constructs (e : Excerpt) (holes : List Hole) : List Construct :=
  let tokens := (Reader.start e holes).drain.1
  TaggedStyles.constructs tokens.length tokens

/-- Where declarations end that an at-word ends, among constructs from an offset on. -/
def seams (i : Nat) : List Construct → List Nat
  | [] => []
  | c :: cs => (if c.severed then [i + c.text.size] else []) ++ seams (i + c.text.size) cs

/-- Where the declarations of a style text end that an at-word ends. -/
def Excerpt.seams (e : Excerpt) (holes : List Hole) : List Nat := TaggedStyles.seams 0 (e.constructs holes)

/-! ## What comes next -/

/-- The first token that is neither a space nor a comment. -/
def nextSolid? (ts : List Token) : Option Token := ts.find? (!·.isTrivia)

/-- An at-word comes next, and with it a node. -/
def severs (ts : List Token) : Bool := (nextSolid? ts).any (·.kind = .atWord)

/-- A block or the text ends next, or an at-word comes. -/
def endsNext (ts : List Token) : Prop := ∀ t ∈ nextSolid? ts, t.kind = .atWord ∨ t.kind = .closeCurly

theorem nextSolid?_append {ts us : List Token} (h : ∀ t ∈ ts, t.isTrivia = true) :
    nextSolid? (ts ++ us) = nextSolid? us := by
  unfold nextSolid?
  rw [List.find?_append, List.find?_eq_none.2 (fun t ht => by simp [h t ht]), Option.none_or]

theorem nextSolid?_cons {t : Token} {ts : List Token} (h : t.isTrivia = false) :
    nextSolid? (t :: ts) = some t := by
  simp [nextSolid?, h]

/-! ## Steps -/

namespace Builder
variable {cut seam : Nat → Prop} {e : Excerpt} {b b' : Builder} {more : Bool} {w p : Text} {t : Token}
  {ts rest : List Token} {fault : Option Fault}

/-- The invariant of parsing, in front of some tokens. -/
structure Reads (cut seam : Nat → Prop) (e : Excerpt) (b : Builder) (next : List Token) (written printed : Text) :
    Prop where
  stands : b.Stands cut seam e (severs next) written printed
  settled : b.Settled ∨ endsNext next

theorem Reads.of_settled (h : b.Stands cut seam e more w p) (hs : b.Settled) : b.Reads cut seam e ts w p :=
  ⟨h.of_settled hs _, .inl hs⟩

theorem Reads.front {holes : List Hole} (hcut : cut 0) : Reads cut seam e { excerpt := e, holes := holes } ts [] [] := by
  have hstands : Stands cut seam e { excerpt := e, holes := holes } true [] [] :=
    ⟨rfl, trivial, by simp, [], [], .nil, rfl, rfl, hcut⟩
  exact .of_settled hstands (.inr rfl)

/-- Only in front of an at-word or the end of a block the last declaration can lack its semicolon. -/
theorem Reads.settled_of_kind (h : b.Reads cut seam e (t :: ts) w p) (hspace : t.kind ≠ .space)
    (hcomment : t.kind ≠ .comment) (hclose : t.kind ≠ .closeCurly) (hat : t.kind ≠ .atWord) : b.Settled := by
  refine h.settled.resolve_right fun hends => ?_
  have hnext := hends t (nextSolid?_cons (by simp [Token.isTrivia, hspace, hcomment]))
  simp [hclose, hat] at hnext

/-- What is done with a run, by how it ends. -/
theorem run_spec {found : Run.Found} (hfound : Run.collect t.isCustom false [] none (t :: ts) = found)
    (hb : b.run fault t ts = .ok (b', rest)) :
    found.opener = none ∧ rest = found.left t.isCustom ∧
    match found.ending, found.colon with
    | .block, _ => b' = b.openRule found.tokens.dropLast
    | .semicolon, true => ∃ reached, b.declare found.tokens t.isCustom reached = .ok b'
    | _, true =>
      ∃ reached, b.declare (if t.isCustom then found.tokens else (Run.splitEnd Token.isTrivia found.tokens).1)
        t.isCustom reached = .ok b'
    | _, false => b.fill found.tokens = .ok b' := by
  have hcustom : ['-', '-'].isPrefixOf t.text = t.isCustom := rfl
  obtain ⟨tokens, colon, opener, ending, unread⟩ := found
  unfold Builder.run at hb
  simp only [hcustom, hfound] at hb
  cases opener with
  | some opener => cases ending <;> cases fault <;> cases hb
  | none =>
    refine ⟨rfl, ?_⟩
    have hfill : (do return (← b.fill tokens, unread)) = Except.ok (b', rest) →
        rest = unread ∧ b.fill tokens = .ok b' := by
      intro hb
      obtain ⟨built, hbuilt, hb⟩ := bind_eq_ok.1 hb
      obtain ⟨rfl, rfl⟩ := Prod.mk.inj (Except.ok.inj hb)
      exact ⟨rfl, hbuilt⟩
    -- What a declaration without a semicolon takes, and what it leaves.
    have hsplit : ∀ reached, (do
          return (← b.declare (if t.isCustom then (tokens, []) else Run.splitEnd Token.isTrivia tokens).1 t.isCustom
            reached, (if t.isCustom then (tokens, []) else Run.splitEnd Token.isTrivia tokens).2 ++ unread)) =
            Except.ok (b', rest) →
        (rest = if t.isCustom then unread else (Run.splitEnd Token.isTrivia tokens).2 ++ unread) ∧
        ∃ reached, b.declare (if t.isCustom then tokens else (Run.splitEnd Token.isTrivia tokens).1) t.isCustom
          reached = .ok b' := by
      intro reached hb
      obtain ⟨built, hbuilt, hb⟩ := bind_eq_ok.1 hb
      obtain ⟨rfl, rfl⟩ := Prod.mk.inj (Except.ok.inj hb)
      cases hc : t.isCustom with
      | true => exact ⟨by simp, reached, by simpa [hc] using hbuilt⟩
      | false => exact ⟨by simp, reached, by simpa [hc] using hbuilt⟩
    cases ending with
    | block =>
      obtain ⟨rfl, rfl⟩ := Prod.mk.inj (Except.ok.inj hb)
      exact ⟨rfl, rfl⟩
    | semicolon =>
      cases colon with
      | false => exact hfill hb
      | true =>
        obtain ⟨built, hbuilt, hb⟩ := bind_eq_ok.1 hb
        obtain ⟨rfl, rfl⟩ := Prod.mk.inj (Except.ok.inj hb)
        exact ⟨rfl, _, hbuilt⟩
    | boundary next =>
      cases colon with
      | false => exact hfill hb
      | true => exact hsplit _ hb
    | exhausted =>
      cases fault with
      | some fault => cases hb
      | none =>
        cases colon with
        | false => exact hfill hb
        | true => exact hsplit _ hb

/-- A declaration that no semicolon ended leaves the spaces and comments at its end. -/
theorem Reads.declare {tokens next : List Token} {custom : Bool} {reached : Nat} (h : b.Stands cut seam e true w p)
    (htiled : Tiled cut w.size (tokens ++ next)) (hcolon : ∃ c ∈ tokens, c.kind = .colon)
    (hinside : Run.SemicolonsInside tokens) (hnext : endsNext next)
    (hseam : ∀ kept left, tokens = kept ++ left →
      left ++ next = (if custom then next else (Run.splitEnd Token.isTrivia tokens).2 ++ next) →
      severs next = true → seam (w ++ Token.joined kept).size)
    (hb : b.declare (if custom then tokens else (Run.splitEnd Token.isTrivia tokens).1) custom reached = .ok b') :
    ∃ kept left, tokens = kept ++ left ∧ kept ≠ [] ∧
      left ++ next = (if custom then next else (Run.splitEnd Token.isTrivia tokens).2 ++ next) ∧
      b'.Reads cut seam e (left ++ next) (w ++ Token.joined kept)
        (p ++ (Token.joined kept ++ if severs next then [';'] else [])) := by
  obtain ⟨kept, left, hkept, htokens, hleft, htrivia⟩ : ∃ kept left,
      (if custom then tokens else (Run.splitEnd Token.isTrivia tokens).1) = kept ∧ tokens = kept ++ left ∧
      left ++ next = (if custom then next else (Run.splitEnd Token.isTrivia tokens).2 ++ next) ∧
      ∀ u ∈ left, u.isTrivia = true := by
    cases custom with
    | true => exact ⟨tokens, [], rfl, by simp, rfl, by simp⟩
    | false =>
      exact ⟨_, _, rfl, (Run.splitEnd_append Token.isTrivia tokens).symm, rfl, fun u hu => Run.of_mem_splitEnd hu⟩
  rw [hkept] at hb
  have hne : kept ≠ [] := by
    rintro rfl
    obtain ⟨c, hc, hk⟩ := hcolon
    rw [htokens, List.nil_append] at hc
    have hct := htrivia c hc
    simp [Token.isTrivia, hk] at hct
  obtain ⟨last, hlast⟩ : ∃ last, kept.getLast? = some last := ⟨_, List.getLast?_eq_some_getLast hne⟩
  have hopen : last.kind ≠ .semicolon := (htokens ▸ hinside).kind_last htrivia hlast
  rw [htokens, List.append_assoc] at htiled
  have hsolid : nextSolid? (left ++ next) = nextSolid? next := nextSolid?_append htrivia
  have hsevers : severs (left ++ next) = severs next := by rw [severs, hsolid, severs]
  have hdone := (h.declare hlast (if_neg hopen) hne htiled hb (severs next) fun _ => hseam _ _ htokens hleft).1
  refine ⟨kept, left, htokens, hne, hleft, ⟨?_, .inr ?_⟩⟩
  · rw [hsevers]
    simpa [hopen] using hdone
  · rw [endsNext, hsolid]
    exact hnext

theorem exists_init {s : Token} {us init : List Token} (h : t :: us = init ++ [s]) (hne : t.kind ≠ s.kind) :
    ∃ init, us = init ++ [s] := by
  cases init with
  | nil => exact absurd (congrArg Token.kind (List.cons.inj h).1) hne
  | cons u init => exact ⟨init, (List.cons.inj h).2⟩

theorem Reads.run (h : b.Reads cut seam e (t :: ts) w p) (htiled : Tiled cut w.size (t :: ts))
    (hkind : t.StartsRun) (hb : b.run fault t ts = .ok (b', rest))
    (hseam : ∀ us, t :: ts = us ++ (Run.collect t.isCustom false [] none (t :: ts)).left t.isCustom →
      (Run.collect t.isCustom false [] none (t :: ts)).severed = true → seam (w ++ Token.joined us).size) :
    rest = (Run.collect t.isCustom false [] none (t :: ts)).left t.isCustom ∧
    ∃ us, t :: ts = t :: us ++ rest ∧ b'.Reads cut seam e rest (w ++ Token.joined (t :: us))
      (p ++ (Token.joined (t :: us) ++
        if (Run.collect t.isCustom false [] none (t :: ts)).severed then [';'] else [])) := by
  have hfound := Run.collects t.isCustom false [] none (t :: ts)
  generalize he : Run.collect t.isCustom false [] none (t :: ts) = found at hfound hseam
  obtain ⟨hopener, hrest, hdone⟩ := run_spec he hb
  rw [← hrest] at hseam
  simp only [Token.StartsRun, List.mem_cons, List.not_mem_nil, or_false, not_or] at hkind
  obtain ⟨hspace, hsemi, hclose, hcomment, hopen, hat⟩ := hkind
  have hsettled := h.settled_of_kind hspace hcomment hclose hat
  have happ := hfound.append
  have hends := hfound.endsAsSaid
  have hcolon := hfound.mem_of_colon
  have hinside := hfound.semicolonsInside ⟨by simp, by simp⟩ hopener
  obtain ⟨us, hus⟩ := hfound.head ⟨hclose, hat⟩
  refine ⟨hrest, ?_⟩
  obtain ⟨tokens, colon, opener, ending, unread⟩ := found
  simp only at hopener hdone happ hus hrest hcolon
  subst hopener hus
  unfold Run.Found.EndsAsSaid at hends
  rw [← happ] at htiled
  have hstands := h.stands.of_settled hsettled true
  -- A run without a colon is filler.
  have hfill : b.fill (t :: us) = .ok b' → rest = unread → ∃ us, t :: ts = t :: us ++ rest ∧
      b'.Reads cut seam e rest (w ++ Token.joined (t :: us)) (p ++ (Token.joined (t :: us) ++ [])) := by
    rintro hb rfl
    obtain ⟨hfilled, hsettled'⟩ := hstands.fill hsettled htiled hb
    refine ⟨us, happ.symm, ?_⟩
    rw [List.append_nil]
    exact .of_settled hfilled hsettled'
  -- A declaration without a semicolon is followed by the end of its block or text, or by an at-word.
  have hdeclare : endsNext unread → colon = true → ending ≠ .semicolon ∧ ending ≠ .block →
      (severs unread = true → Run.Found.severed ⟨t :: us, colon, none, ending, unread⟩ = true) →
      (∃ reached, b.declare (if t.isCustom then t :: us else (Run.splitEnd Token.isTrivia (t :: us)).1) t.isCustom
        reached = .ok b') →
      rest = (if t.isCustom then unread else (Run.splitEnd Token.isTrivia (t :: us)).2 ++ unread) →
      ∃ us, t :: ts = t :: us ++ rest ∧ b'.Reads cut seam e rest (w ++ Token.joined (t :: us))
        (p ++ (Token.joined (t :: us) ++ if severs unread then [';'] else [])) := by
    rintro hnext hc hending hsevered ⟨reached, hb⟩ hrest
    obtain ⟨kept, left, htokens, hne, hleft, hreads⟩ := Reads.declare hstands htiled
      ((hcolon hc).resolve_left Bool.false_ne_true) (hinside hending).2 hnext (fun kept left htokens hleft hsevers =>
        hseam kept (by rw [← happ, htokens, hrest, ← hleft, List.append_assoc]) (hsevered hsevers)) hb
    obtain ⟨t', kept, rfl⟩ := List.exists_cons_of_ne_nil hne
    rw [List.cons_append, List.cons.injEq] at htokens
    obtain ⟨rfl, rfl⟩ := htokens
    rw [hrest, ← hleft]
    exact ⟨kept, by rw [← happ]; simp, hreads⟩
  cases ending with
  | block =>
    obtain ⟨init, s, htokens, hs⟩ := hends
    obtain ⟨init, rfl⟩ := exists_init htokens (hs ▸ hopen)
    rw [← List.cons_append] at htiled
    rw [← List.cons_append, List.dropLast_concat] at hdone
    obtain ⟨hopened, hsettled'⟩ := hstands.openRule htiled hspace hs true
    refine ⟨init ++ [s], by rw [hrest]; exact happ.symm, ?_⟩
    rw [hdone]
    simpa [Run.Found.severed] using Reads.of_settled hopened hsettled'
  | semicolon =>
    cases colon with
    | false => exact hfill hdone hrest
    | true =>
      obtain ⟨init, s, htokens, hs⟩ := hends
      obtain ⟨reached, hb⟩ := hdone
      obtain ⟨init, rfl⟩ := exists_init htokens (hs ▸ hsemi)
      rw [← List.cons_append] at hb htiled
      have hlast : (t :: init ++ [s]).getLast? = some s := List.getLast?_concat
      obtain ⟨hdeclared, hsettled'⟩ := hstands.declare hlast (by rw [if_pos hs, List.dropLast_concat])
        (List.cons_ne_nil t init) htiled hb true (absurd hs)
      refine ⟨init ++ [s], by rw [hrest]; exact happ.symm, ?_⟩
      simpa [Run.Found.severed, hs] using Reads.of_settled hdeclared (hsettled' hs)
  | boundary next =>
    cases colon with
    | false => exact hfill hdone hrest
    | true =>
      obtain ⟨⟨more, hunread⟩, hnext⟩ := hends
      simp only at hunread
      have hsolid : nextSolid? unread = some next := by
        rw [hunread]
        refine nextSolid?_cons ?_
        rcases hnext with hk | hk <;> simp [Token.isTrivia, hk]
      have hends : endsNext unread := by
        intro u hu
        rw [hsolid] at hu
        obtain rfl := Option.some.inj hu
        exact hnext.symm
      have hsevers : severs unread = decide (next.kind = .atWord) := by simp [severs, hsolid]
      have hdeclared := hdeclare hends rfl ⟨by simp, by simp⟩ (hsevers ▸ id) hdone hrest
      rw [hsevers] at hdeclared
      exact hdeclared
  | exhausted =>
    cases colon with
    | false => exact hfill hdone hrest
    | true =>
      obtain rfl : unread = [] := hends
      exact hdeclare (fun u hu => by simp [nextSolid?] at hu) rfl ⟨by simp, by simp⟩ (by simp [severs, nextSolid?])
        hdone hrest

theorem unread_of_startsRun (ht : t.StartsRun) :
    unread t ts = (Run.collect t.isCustom false [] none (t :: ts)).left t.isCustom ∧
    severed t ts = (Run.collect t.isCustom false [] none (t :: ts)).severed := by
  simp only [Token.StartsRun, List.mem_cons, List.not_mem_nil, or_false, not_or] at ht
  unfold unread severed
  cases hk : t.kind <;> simp_all

/-- A step reads one construct: it leaves what is unread behind it, and the pieces of the tree gain what it
prints. -/
theorem Reads.step (h : b.Reads cut seam e (t :: ts) w p) (htiled : Tiled cut w.size (t :: ts))
    (hb : b.step fault t ts = .ok (b', rest))
    (hseam : ∀ us, t :: ts = us ++ unread t ts → severed t ts = true → seam (w ++ Token.joined us).size) :
    rest = unread t ts ∧
    ∃ us, t :: ts = t :: us ++ rest ∧ b'.Reads cut seam e rest (w ++ Token.joined (t :: us))
      (p ++ (Token.joined (t :: us) ++ if severed t ts then [';'] else [])) := by
  have hcut := htiled.cut_start
  have hcut' : cut (w ++ t.text).size := by
    rw [Text.size_append]
    exact htiled.tail.cut_start
  -- Most marks are constructs of their own.
  have hmark : unread t ts = ts → severed t ts = false → rest = ts →
      b'.Reads cut seam e ts (w ++ t.text) (p ++ t.text) → rest = unread t ts ∧
      ∃ us, t :: ts = t :: us ++ rest ∧ b'.Reads cut seam e rest (w ++ Token.joined (t :: us))
        (p ++ (Token.joined (t :: us) ++ if severed t ts then [';'] else [])) := by
    rintro hunread hsevered rfl hreads
    refine ⟨hunread.symm, [], rfl, ?_⟩
    simpa [hsevered, Token.joined] using hreads
  have htrivia : t.isTrivia = true → nextSolid? (t :: ts) = nextSolid? ts := fun h =>
    @nextSolid?_append [t] ts (by simpa using h)
  have hends : t.isTrivia = true → endsNext (t :: ts) → endsNext ts := by
    intro ht hnext
    rwa [endsNext, htrivia ht] at hnext
  unfold Builder.step at hb
  split at hb
  · rename_i hk
    obtain ⟨rfl, rfl⟩ := Prod.mk.inj (Except.ok.inj hb)
    have ht : t.isTrivia = true := by simp [Token.isTrivia, hk]
    refine hmark (by simp [unread, hk]) (by simp [severed, hk]) rfl ⟨?_, ?_⟩
    · rw [severs, ← htrivia ht]
      exact h.stands.wait _
    · exact h.settled.imp id (hends ht)
  · rename_i hk
    obtain ⟨rfl, rfl⟩ := Prod.mk.inj (Except.ok.inj hb)
    have hs := h.settled_of_kind (by simp [hk]) (by simp [hk]) (by simp [hk]) (by simp [hk])
    obtain ⟨hstands, hs'⟩ := h.stands.freeSemicolon htiled.fits hk hcut' hs
    exact hmark (by simp [unread, hk]) (by simp [severed, hk]) rfl (.of_settled hstands hs')
  · rename_i hk
    obtain ⟨built, hclose, he⟩ := map_eq_ok.1 hb
    obtain ⟨rfl, rfl⟩ := Prod.mk.inj he
    have hsevers : severs (t :: ts) = false := by
      simp [severs, nextSolid?_cons (show t.isTrivia = false by simp [Token.isTrivia, hk]), hk]
    obtain ⟨hstands, hs⟩ := (hsevers ▸ h.stands).close htiled.fits hk hcut hcut' hclose false
    exact hmark (by simp [unread, hk]) (by simp [severed, hk]) rfl (.of_settled hstands hs)
  · rename_i hk
    obtain ⟨rfl, rfl⟩ := Prod.mk.inj (Except.ok.inj hb)
    have ht : t.isTrivia = true := by simp [Token.isTrivia, hk]
    obtain ⟨hstands, hs⟩ := h.stands.comment htiled.fits hk hcut hcut'
    refine hmark (by simp [unread, hk]) (by simp [severed, hk]) rfl ⟨?_, ?_⟩
    · rw [severs, ← htrivia ht]
      exact hstands
    · exact h.settled.imp hs (hends ht)
  · rename_i hk
    have hsevers : severs (t :: ts) = true := by
      simp [severs, nextSolid?_cons (show t.isTrivia = false by simp [Token.isTrivia, hk]), hk]
    obtain ⟨hrest, us, htokens, hstands, hs⟩ := (hsevers ▸ h.stands).atRule htiled hk hb
    refine ⟨by simp [unread, hk, hrest], us, htokens, ?_⟩
    have hplain : severed t ts = false := by simp [severed, hk]
    rw [hplain]
    rcases hs with hs | rfl
    · simpa using Reads.of_settled hstands hs
    · exact ⟨by simpa [severs, nextSolid?] using hstands, .inr fun u hu => by simp [nextSolid?] at hu⟩
  · rename_i hk
    obtain ⟨rfl, rfl⟩ := Prod.mk.inj (Except.ok.inj hb)
    have hs := h.settled_of_kind (by simp [hk]) (by simp [hk]) (by simp [hk]) (by simp [hk])
    obtain ⟨hstands, hs'⟩ := (h.stands.of_settled hs true).openBareRule htiled.fits hk hcut hcut' false
    exact hmark (by simp [unread, hk]) (by simp [severed, hk]) rfl (.of_settled hstands hs')
  · have hstarts : t.StartsRun := by simp_all [Token.StartsRun]
    obtain ⟨hunread, hsevered⟩ := @unread_of_startsRun t ts hstarts
    rw [hunread, hsevered]
    rw [hunread, hsevered] at hseam
    exact h.run htiled hstarts hb hseam

theorem steps_nil {n : Nat} (hb : steps fault n b [] = .ok b') : fault = none ∧ b = b' := by
  unfold Builder.steps at hb
  cases fault with
  | some fault => cases hb
  | none => exact ⟨rfl, Except.ok.inj hb⟩

theorem Reads.steps {n : Nat} (h : b.Reads cut seam e ts w p) (htiled : Tiled cut w.size ts) (hn : ts.length ≤ n)
    (hb : steps fault n b ts = .ok b') (hseams : ∀ j ∈ seams w.size (constructs n ts), seam j) :
    fault = none ∧ Token.joined ts = (constructs n ts).flatMap Construct.text ∧
      b'.Stands cut seam e false (w ++ Token.joined ts) (p ++ (constructs n ts).flatMap Construct.printed) ∧
      cut (w ++ Token.joined ts).size := by
  induction n generalizing b ts w p with
  | zero =>
    obtain rfl := List.eq_nil_of_length_eq_zero (Nat.le_zero.1 hn)
    obtain ⟨hfault, rfl⟩ := steps_nil hb
    exact ⟨hfault, rfl, by simpa [constructs, severs, nextSolid?] using h.stands,
      by simpa using htiled.cut_start⟩
  | succ n ih =>
    cases ts with
    | nil =>
      obtain ⟨hfault, rfl⟩ := steps_nil hb
      exact ⟨hfault, rfl, by simpa [constructs, severs, nextSolid?] using h.stands,
        by simpa using htiled.cut_start⟩
    | cons t ts =>
      obtain ⟨⟨b₁, rest⟩, hstep, hb⟩ := bind_eq_ok.1 hb
      obtain ⟨rfl, us, htokens, hreads⟩ := h.step htiled hstep fun us htokens hsevered => hseams _ (by
        simp [constructs_succ htokens, seams, hsevered, Construct.text])
      have hconstructs := constructs_succ htokens n
      rw [hconstructs, seams] at hseams
      rw [htokens] at htiled
      have hlen : (unread t ts).length ≤ n := by
        have hlen := congrArg List.length htokens
        simp only [List.length_cons, List.length_append] at hlen hn
        omega
      have hmore : ∀ j ∈ seams (w ++ Token.joined (t :: us)).size (constructs n (unread t ts)), seam j := by
        intro j hj
        rw [Text.size_append] at hj
        exact hseams j (List.mem_append_right _ hj)
      obtain ⟨hfault, htext, hstands, hcut⟩ :=
        ih hreads (by rw [Text.size_append]; exact htiled.right) hlen hb hmore
      have hjoined : w ++ Token.joined (t :: ts) = w ++ Token.joined (t :: us) ++ Token.joined (unread t ts) := by
        rw [List.append_assoc, ← Token.joined_append, ← htokens]
      refine ⟨hfault, ?_, ?_, hjoined ▸ hcut⟩
      · rw [hconstructs, List.flatMap_cons, ← htext, Construct.text, ← Token.joined_append, ← htokens]
      · rw [hconstructs, List.flatMap_cons, hjoined, ← List.append_assoc p]
        exact hstands

theorem Stands.finish {role : Role} {r : Root} (h : b.Stands cut seam e false e.text p) (hcut : cut e.text.size)
    (hb : b.finish role = .ok r) :
    r.Complete ∧ Lays cut seam e.origin.offset 0 r.pieces e.text p ∧ r.rangeStart = e.origin.offset ∧
      r.rangeEnd = e.origin.offset + e.text.size ∧ r.role = role := by
  obtain ⟨hexcerpt, hnodes, hframes, hlaid⟩ := h
  unfold Builder.finish at hb
  split at hb
  · cases hb
  · rename_i hnone
    obtain rfl := Except.ok.inj hb
    have hflag : ∀ s, piecesOf ((if b.nodes.isEmpty then none else some b.semicolon).getD s) b.nodes =
        piecesOf b.semicolon b.nodes := by
      intro s
      cases b.nodes <;> rfl
    have hgive := hlaid.give (by rwa [List.append_nil]) .nil (by simpa using hcut) []
    obtain ⟨w, p', hlays, hw, hp, -⟩ := hgive
    simp only [List.append_nil] at hlays hw hp
    refine ⟨⟨hnodes, fun hne => ?_⟩, ?_, by rw [hexcerpt], by rw [hexcerpt], rfl⟩
    · simp [hne]
    · unfold Root.pieces
      simp only [hflag, hexcerpt]
      rw [hw, hp]
      simpa [pieces, hnone, openPieces, hexcerpt, hw] using hlays

end Builder

/-! ## On the way -/

/-- The builders that reading a style text comes to, each with the tokens that are left. -/
inductive Excerpt.Comes (e : Excerpt) (holes : List Hole) : Builder → List Token → Prop
  | start : Comes e holes { excerpt := e, holes := (Reader.start e holes).holes } (Reader.start e holes).drain.1
  | step {b b' : Builder} {t : Token} {ts rest : List Token} : Comes e holes b (t :: ts) →
      b.step (Reader.start e holes).drain.2.1 t ts = .ok (b', rest) → Comes e holes b' rest

/-- The result of parsing is decided by what reading comes to. -/
theorem Excerpt.Comes.spec {cut : Nat → Prop} {e : Excerpt} {holes : List Hole} {b : Builder} {us : List Token}
    (hcuts : Cuts e.text (holes.filter (Hole.fits e.text.size)) cut) (h : e.Comes holes b us) :
    (∃ w p, b.Reads cut (fun _ => True) e us w p ∧ Tiled cut (Text.size w) us) ∧
      ∃ n, us.length ≤ n ∧ ∀ role, Root.parse e holes role =
        Builder.steps (Reader.start e holes).drain.2.1 n b us >>= (·.finish role) := by
  induction h with
  | start =>
    have htiled := (Reader.drain_tiled hcuts).1
    exact ⟨⟨[], [], .front htiled.cut_start, htiled⟩, _, Nat.le_refl _, fun role => rfl⟩
  | @step b b' t ts rest _ hstep ih =>
    obtain ⟨⟨w, p, hreads, htiled⟩, n, hn, hparse⟩ := ih
    obtain ⟨-, us, hsplit, hreads'⟩ := hreads.step htiled hstep fun _ _ _ => trivial
    have hlength := congrArg List.length hsplit
    simp only [List.length_append, List.length_cons] at hlength hn
    obtain ⟨m, rfl⟩ : ∃ m, n = m + 1 := ⟨n - 1, by omega⟩
    refine ⟨⟨_, _, hreads', ?_⟩, m, by omega, fun role => ?_⟩
    · rw [Text.size_append]
      exact (hsplit ▸ htiled).right
    · rw [hparse role, Builder.steps, hstep]
      rfl

/-! ## Roots -/

namespace Root
variable {e : Excerpt} {holes : List Hole} {role : Role} {r : Root}

/-- A root as it was read: nothing has to be inferred for it, and its pieces stand in the text. -/
structure ReadFrom (cut : Nat → Prop) (e : Excerpt) (holes : List Hole) (role : Role) (r : Root) : Prop where
  complete : r.Complete
  lays : Lays cut (· ∈ e.seams holes) e.origin.offset 0 r.pieces e.text r.css
  rangeStart : r.rangeStart = e.origin.offset
  rangeEnd : r.rangeEnd = e.origin.offset + e.text.size
  role : r.role = role

theorem parse_spec {cut : Nat → Prop} (hcuts : Cuts e.text (holes.filter (Hole.fits e.text.size)) cut)
    (h : Root.parse e holes role = .ok r) :
    r.ReadFrom cut e holes role ∧ e.text = (e.constructs holes).flatMap Construct.text ∧
      r.css = (e.constructs holes).flatMap Construct.printed := by
  obtain ⟨htiled, rest, htext, hall⟩ := Reader.drain_tiled hcuts
  unfold Root.parse at h
  unfold Excerpt.constructs
  rcases hdrain : (Reader.start e holes).drain with ⟨tokens, fault, last⟩
  simp only [hdrain] at h htiled htext hall ⊢
  obtain ⟨built, hsteps, hfinish⟩ := bind_eq_ok.1 h
  have hstart : Builder.Reads cut (· ∈ e.seams holes) e { excerpt := e, holes := (Reader.start e holes).holes } tokens
      [] [] :=
    .front htiled.cut_start
  obtain ⟨hfault, hjoined, hstands, hcut⟩ := hstart.steps htiled (Nat.le_refl _) hsteps fun j hj => by
    simpa only [Excerpt.seams, Excerpt.constructs, hdrain, Text.size_nil] using hj
  rw [hall hfault, List.append_nil] at htext
  rw [List.nil_append, ← htext] at hstands hcut
  obtain ⟨hcomplete, hlays, hrangeStart, hrangeEnd, hrole⟩ := hstands.finish hcut hfinish
  have hcss : r.css = (constructs tokens.length tokens).flatMap Construct.printed := by
    rw [css_complete hcomplete, hlays.texts]
    rfl
  refine ⟨⟨hcomplete, ?_, hrangeStart, hrangeEnd, hrole⟩, htext.trans hjoined, hcss⟩
  rw [hcss]
  exact hlays

/-- One semicolon is added for each severed declaration. -/
theorem size_printed (cs : List Construct) :
    Text.size (cs.flatMap Construct.printed) = Text.size (cs.flatMap Construct.text) + cs.countP (·.severed) := by
  induction cs with
  | nil => rfl
  | cons c cs ih =>
    have hc : (';' : Char).utf8Size = 1 := by decide
    rw [List.flatMap_cons, List.flatMap_cons, Text.size_append, Text.size_append, ih, Construct.printed,
      Text.size_append, List.countP_cons]
    split
    · rw [Text.size_cons, hc, Text.size_nil]
      omega
    · rw [Text.size_nil]
      omega

/-- A root prints the text it was read from exactly if no declaration in it was severed. -/
theorem css_eq_text_iff {cut : Nat → Prop} (hcuts : Cuts e.text (holes.filter (Hole.fits e.text.size)) cut)
    (h : Root.parse e holes role = .ok r) : r.css = e.text ↔ ∀ c ∈ e.constructs holes, c.severed = false := by
  obtain ⟨hread, htext, hcss⟩ := parse_spec hcuts h
  have hsize := size_printed (e.constructs holes)
  rw [← hcss, ← htext] at hsize
  have hcount : (e.constructs holes).countP (·.severed) = 0 ↔ ∀ c ∈ e.constructs holes, c.severed = false := by
    rw [List.countP_eq_zero]
    simp
  rw [← hcount]
  constructor
  · intro heq
    rw [heq] at hsize
    omega
  · intro hzero
    exact (hread.lays.eq_of_size (by omega)).symm

/-- A parsed style text is printed construct by construct, with a semicolon behind each declaration that an
at-word ended and with nothing else added, dropped or moved. -/
theorem css_of_parse (h : Root.parse e holes role = .ok r) :
    e.text = (e.constructs holes).flatMap Construct.text ∧
    r.css = (e.constructs holes).flatMap Construct.printed ∧
    ((∀ c ∈ e.constructs holes, c.severed = false) → r.css = e.text) := by
  obtain ⟨-, htext, hcss⟩ := parse_spec (Cuts.trivial _ _) h
  exact ⟨htext, hcss, (css_eq_text_iff (Cuts.trivial _ _) h).2⟩

/-- The semicolon goes in front of the spaces and comments behind the declaration, also in a block and behind
a hole. -/
theorem css_of_parse_severed :
    ∃ r, Root.parse ⟨"q\x7ba:$\x7bb\x7d /*c*/ @media x\x7bd:e\x7df:g\x7d".toList, Position.front, none⟩ [⟨4, 7⟩] =
        .ok r ∧
      r.css = "q\x7ba:$\x7bb\x7d; /*c*/ @media x\x7bd:e\x7df:g\x7d".toList := by
  obtain ⟨r, hr⟩ : ∃ r, Root.parse
      ⟨"q\x7ba:$\x7bb\x7d /*c*/ @media x\x7bd:e\x7df:g\x7d".toList, Position.front, none⟩ [⟨4, 7⟩] = .ok r :=
    exists_ok_of_isOk (by decide +kernel)
  exact ⟨r, hr, (css_of_parse hr).2.1.trans (by decide +kernel)⟩

end Root
end TaggedStyles
