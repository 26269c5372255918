import TaggedStyles.Tree.Builder

/-! Parsing a style text. The grammar is permissive: a run of tokens goes on until a semicolon, an
opening or closing mark or an at-rule stands outside its brackets, and is then a declaration, a rule,
or filler. Trailing spaces and comments of a declaration are left to be read again.

`Root.parse` is the whole way from an excerpt and its holes to a root. -/
namespace TaggedStyles
set_option autoImplicit false

/-! ## Brackets -/

/-- The closing mark of an opening one. Braces count only where they are asked for. -/
def Token.Kind.closer? (braces : Bool) : Token.Kind → Option Token.Kind
  | .openParen => some .closeParen
  | .openSquare => some .closeSquare
  | .openCurly => if braces then some .closeCurly else none
  | _ => none

/-! ## Runs -/

/-- How a run ended: by its last token, by a token that is not part of it, or with the text. -/
inductive Run.Ending where
  | semicolon
  | block
  | boundary (next : Token)
  | exhausted
deriving DecidableEq

/-- A run of tokens as it was found, whether a colon stood outside its brackets, the outermost bracket
that is still open, and the tokens behind it. -/
structure Run.Found where
  tokens : List Token
  colon : Bool
  opener : Option Token
  ending : Run.Ending
  unread : List Token
deriving DecidableEq

namespace Run

def Found.cons (t : Token) (f : Found) : Found := { f with tokens := t :: f.tokens }

/-- Collect a run. `custom` says that it starts like a custom property, whose value may hold blocks;
`closers` are the closing marks that are awaited, innermost first, and `opener` the outermost opening
one. -/
def collect (custom : Bool) : (colon : Bool) → (closers : List Token.Kind) → (opener : Option Token) → List Token → Found
  | colon, _, opener, [] => ⟨[], colon, opener, .exhausted, []⟩
  | colon, closers, opener, t :: ts =>
    match t.kind.closer? (custom && colon) with
    | some closer => (collect custom colon (closer :: closers) (opener <|> some t) ts).cons t
    | none =>
      match closers with
      | [] =>
        match t.kind with
        | .semicolon => ⟨[t], colon, opener, .semicolon, ts⟩
        | .openCurly => ⟨[t], colon, opener, .block, ts⟩
        | .closeCurly | .atWord => ⟨[], colon, opener, .boundary t, t :: ts⟩
        | .colon => (collect custom true [] opener ts).cons t
        | _ => (collect custom colon [] opener ts).cons t
      | closer :: outer =>
        if t.kind = closer then
          (collect custom colon outer (if outer.isEmpty then none else opener) ts).cons t
        else (collect custom colon closers opener ts).cons t

/-- The offset behind a token. -/
def behind (t : Token) : Nat := t.start.getD 0 + t.text.size

/-- How far a run has been read, its ending included. -/
def Found.reached (f : Found) (size : Nat) : Nat :=
  match f.ending with
  | .semicolon | .block => (f.tokens.getLast?.map behind).getD 0
  | .boundary next => behind next
  | .exhausted => size

end Run

/-! ## At-rules -/

/-- The parameters of an at-rule and how it ended. -/
structure AtRuleRun where
  params : List Token
  ending : Run.Ending
  unread : List Token
deriving DecidableEq

/-- Collect the parameters of an at-rule. An unmatched closing mark belongs to the block around it and
ends the at-rule too. -/
def collectParams (closers : List Token.Kind) : List Token → AtRuleRun
  | [] => ⟨[], .exhausted, []⟩
  | t :: ts =>
    let closers :=
      match t.kind.closer? (!closers.isEmpty) with
      | some closer => closer :: closers
      | none => if closers.head? = some t.kind then closers.tail else closers
    match closers, t.kind with
    | [], .semicolon => ⟨[], .semicolon, t :: ts⟩
    | [], .openCurly => ⟨[], .block, ts⟩
    | [], .closeCurly => ⟨[], .boundary t, ts⟩
    | _, _ =>
      let run := collectParams closers ts
      { run with params := t :: run.params }

namespace Builder

/-- The end of an at-rule that ends with the last of some tokens. -/
def stopBehind (b : Builder) (ts : List Token) : Option Position :=
  (ts.getLast?.bind Token.anchor?).map b.positionBehind

/-- Read an at-rule whose name is a token and whose parameters follow. A trailing space or comment at
the end of the text is left waiting unless the at-rule has no parameters. -/
def atRule (b : Builder) (fault : Option Fault) (t : Token) (ts : List Token) :
    Except Fault (Builder × List Token) := do
  let start := t.start.getD 0
  let name := t.text.drop 1
  if name.isEmpty then throw (b.error .unnamedAtRule start)
  let run := collectParams [] ts
  if run.ending = .exhausted then
    if let some fault := fault then throw fault
  let place := b.position start
  let (params, between) := Run.splitEnd Token.isTrivia run.params
  let last := run.ending = .exhausted && !params.isEmpty
  let afterName := if params.isEmpty then [] else Token.joined (params.takeWhile Token.isTrivia)
  let params := params.dropWhile Token.isTrivia
  let (value, raw) := Run.clean false params
  let stop :=
    match run.ending with
    | .semicolon => run.unread.head?.bind fun t => some (b.positionBehind (t.start.getD 0))
    | .boundary _ => b.stopBehind (run.params.filter (!Run.isSpaceToken ·))
    | .exhausted => b.stopBehind params
    | .block => none
  let raws : Raws :=
    { before := some b.pending
      between := some (if last then [] else Token.joined between)
      afterName := some afterName
      params := raw
      ends := { before := some place.offset } }
  let pending := if last then Token.joined between else []
  let next := { b.taken with pending := pending }
  let node := Node.leaf (.atRule name value) raws (some ⟨place, stop⟩)
  match run.ending with
  | .semicolon => return ({ next with semicolon := true }.add node, run.unread.drop 1)
  | .block => return (next.openBlock ⟨.atRule name value, raws, ⟨place, none⟩, []⟩, run.unread)
  | .boundary closing => return (← (next.add node).close closing, run.unread)
  | .exhausted => return (next.add node, run.unread)

/-! ## Steps -/

/-- Read a run of tokens that starts with none of the marks: a declaration, the header of a rule, or
filler. -/
def run (b : Builder) (fault : Option Fault) (t : Token) (ts : List Token) :
    Except Fault (Builder × List Token) := do
  let custom := ['-', '-'].isPrefixOf t.text
  let found := Run.collect custom false [] none (t :: ts)
  let reached := found.reached b.excerpt.text.size
  if found.ending = .exhausted then
    if let some fault := fault then throw fault
  if let some opener := found.opener then
    throw (b.error .unclosedBracket (opener.start.getD 0))
  match found.ending, found.colon with
  | .block, _ => return (b.openRule found.tokens.dropLast, found.unread)
  | .semicolon, true => return (← b.declare found.tokens custom reached, found.unread)
  | _, true =>
    let (tokens, trivia) := if custom then (found.tokens, []) else Run.splitEnd Token.isTrivia found.tokens
    return (← b.declare tokens custom reached, trivia ++ found.unread)
  | _, false => return (← b.fill found.tokens, found.unread)

/-- Read one construct. `fault` is what stops reading behind the last token, if anything does. -/
def step (b : Builder) (fault : Option Fault) (t : Token) (ts : List Token) :
    Except Fault (Builder × List Token) :=
  match t.kind with
  | .space => .ok (b.wait t.text, ts)
  | .semicolon => .ok (b.freeSemicolon t, ts)
  | .closeCurly => (b.close t).map (·, ts)
  | .comment => .ok (b.comment t, ts)
  | .atWord => b.atRule fault t ts
  | .openCurly => .ok (b.openBareRule t, ts)
  | _ => b.run fault t ts

/-- Read at most `n` constructs. -/
def steps (fault : Option Fault) : Nat → Builder → List Token → Except Fault Builder
  | _, b, [] =>
    match fault with
    | some fault => .error fault
    | none => .ok b
  | 0, b, _ :: _ => .ok b
  | n + 1, b, t :: ts => do
    let (b, ts) ← b.step fault t ts
    steps fault n b ts

/-- Read all constructs: each takes a token at least. -/
def parse (b : Builder) (fault : Option Fault) (ts : List Token) : Except Fault Builder :=
  steps fault ts.length b ts

end Builder

/-- Parse an excerpt with holes into a root that plays a part in its document. -/
def Root.parse (excerpt : Excerpt) (holes : List Hole) (role : Role := .component [] none) :
    Except Fault Root := do
  let reader := Reader.start excerpt holes
  let (tokens, fault, _) := reader.drain
  let built ← Builder.parse { excerpt := excerpt, holes := reader.holes } fault tokens
  built.finish role

end TaggedStyles
