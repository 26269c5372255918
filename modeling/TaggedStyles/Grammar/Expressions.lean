import TaggedStyles.Grammar.Access

/-! Operators, arrow functions and assignments. -/
namespace TaggedStyles.Grammar.Rules
set_option autoImplicit false
open Reading

/-! ## Operators in front and behind -/

/-- Whether an operand can follow `await` or `yield` at the token, so that they are no names. -/
def seesOperandBehind : Reading Bool :=
  holdsBehind do
    let k ← sign
    return !(← onNewLine) && k.level?.isNone && (k.isLiteral || k.isAnyWord)

/-- An operand with the operators in front of it and behind it. -/
def unary (r : Rules) : Reading Phrase := do
  let k ← sign
  if k.isMarkIn ["!", "~", "+", "-"] || k.isWordIn ["typeof", "void", "delete"] then
    pass
    return .signed (← r.read .unary)
  else if k.isMarkIn ["++", "--"] then
    advance
    let c ← r.read .unary
    asSimpleTarget c
    return .other [c]
  else if k.isMark "<" && (← setting).dialect.markup then r.read (.element false)
  else if k.isMark "<" && (← isTyped) then
    advance
    let type ← r.read .type
    symbol ">"
    return .cast [type] (← r.read .unary) []
  else if k.isWord "await" && ((← setting).awaits || (← seesOperandBehind)) then
    flawIf !(← setting).awaits
    pass
    return .signed (← within (fun s => { s with awaits := true }) (r.read .unary))
  else
    let c ← r.read .access
    if (← seesAny ["++", "--"]) && !(← onNewLine) then
      advance
      asSimpleTarget c
      return .other [c]
    else return c

/-! ## Operators between operands -/

/-- Two operands joined by an operator. A missing value must not be mixed with truth values, and a power
has no operator in front of its base. -/
def joined (operator : Sign) (left right : Phrase) : Reading Phrase := do
  if operator.isMark "??" then
    flawIf (match left, right with
      | _, .logical coalescing _ _ => !coalescing
      | .logical coalescing _ _, _ => !coalescing
      | _, _ => false)
    return .logical true left right
  else if operator.isMarkIn ["&&", "||"] then return .logical false left right
  else
    flawIf (operator.isMark "**" && match left with
      | .signed _ => true
      | _ => false)
    return .other [left, right]

/-- At most `n` operators, which bind more than a level, with their operands behind a first one. -/
def operators (r : Rules) (level : Nat) : Nat → Phrase → Reading Phrase
  | 0, left => return left
  | n + 1, left => do
    widen
    let t ← token
    match t.sign.level? with
    | none => return left
    | some own =>
      if own < level || (own == level && !t.sign.isMark "**") then return left
      else if t.sign.isWord "in" && !(← setting).hasIn then return left
      else if t.sign.isWordIn ["as", "satisfies"] then
        if !(← isTyped) || t.newline then return left
        pass
        operators r level n (.cast [] left [← r.read .type])
      else
        pass
        let right ← r.read (.operation own)
        operators r level n (← joined t.sign left right)

/-- Operands whose operators bind more than a level. -/
def operation (r : Rules) (level : Nat) : Reading Phrase := do
  let left ←
    if (← setting).hasIn && (← sign).isSecret then
      advance
      keyword "in"
      pure (.other [← r.read .unary])
    else r.read .unary
  r.operators level (← setting).bound left

/-! ## Arrow functions -/

/-- Whether an arrow function starts at a place. -/
inductive Guess where
  | no
  | maybe
  | yes

/-- The guess for round brackets, from what is behind the opening one. -/
def guessParameters : Reading Guess := do
  let second ← sign
  advance
  let third ← sign
  if second.isMark ")" then
    if third.isMark ":" then return if ← isTyped then .maybe else .no
    else return if third.isMarkIn ["=>", openBrace] then .yes else .no
  else if second.isMarkIn ["[", openBrace] then return .maybe
  else if second.isMark "..." then
    return if third.isName then .yes else if third.isLiteral then .no else .maybe
  else if second.isWordIn Modifiers.all && !second.isWord "async" && third.isName then
    return if third.isWord "as" then .no else .yes
  else if !second.isName && !second.isWord "this" then return .no
  else if third.isMark ":" then return .yes
  else if third.isMark "?" then
    advance
    return if ← seesAny [":", ",", "=", ")"] then .yes else .no
  else return if third.isMarkIn [",", "=", ")"] then .maybe else .no

/-- The guess for type parameters, from what is behind the opening mark. Where markup is allowed they
have a bound, a default or a comma, to be told from an element. -/
def guessTypeParameters : Reading Guess := do
  if !(← seesName) && !(← seesWord "const") then return .no
  else if (← setting).dialect.markup then
    let _ ← acceptWord "const"
    advance
    if ← acceptWord "extends" then return if ← seesAny ["=", ">", "/"] then .no else .yes
    else return if ← seesAny [",", "="] then .yes else .no
  else return .maybe

def guess : Reading Guess := do
  if (← seesAny ["(", "<"]) || (← seesWord "async") then
    return (← ahead do
      if ← seesWord "async" then
        advance
        if (← onNewLine) || !(← seesAny ["(", "<"]) then return .no
      if ← accept "(" then guessParameters
      else
        advance
        guessTypeParameters).getD .no
  else return .no

/-- An arrow function up to its arrow. -/
structure ArrowHead where
  awaits : Bool
  parts : List Phrase
  result : Bool

/-- The arrow, which stands on the line of the parameters. -/
def arrowMark : Reading Unit := do
  flawIf (← onNewLine)
  symbol "=>"

/-- The parameters of an arrow function in their brackets, up to the arrow. -/
def arrowHead (r : Rules) : Reading ArrowHead := do
  let awaits ← acceptWord "async"
  let (parts, result) ← within (fun s => { s with awaits := s.awaits || awaits }) do
    let types ← r.typeParameters
    let params ← r.parameters false
    flawIf params.this
    let result ← r.result ":"
    return (types ++ params.parts ++ result, !result.isEmpty)
  arrowMark
  return ⟨awaits, parts, result⟩

def arrowBody (r : Rules) (results : Bool) (head : ArrowHead) : Reading Phrase :=
  within (fun s => { s with awaits := head.awaits, yields := false }) do
    if ← sees openBrace then return .other (head.parts ++ [← r.functionBody])
    else return .arrow head.parts (← r.read (.assignment results))

/-- An arrow function with round brackets, if this is one. Where no result type is expected a colon must
follow a function that seems to have one. -/
def possibleArrow (r : Rules) (results : Bool) : Reading (Option Phrase) := do
  let saved ← get
  let place := saved.token.start
  if saved.notArrows.contains place then return none
  let found ← do
    match ← attempt r.arrowHead with
    | none => pure none
    | some head =>
      let c ← r.arrowBody results head
      pure (if results || !head.result || (← sees ":") then some c else none)
  if found.isNone then
    modify fun c => { saved with shorthands := c.shorthands, notArrows := place :: c.notArrows }
  return found

/-- Whether a name with `async` in front of it is the parameter of an arrow function. -/
def seesAsyncArrow : Reading Bool := do
  if ← seesWord "async" then
    holdsBehind do
      if (← onNewLine) || !(← seesName) then return false
      holdsBehind (sees "=>")
  else return false

/-- An arrow function, if one starts here. -/
def arrowFunction (r : Rules) (results : Bool) : Reading (Option Phrase) := do
  match ← guess with
  | .yes => return some (← r.arrowBody true (← r.arrowHead))
  | .maybe => r.possibleArrow results
  | .no =>
    if ← seesAsyncArrow then
      pass
      let _ ← within (fun s => { s with awaits := true }) name
      arrowMark
      return some (← r.arrowBody results ⟨true, [], false⟩)
    else return none

/-! ## Assignments -/

def assignmentMarks : List String :=
  ["=", "+=", "-=", "*=", "/=", "%=", "**=", "<<=", ">>=", ">>>=", "&=", "|=", "^=", "&&=", "||=", "??="]

def yielded (r : Rules) : Reading Phrase := do
  flawIf !(← setting).yields
  pass
  if ← onNewLine then return Phrase.plain
  within (fun s => { s with yields := true }) do
    let all ← accept "*"
    let k ← sign
    let none := k.isMarkIn [";", closeBrace, ")", "]", ":", ","] || k.isWord "in" || k == .ending
    if all || !none then return .other [← r.read (.assignment true)] else return Phrase.plain

/-- A choice behind its condition, if it is one. -/
def choice (r : Rules) (results : Bool) (test : Phrase) : Reading Phrase := do
  if ← accept "?" then
    let yes ← within (fun s => { s with hasIn := true }) (r.read (.assignment false))
    symbol ":"
    return .other [test, yes, ← r.read (.assignment results)]
  else return test

def assignment (r : Rules) (results : Bool) : Reading Phrase := do
  if (← seesWord "yield") && ((← setting).yields || (← seesOperandBehind)) then return ← r.yielded
  if let some c := ← r.arrowFunction results then return c
  let c ← r.read (.operation 0)
  let k ← sign
  match c, k.isMark "=>" with
  | .name _, true =>
    arrowMark
    r.arrowBody results ⟨false, [], false⟩
  | _, _ =>
    if k.isMarkIn assignmentMarks then
      let plain := k.isMark "="
      if plain then asTarget c else asSimpleTarget c
      advance
      return .assigned plain c (← r.read (.assignment results))
    else r.choice results c

def expression (r : Rules) : Reading Phrase :=
  within (fun s => { s with decorating := false }) do
    let first ← r.read (.assignment true)
    let more ← eachAfter "," (r.read (.assignment true))
    return if more.isEmpty then first else .sequence (first :: more)

end TaggedStyles.Grammar.Rules
