import TaggedStyles.Grammar.Generic

/-! Functions: parameters, result and body, as declarations, expressions and members have them. -/
namespace TaggedStyles.Grammar
set_option autoImplicit false

/-- What kind of function its words and marks make it. -/
structure Manner where
  awaits : Bool := false
  yields : Bool := false
  /-- Whether it makes the objects of a class. -/
  constructs : Bool := false

/-- The parameters of a function. -/
structure Parameters where
  parts : List Phrase
  /-- How many there are, the last for all that is left over included. -/
  count : Nat
  rest : Bool
  /-- Whether the first has a value by default. -/
  initial : Bool
  /-- Whether the type of `this` is given. -/
  this : Bool

/-- A function behind its name. -/
structure Function where
  parts : List Phrase
  parameters : Parameters
  generic : Bool
  hasBody : Bool

namespace Rules
open Reading

/-! ## Parameters -/

/-- One parameter. Only where objects are made it may be a member as well. -/
def parameter (r : Rules) (constructs : Bool) : Reading (Phrase × Bool) := do
  let marks ← r.decorators
  let ms ← modifiers false false
  let typed ← isTyped
  allowModifiers
    (if !typed then [] else if constructs then ["readonly", "override"] ++ Modifiers.accessibility
      else ["readonly"]) ms
  let (c, initial) ← r.bindingElement
  return (.other (marks ++ [c]), initial)

/-- The type of `this` as the first parameter of typed code. -/
def thisParameter (r : Rules) : Reading (Option Phrase) := do
  if (← isTyped) && (← seesWord "this") then
    pass
    let type ← r.annotation
    if !(← sees ")") then symbol ","
    return some (.other type)
  else return none

def parameters (r : Rules) (constructs : Bool) : Reading Parameters := do
  symbol "("
  let this ← r.thisParameter
  let (found, rest) ← r.itemsAndRest ")" (r.parameter constructs)
  symbol ")"
  return {
    parts := this.toList ++ found.map (·.1) ++ rest.toList
    count := found.length + if rest.isSome then 1 else 0
    rest := rest.isSome
    initial := found.head?.any (·.2)
    this := this.isSome }

/-! ## Bodies -/

/-- The statements of a function in braces. -/
def functionBody (r : Rules) : Reading Phrase :=
  .other <$> within (fun s => { s with returns := true, hasIn := true, decorating := false }) do
    braced (some <$> r.read (.statement false))

/-- A function from its type parameters on. Typed code may leave out the body, and must where it only
declares. -/
def function (r : Rules) (m : Manner) : Reading Function :=
  within (fun s => { s with awaits := m.awaits, yields := m.yields, hasIn := true, decorating := false }) do
    let types ← r.typeParameters
    let params ← r.parameters m.constructs
    let result ← r.result ":"
    let body ← if ← sees openBrace then pure [← r.functionBody] else pure []
    if body.isEmpty then
      ensure (← isTyped)
      terminator
    else flawIf (← setting).ambient
    return ⟨types ++ params.parts ++ result ++ body, params, !types.isEmpty, !body.isEmpty⟩

/-- A function that must have a body. -/
def wholeFunction (r : Rules) (m : Manner) : Reading Function := do
  let f ← r.function m
  flawIf !f.hasBody
  return f

/-! ## Named functions -/

/-- A function from the keyword on; `declared` if it needs a name and its body may be missing. -/
def functionFromKeyword (r : Rules) (awaits declared named : Bool) : Reading Phrase := do
  keyword "function"
  let yields ← accept "*"
  let m : Manner := { awaits, yields }
  let own ←
    if ← seesName then
      let inner := fun s : Setting => { s with awaits, yields }
      some <$> within (if declared then id else inner) name
    else do
      flawIf named
      pure none
  let f ← if declared then r.function m else r.wholeFunction m
  return .pattern own.toList [.other f.parts]

/-- Whether a function starts at the token, perhaps one that awaits. -/
def seesFunction : Reading Bool := do
  if ← seesWord "function" then return true
  else if ← seesWord "async" then holdsBehind (return (← seesWord "function") && !(← onNewLine))
  else return false

/-- A function with the word in front of it that says that it awaits. -/
def functionWithWords (r : Rules) (declared named : Bool) : Reading Phrase := do
  let awaits ← acceptWord "async"
  r.functionFromKeyword awaits declared named

/-! ## Accessors -/

/-- Whether the parameters are those of a function that gets or sets a member. -/
def fitsAccessor (typed set : Bool) (p : Parameters) : Bool :=
  if set then !p.rest && p.count == 1 && !(typed && p.initial) else p.count == 0

end Rules
end TaggedStyles.Grammar
