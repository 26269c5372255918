import TaggedStyles.Grammar.Types

/-! Objects written as entries in braces, and lists in square brackets. -/
namespace TaggedStyles.Grammar.Rules
set_option autoImplicit false
open Reading

/-- All entries or items of something, spread into another. -/
def spread (r : Rules) : Reading Phrase := do
  symbol "..."
  return .spread (← r.value)

def accessorEntry (r : Rules) (set : Bool) (ms : Modifiers) : Reading Phrase := do
  let k ← r.key false
  let f ← r.wholeFunction {}
  flawIf !(fitsAccessor (← isTyped) set f.parameters)
  allowModifiers [] ms
  return .other (k.parts ++ f.parts)

/-- An entry: a function, a name that is its own key, or a key with a value. -/
def entry (r : Rules) : Reading Phrase := do
  if ← sees "..." then return ← r.spread
  let start := (← token).start
  let ms ← modifiers false false
  if ← acceptModifier "get" then return ← r.accessorEntry false ms
  if ← acceptModifier "set" then return ← r.accessorEntry true ms
  let yields ← accept "*"
  let s ← setting
  let named := (← seesName) && !((← seesWord "await") && s.awaits) && !((← seesWord "yield") && s.yields)
  let k ← r.key false
  if yields || (← seesAny ["(", "<"]) then
    allowModifiers ["async"] ms
    let f ← r.wholeFunction { awaits := ms.has "async", yields }
    return .other (k.parts ++ f.parts)
  allowModifiers [] ms
  if named && !(← sees ":") then
    let value ← r.initial
    if !value.isEmpty then modify fun c => { c with shorthands := start :: c.shorthands }
    return .shorthand start value
  else
    symbol ":"
    return .entry k.parts (← r.value)

def record (r : Rules) : Reading Phrase := do
  let (entries, comma) ← enclosed openBrace closeBrace r.entry
  return .record entries comma

/-- An item of a list, which may be left out. -/
def listItem (r : Rules) : Reading Phrase := do
  if ← sees "," then return .gap
  else if ← sees "..." then r.spread
  else r.value

def list (r : Rules) : Reading Phrase := do
  let (found, comma) ← enclosed "[" "]" r.listItem
  return .list found comma

/-- The arguments of a call. -/
def arguments (r : Rules) : Reading (List Phrase) := do
  let (found, _) ← enclosed "(" ")" do
    if ← sees "..." then r.spread else r.value
  return found

/-! ## Targets -/

/-- Take an expression as the target of an assignment. -/
def asTarget (c : Phrase) : Reading Unit := do
  match Phrase.asTarget? false c with
  | some t =>
    flawIf t.flawed
    modify fun c => { c with shorthands := c.shorthands.filter fun i => !(t.shorthands.contains i) }
  | none => failure

def asSimpleTarget (c : Phrase) : Reading Unit := ensure c.isSimpleTarget

end TaggedStyles.Grammar.Rules
