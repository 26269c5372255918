import TaggedStyles.Grammar.Modifier
import TaggedStyles.Grammar.Rules

/-! Names, keys of members, and patterns that values are bound to. -/
namespace TaggedStyles.Grammar
set_option autoImplicit false

namespace Reading

/-- Any word, keywords included. -/
def anyName : Reading Text := do
  match ← sign with
  | .word w =>
    advance
    return w
  | _ => failure

def name : Reading Text := do
  match ← sign with
  | .word w =>
    let s ← setting
    ensure !(reserved.contains w)
    flawIf ((w == "await".toList && s.awaits) || (w == "yield".toList && s.yields))
    advance
    return w
  | _ => failure

def seesName : Reading Bool := return (← sign).isName

end Reading

/-- The key of a member: its computed parts, and its name if that is written down. -/
structure Key where
  parts : List Phrase := []
  name : Option Text := none
  secret : Bool := false

def Key.isName (k : Key) (s : String) : Bool := k.name == some s.toList

namespace Rules
open Reading

def index (r : Rules) : Reading Phrase := do
  symbol "["
  let c ← r.value
  symbol "]"
  return c

/-- The key of a member. A secret name is one only in a class. -/
def key (r : Rules) (secrets : Bool) : Reading Key := do
  match ← sign with
  | .word w =>
    advance
    return { name := some w }
  | .string s =>
    advance
    return { name := some s }
  | .number =>
    advance
    return {}
  | .secret w =>
    flawIf !secrets
    advance
    return { name := some w, secret := true }
  | _ => return { parts := [← r.index] }

/-! ## Patterns -/

/-- A pattern with its type and the value that it has by default. The flag tells whether there is one. -/
def bindingElement (r : Rules) : Reading (Phrase × Bool) := do
  let target ← r.read .binding
  if ← isTyped then let _ ← accept "?"
  let type ← r.annotation
  let initial ← r.initial
  return (.pattern target.names (target :: type ++ initial), !initial.isEmpty)

/-- A pattern for all that is left over, behind its dots. It has no value by default. -/
def bindingRest (r : Rules) : Reading Phrase := do
  symbol "..."
  let target ← r.read .binding
  if ← isTyped then flawIf (← accept "?")
  let type ← r.annotation
  let initial ← r.initial
  flawIf !initial.isEmpty
  return if type.isEmpty && initial.isEmpty then target else .pattern target.names (target :: type ++ initial)

/-- Items of which the last may stand for all that is left over, and that one if it is there. -/
def itemsAndRest {α : Type} (r : Rules) (close : String) (item : Reading α) :
    Reading (List α × Option Phrase) := do
  let (found, comma) ← items close do
    if ← sees "..." then return Sum.inr (← r.bindingRest) else return Sum.inl (← item)
  let rests := found.filterMap Sum.getRight?
  flawIf (found.dropLast.any Sum.isRight || (comma && !rests.isEmpty && !(← setting).ambient))
  return (found.filterMap Sum.getLeft?, rests.getLast?)

/-- One entry of a pattern in braces. -/
def bindingEntry (r : Rules) : Reading Phrase := do
  let named ← seesName
  let k ← r.key false
  if named && !(← sees ":") then
    let own := k.name.toList
    return .pattern own (← r.initial)
  else
    symbol ":"
    let (target, _) ← r.bindingElement
    return .pattern target.names (k.parts ++ [target])

def binding (r : Rules) : Reading Phrase := do
  if ← accept openBrace then
    let (entries, rest) ← r.itemsAndRest closeBrace r.bindingEntry
    symbol closeBrace
    flawIf !(rest.all Phrase.isTypedName)
    let parts := entries ++ rest.toList
    return .pattern (parts.flatMap Phrase.names) [.other parts]
  else if ← accept "[" then
    let (entries, rest) ← r.itemsAndRest "]" do
      if ← sees "," then return Phrase.gap else return (← r.bindingElement).1
    symbol "]"
    let parts := entries ++ rest.toList
    return .pattern (parts.flatMap Phrase.names) [.other parts]
  else return .pattern [← name] []

end Rules
end TaggedStyles.Grammar
