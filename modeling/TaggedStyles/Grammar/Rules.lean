import TaggedStyles.Grammar.Cursor

/-! The rules of host code call each other through `Rules.read`, one rule for each `Goal`, so that each of
them is an ordinary function and only the knot that ties them is recursive. -/
namespace TaggedStyles.Grammar
set_option autoImplicit false

/-- What is to be read. -/
inductive Goal where
  /-- A statement; `alone` if it is the whole branch of another, where nothing may be declared. -/
  | statement (alone : Bool)
  | expression
  /-- An expression without commas. Unless `results` holds, a colon behind an arrow function's parameters
  is taken for a result type only if another colon follows the function. -/
  | assignment (results : Bool)
  /-- Operands whose operators bind more than a level. -/
  | operation (level : Nat)
  | unary
  /-- An expression of members, calls and templates. -/
  | access
  /-- What an object is made from: the same without calls. -/
  | maker
  | type
  /-- A name or pattern that values are bound to. -/
  | binding
  /-- An element written as markup; `inside` if text of another element follows. -/
  | element (inside : Bool)
deriving DecidableEq

structure Rules where
  read : Goal → Reading Phrase

namespace Rules
open Reading

/-- An expression without commas, where `in` is an operator. -/
def value (r : Rules) : Reading Phrase :=
  within (fun s => { s with hasIn := true, decorating := false }) (r.read (.assignment true))

/-- An expression that may have commas, where `in` is an operator. -/
def values (r : Rules) : Reading Phrase :=
  within (fun s => { s with hasIn := true }) (r.read .expression)

/-- A value behind an equals sign, if one is there. -/
def initial (r : Rules) : Reading (List Phrase) := do
  if ← accept "=" then return [← r.value] else return []

/-- A type behind a colon, if typed code has one here. -/
def annotation (r : Rules) : Reading (List Phrase) := do
  if (← isTyped) && (← accept ":") then return [← r.read .type] else return []

/-- What stands in front of classes and their members behind at signs. -/
def decorators (r : Rules) : Reading (List Phrase) :=
  eachAfter "@" (within (fun s => { s with decorating := true }) (r.read .access))

end Rules
end TaggedStyles.Grammar
