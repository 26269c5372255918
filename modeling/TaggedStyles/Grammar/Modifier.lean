import TaggedStyles.Grammar.Cursor

/-! Modifiers: words in front of a declaration or a member that say what kind of it follows. Each of them
can also be a name, so what comes behind it decides. -/
namespace TaggedStyles.Grammar
set_option autoImplicit false

abbrev Modifiers := List Text

namespace Modifiers

def all : List String :=
  ["abstract", "accessor", "async", "const", "declare", "default", "export", "in", "out", "override",
   "private", "protected", "public", "readonly", "static"]

/-- The modifiers that say who may use a member. -/
def accessibility : List String := ["private", "protected", "public"]

/-- The modifiers of code without types. -/
def untyped : List String := ["static", "async", "accessor"]

def has (ms : Modifiers) (m : String) : Bool := ms.contains m.toList

def hasAny (ms : Modifiers) (names : List String) : Bool := names.any ms.has

/-- The modifiers that must not stand in front of another. -/
def notBefore (m : Text) : List String :=
  if accessibility.any (·.toList == m) then
    accessibility ++ ["override", "static", "accessor", "readonly", "async", "abstract"]
  else if m == "static".toList then ["override", "accessor", "readonly", "async"]
  else if m == "override".toList then ["accessor", "readonly", "async"]
  else []

/-- Whether each modifier stands once and in its place behind those in `seen`. -/
def areOrdered (seen : Modifiers) : Modifiers → Bool
  | [] => true
  | m :: ms => !seen.contains m && !seen.hasAny (notBefore m) && areOrdered (m :: seen) ms

end Modifiers

namespace Reading

/-! ## What follows a modifier -/

def canBeModified : Reading Bool := do
  match ← sign with
  | .word _ | .secret _ | .number | .string _ => return true
  | k => return k.isMarkIn ["[", openBrace, "*", "..."]

/-- The same where the modifier is `export`. -/
def canBeExported : Reading Bool := do
  let k ← sign
  return k.isMark "@" || (!k.isMarkIn ["*", openBrace] && !k.isWord "as" && (← canBeModified))

/-- The same where the modifier is `default`. -/
def canBeDefault : Reading Bool := do
  let k ← sign
  if k.isWord "abstract" then
    holdsBehind (return (← seesWord "class") && !(← onNewLine))
  else if k.isWord "async" then
    holdsBehind (return (← seesWord "function") && !(← onNewLine))
  else return k.isWordIn ["class", "function", "interface"] || k.isMark "@"

def modifies : Reading Bool := do
  let k ← sign
  if k.isWord "const" then holdsBehind (seesWord "enum")
  else if k.isWord "export" then
    holdsBehind do
      if ← seesWord "default" then holdsBehind canBeDefault
      else if ← seesWord "type" then holdsBehind canBeExported
      else canBeExported
  else if k.isWord "default" then holdsBehind canBeDefault
  else if k.isWordIn ["static", "get", "set"] then holdsBehind canBeModified
  else holdsBehind (return !(← onNewLine) && (← canBeModified))

/-- Move over a word if it modifies what comes next. -/
def acceptModifier (w : String) : Reading Bool := do
  if (← seesWord w) && (← modifies) then
    pass
    return true
  else return false

/-! ## Modifiers of members and parameters -/

/-- The next modifier. A constant is one only in some places; in a class `static` is none in front of a
block, nor behind another. -/
def modifier? (constant inClass seenStatic : Bool) : Reading (Option Text) := do
  match ← sign with
  | .word w =>
    if !(Modifiers.all.any (·.toList == w)) then return none
    let fits ←
      if w == "const".toList then
        if constant then holdsBehind (return !(← onNewLine) && (← canBeModified)) else pure false
      else if w == "static".toList && seenStatic then pure false
      else if w == "static".toList && inClass && (← holdsBehind (sees openBrace)) then pure false
      else modifies
    if fits then
      pass
      return some w
    else return none
  | _ => return none

/-- At most `n` modifiers behind those in `seen`, which come reversed in. -/
def modifiersWithin (constant inClass : Bool) : Nat → Modifiers → Reading Modifiers
  | 0, seen => return seen.reverse
  | n + 1, seen => do
    match ← modifier? constant inClass (seen.has "static") with
    | some m => modifiersWithin constant inClass n (m :: seen)
    | none => return seen.reverse

/-- The modifiers in front of a member or a parameter. -/
def modifiers (constant inClass : Bool) : Reading Modifiers := do
  let found ← modifiersWithin constant inClass (← setting).bound []
  flawIf !(Modifiers.areOrdered [] found)
  return found

/-- Modifiers that are out of place are a flaw; so are those of typed code elsewhere. -/
def allowModifiers (allowed : List String) (ms : Modifiers) : Reading Unit := do
  let typed ← isTyped
  flawIf (ms.any fun m => !(allowed.any (·.toList == m)) ||
    (!typed && !(Modifiers.untyped.any (·.toList == m))))

/-! ## Modifiers of declarations -/

/-- Whether the word at the token modifies the declaration that comes next. -/
def modifiesDeclaration : Reading Bool := do
  let k ← sign
  if !(k.isWordIn Modifiers.all) then return false
  else if k.isWordIn ["accessor", "static"] then holdsBehind canBeModified
  else modifies

/-- The modifiers in front of a declaration. -/
def declarationModifiers : Reading Modifiers := do
  let found ← repeated do
    match ← sign with
    | .word w =>
      if ← modifiesDeclaration then
        pass
        return some w
      else return none
    | _ => return none
  flawIf !(Modifiers.areOrdered [] found)
  return found

end Reading
end TaggedStyles.Grammar
