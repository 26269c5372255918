import TaggedStyles.Grammar.Markup

/-! What modules import, and what they export by name. -/
namespace TaggedStyles.Grammar
set_option autoImplicit false

/-- A name that modules share, which may be quoted. -/
structure SharedName where
  text : Text
  quoted : Bool

/-- A name in an import or export with its other name, if it is renamed. -/
structure Specifier where
  typeOnly : Bool
  first : SharedName
  second : Option SharedName

namespace Rules
open Reading

/-! ## Names -/

def seesSharedName : Reading Bool := do
  let k ← sign
  return k.isAnyWord || k.isString

def sharedName : Reading SharedName := do
  match ← sign with
  | .string s =>
    advance
    return ⟨s, true⟩
  | _ => return ⟨← anyName, false⟩

/-- Another name behind `as`. -/
def otherName : Reading (Option SharedName) := do
  if ← acceptWord "as" then return some (← sharedName) else return none

/-- A name that may be renamed. In typed code `type` in front says that it names a type, unless there is
no other name that it could be about. -/
def specifier : Reading Specifier := do
  let typed ← isTyped
  let first ← sharedName
  if !(typed && !first.quoted && first.text == "type".toList) then return ⟨false, first, ← otherName⟩
  else if ← acceptWord "as" then
    let as : SharedName := ⟨"as".toList, false⟩
    if ← acceptWord "as" then
      if ← seesSharedName then return ⟨true, as, some (← sharedName)⟩
      else return ⟨false, first, some as⟩
    else if ← seesSharedName then return ⟨false, first, some (← sharedName)⟩
    else return ⟨true, as, none⟩
  else if ← seesSharedName then return ⟨true, ← sharedName, ← otherName⟩
  else return ⟨false, first, none⟩

/-- Names in braces. What is about types as a whole has no names that say so again. -/
def specifiers (typeOnly : Bool) : Reading (List Specifier) := do
  let (found, _) ← enclosed openBrace closeBrace specifier
  flawIf (typeOnly && found.any (·.typeOnly))
  return found

/-! ## Other modules -/

/-- The name of a module. -/
def moduleName : Reading Unit := do
  ensure (← sign).isString
  advance

/-- One attribute of an import: its key. -/
def importAttribute : Reading Text := do
  let k ← sharedName
  symbol ":"
  moduleName
  return k.text

/-- What is known of a module that is imported. Each attribute is given once. -/
def importAttributes : Reading Unit := do
  if (← seesWord "with") || ((← seesWord "assert") && !(← onNewLine)) then
    pass
    let (keys, _) ← enclosed openBrace closeBrace importAttribute
    flawIf !(decide keys.Nodup)

/-- The module that names come from, to the end of the statement. -/
def moduleSource : Reading Unit := do
  moduleName
  importAttributes
  terminator

/-! ## Imports -/

/-- A short name for a module or for what one holds, from the equals sign on. -/
def importAlias : Reading Unit := do
  symbol "="
  if (← seesWord "require") && (← holdsBehind (sees "(")) then
    pass
    symbol "("
    moduleName
    symbol ")"
  else typeName
  terminator

/-- All that a module exports, under one name. -/
def importAll : Reading Unit := do
  symbol "*"
  keyword "as"
  let _ ← name

/-- Names in braces that are imported. Each has a name of its own here. -/
def importNames (typeOnly : Bool) : Reading Unit := do
  let found ← specifiers typeOnly
  let own := found.map fun s => s.second.getD s.first
  ensure !(own.any fun n => n.quoted || reserved.contains n.text)
  flawIf ((← setting).awaits && own.any fun n => n.text == "await".toList)

/-- What is imported, up to the name of the module. -/
def importClause (typeOnly named : Bool) : Reading Unit := do
  if named then
    if ← accept "," then
      if ← sees "*" then importAll else importNames typeOnly
  else if ← sees "*" then importAll
  else if ← sees openBrace then importNames typeOnly
  keyword "from"

/-- Whether `type` in front of the token says that types are imported. -/
def seesTypeImport : Reading Bool := do
  let own ← seesName
  let free ←
    if ← seesWord "from" then holdsBehind (return (← seesWord "from") || (← sees "=")) else pure true
  return free && (own || (← seesAny ["*", openBrace]))

def importStatement : Reading Unit := do
  let k ← sign
  let named ← if ← seesName then some <$> name else pure none
  let typeOnly ← if k.isWord "type" && (← isTyped) then seesTypeImport else pure false
  let sourced ←
    if k.isWord "source" && (← seesName) then
      if ← seesWord "from" then holdsBehind (seesWord "from") else pure true
    else pure false
  let deferred := k.isWord "defer" && (← sees "*")
  let named ←
    if typeOnly || sourced || deferred then
      if ← seesName then some <$> name else pure none
    else pure named
  if named.isSome && (← isTyped) && (← sees "=") then importAlias
  else
    if !(← sign).isString then importClause typeOnly named.isSome
    moduleSource

/-! ## Exports -/

def noteExports (names : List Text) : Reading Unit :=
  modify fun c => { c with exports := names ++ c.exports }

/-- All that another module exports, perhaps under one name. -/
def exportAll : Reading Unit := do
  symbol "*"
  if let some n := ← otherName then noteExports [n.text]
  keyword "from"
  moduleSource

/-- Names in braces that are exported. Unless they come from another module they are names here. -/
def exportNames (typeOnly : Bool) : Reading Unit := do
  let found ← specifiers typeOnly
  noteExports (found.map fun s => (s.second.getD s.first).text)
  if ← acceptWord "from" then moduleSource
  else
    flawIf (found.any fun s =>
      s.first.quoted || reserved.contains s.first.text || reservedInPart.contains s.first.text)
    terminator

end Rules
end TaggedStyles.Grammar
