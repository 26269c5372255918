import TaggedStyles.Grammar.Module

/-! Declarations: variables, and what only typed code declares. Their code is a pattern with the names
that they declare. -/
namespace TaggedStyles.Grammar.Rules
set_option autoImplicit false
open Reading

/-! ## Variables -/

/-- One declared variable, and whether it lacks a value: a constant or a pattern needs one unless it is only
declared. A variable that is said to have a value has a type and no value. -/
def declarator (r : Rules) (constant : Bool) : Reading (Phrase × Bool) := do
  let target ← r.read .binding
  let definite ←
    if (← isTyped) && target.isBoundName && !(← onNewLine) then accept "!" else pure false
  if ← isTyped then let _ ← accept "?"
  let type ← r.annotation
  let value ← if ← accept "=" then pure [← r.read (.assignment true)] else pure []
  flawIf (definite && (type.isEmpty || !value.isEmpty))
  let needed := (constant || !target.isBoundName) && !(← setting).ambient
  return (.pattern target.names (target :: type ++ value), needed && value.isEmpty)

/-- Declared variables from their keyword on, and whether one of them lacks a value. -/
def declarators (r : Rules) : Reading (Phrase × Bool) := do
  let constant ← seesWord "const"
  pass
  let first ← r.declarator constant
  let found := first :: (← eachAfter "," (r.declarator constant))
  let parts := found.map (·.1)
  return (.pattern (parts.flatMap Phrase.names) [.other parts], found.any (·.2))

def variableStatement (r : Rules) (ms : Modifiers) : Reading Phrase := do
  let (c, lacking) ← r.declarators
  flawIf lacking
  terminator
  allowModifiers ["declare"] ms
  return c

/-- A resource that is given back at the end of a block, and whether it lacks a value. It has a name. -/
def resource (r : Rules) : Reading (Phrase × Bool) := do
  let target ← r.read .binding
  flawIf !target.isBoundName
  let type ← r.annotation
  let value ← if ← accept "=" then pure [← r.read (.assignment true)] else pure []
  return (.pattern target.names (target :: type ++ value), value.isEmpty)

/-- Resources from their keywords on, and whether one of them lacks a value. -/
def resources (r : Rules) : Reading (Phrase × Bool) := do
  let _ ← acceptWord "await"
  keyword "using"
  let first ← r.resource
  let found := first :: (← eachAfter "," r.resource)
  let parts := found.map (·.1)
  return (.pattern (parts.flatMap Phrase.names) [.other parts], found.any (·.2))

def resourceStatement (r : Rules) : Reading Phrase := do
  let (c, lacking) ← r.resources
  flawIf lacking
  terminator
  return c

def seesResources : Reading Bool := do
  if ← seesWord "using" then holdsBehind (return (← seesName) && !(← onNewLine))
  else if ← seesWord "await" then
    holdsBehind do
      if (← seesWord "using") && !(← onNewLine) then
        holdsBehind (return (← seesName) && !(← onNewLine))
      else return false
  else return false

/-! ## Types -/

/-- An interface from its keyword on. It extends what has a name. -/
def interface (r : Rules) (ms : Modifiers) : Reading Phrase := do
  keyword "interface"
  let own ← name
  let types ← r.typeParameters
  let h ← r.heritage
  let body ← r.typeMembers
  let wrong := h.extended.any fun
    | .applied c _ => !c.isPath
    | _ => true
  flawIf (wrong || !h.implemented.isEmpty)
  allowModifiers ["declare"] ms
  return .pattern [own] [.other (types ++ h.extended ++ [body])]

/-- A name for a type, from its keyword on. -/
def typeAlias (r : Rules) (ms : Modifiers) : Reading Phrase := do
  keyword "type"
  let own ← name
  let types ← r.typeParameters
  symbol "="
  let type ← r.read .type
  terminator
  allowModifiers ["declare"] ms
  return .pattern [own] (types ++ [type])

/-- Whether the name of a member is computed from a string. -/
def seesQuotedKey : Reading Bool :=
  holdsBehind do
    if (← sign).isString then holdsBehind (sees "]") else return false

/-- A member of an enumeration. Its name is written down. -/
def enumerator (r : Rules) : Reading Phrase := do
  let fits ← if ← sees "[" then seesQuotedKey else pure ((← sign) != .number)
  let k ← r.key false
  flawIf !(fits || k.parts.any Phrase.isPlainTemplate)
  return .other (k.parts ++ (← r.initial))

def enumeration (r : Rules) (ms : Modifiers) : Reading Phrase := do
  keyword "enum"
  let own ← name
  let (found, _) ← enclosed openBrace closeBrace r.enumerator
  allowModifiers ["declare", "const"] ms
  return .pattern [own] [.other found]

/-! ## Namespaces -/

def block (r : Rules) : Reading Phrase :=
  .other <$> braced (some <$> r.read (.statement false))

/-- A namespace, a module with a quoted name, or what is added to all modules, from the keyword on. -/
def namespaceBlock (r : Rules) (ms : Modifiers) : Reading Phrase := do
  let everywhere ← seesWord "global"
  pass
  let quoted := (← sign).isString
  if quoted then advance
  else if !everywhere then
    let _ ← name
    let _ ← eachAfter "." anyName
  let body ←
    if (← sees openBrace) || !(quoted || everywhere) then pure [← r.block]
    else do
      terminator
      pure []
  allowModifiers ["declare"] ms
  return .other body

/-! ## Any declaration -/

/-- Whether typed code declares something from the token on, at most `n` words behind it. -/
def startsDeclaration : Nat → Reading Bool
  | 0 => return false
  | n + 1 => do
    let k ← sign
    if k.isWordIn ["var", "let", "const", "function", "class", "enum"] then return true
    else if k.isWordIn ["interface", "type"] then
      advance
      return (← seesName) && !(← onNewLine)
    else if k.isWordIn ["module", "namespace"] then
      advance
      return ((← seesName) || (← sign).isString) && !(← onNewLine)
    else if k.isWordIn ["abstract", "accessor", "async", "declare", "private", "protected", "public",
        "readonly"] then
      advance
      if ← onNewLine then return false else startsDeclaration n
    else if k.isWord "global" then
      advance
      return (← seesName) || (← sees openBrace) || (← seesWord "export")
    else if k.isWord "import" then
      advance
      return (← sign).isAnyWord || (← sign).isString || (← seesAny ["*", openBrace])
    else if k.isWord "static" then
      advance
      startsDeclaration n
    else return false

def seesDeclaration : Reading Bool := do
  if ← isTyped then holds (startsDeclaration (← setting).bound) else return false

/-- A short name behind its keyword `import`, perhaps for types only. -/
def declaredAlias : Reading Unit := do
  let own ← name
  if own == "type".toList && (← seesName) then let _ ← name
  importAlias

def declarationBody (r : Rules) (marks : List Phrase) (ms : Modifiers) : Reading Phrase := do
  let k ← sign
  flawIf (!marks.isEmpty && !k.isWord "class")
  if k.isWordIn ["var", "let", "const"] then r.variableStatement ms
  else if k.isWord "class" then r.classFromKeyword marks ms
  else if ← seesFunction then
    let c ← if ms.has "async" then r.functionFromKeyword true true true else r.functionWithWords true true
    allowModifiers ["declare", "async"] ms
    return c
  else
    ensure (← isTyped)
    if k.isWord "interface" then r.interface ms
    else if k.isWord "type" then r.typeAlias ms
    else if k.isWord "enum" then r.enumeration ms
    else if k.isWordIn ["module", "namespace", "global"] then r.namespaceBlock ms
    else if k.isWord "import" then
      pass
      declaredAlias
      return Phrase.plain
    else failure

def declaration (r : Rules) (marks : List Phrase) : Reading Phrase := do
  let ms ← if ← isTyped then declarationModifiers else pure []
  within (fun s => { s with ambient := s.ambient || ms.has "declare" }) (r.declarationBody marks ms)

/-! ## Exported declarations -/

/-- What a module exports by default, behind the keywords. -/
def defaultExport (r : Rules) (marks : List Phrase) : Reading Phrase := do
  noteExports ["default".toList]
  let marks := marks ++ (← r.decorators)
  let typed ← isTyped
  if ← seesWord "class" then r.classFromKeyword marks []
  else if typed && (← seesWord "abstract") && (← holdsBehind (seesWord "class")) then
    pass
    r.classFromKeyword marks []
  else if typed && (← seesWord "interface") && (← holdsBehind (return (← seesName) && !(← onNewLine))) then
    r.interface []
  else if ← seesFunction then r.functionWithWords true false
  else
    let c ← r.read (.assignment true)
    terminator
    return c

def exportStatement (r : Rules) (marks : List Phrase) : Reading Phrase := do
  let typed ← isTyped
  if ← acceptWord "default" then r.defaultExport marks
  else if ← sees "*" then
    exportAll
    return Phrase.plain
  else if ← sees openBrace then
    exportNames false
    return Phrase.plain
  else if typed && (← accept "=") then
    let c ← r.read (.assignment true)
    terminator
    return c
  else if typed && (← seesWord "as") then
    pass
    keyword "namespace"
    let _ ← name
    terminator
    return Phrase.plain
  else if typed && (← seesWord "import") then
    pass
    declaredAlias
    return Phrase.plain
  else if typed && (← seesWord "type") && (← holdsBehind (seesAny ["*", openBrace])) then
    pass
    if ← sees "*" then exportAll else exportNames true
    return Phrase.plain
  else
    let c ← r.declaration (marks ++ (← r.decorators))
    noteExports c.names
    return c

end TaggedStyles.Grammar.Rules
