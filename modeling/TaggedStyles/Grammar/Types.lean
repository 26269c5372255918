import TaggedStyles.Grammar.Function

/-! Types of typed code. Style texts can stand in the computed keys and in the default values that types
may hold. -/
namespace TaggedStyles.Grammar.Rules
set_option autoImplicit false
open Reading

/-! ## Names of types -/

def typeName : Reading Unit := do
  let _ ← anyName
  let _ ← eachAfter "." anyName

def typeReference (r : Rules) : Reading Phrase := do
  typeName
  return .other (← r.typeArgumentsOnLine)

/-- The words that are types of their own where no dot follows. -/
def basicTypes : List String :=
  ["any", "unknown", "string", "number", "bigint", "symbol", "boolean", "undefined", "never", "object",
   "null"]

/-- A type that comes from a module, or all that the module exports. -/
def importedType (r : Rules) : Reading Phrase := do
  let _ ← acceptWord "typeof"
  keyword "import"
  symbol "("
  ensure (← sign).isString
  advance
  let options ←
    if ← accept "," then
      if ← sees ")" then pure [] else do
        ensure (← sees openBrace)
        let options ← r.value
        let _ ← accept ","
        pure [options]
    else pure []
  symbol ")"
  if ← accept "." then typeName
  return .other (options ++ (← r.typeArgumentsOnLine))

/-- The type of something that is named. -/
def typeQuery (r : Rules) : Reading Phrase := do
  if ← holdsBehind (seesWord "import") then r.importedType
  else
    keyword "typeof"
    typeName
    return .other (← r.typeArgumentsOnLine)

/-! ## Templates -/

/-- The pieces of a template that holds types, from an offset on. -/
def typePieces (r : Rules) : Nat → Nat → Text → Reading (List Phrase)
  | 0, _, _ => failure
  | n + 1, i, cs => do
    match templatePiece 0 false i cs with
    | none => failure
    | some piece =>
      flawIf piece.flawed
      if piece.hole then
        jump (piece.stop + 2) piece.rest
        let c ← r.read .type
        ensure (← sees closeBrace)
        let t ← token
        return c :: (← typePieces r n t.stop t.rest)
      else
        jump (piece.stop + 1) piece.rest
        return []

def typeTemplate (r : Rules) : Reading Phrase := do
  let t ← token
  .other <$> r.typePieces (← setting).bound t.stop t.rest

/-! ## Members -/

/-- A type member may end with a comma or a semicolon. -/
def memberEnd : Reading Unit := do
  if !(← accept ",") then let _ ← accept ";"

/-- Whether an index signature starts at the token, and no computed key. -/
def seesIndexSignature : Reading Bool := do
  if !(← sees "[") then return false
  holdsBehind do
    if ← seesAny ["...", "]"] then return true
    let modified ← if (← sign).isWordIn Modifiers.all then holdsBehind seesName else pure false
    if modified then return true
    if !(← seesName) && !((← sign).isWordIn Modifiers.all) then return false
    advance
    if ← seesAny [":", ","] then return true
    if !(← sees "?") then return false
    advance
    seesAny [":", ",", "]"]

def indexSignature (r : Rules) (ms : Modifiers) (inClass : Bool) : Reading Phrase := do
  let (params, comma) ← enclosed "[" "]" do
    let _ ← anyName
    ensure (← sees ":")
    return .other (← r.annotation)
  flawIf (comma || params.length != 1)
  ensure (← sees ":")
  let type ← r.annotation
  memberEnd
  allowModifiers (if inClass then ["readonly", "static"] else ["readonly"]) ms
  return .other (params ++ type)

/-- Parameters and result of a function without a body. -/
def signature (r : Rules) : Reading (List Phrase × Parameters) := do
  let types ← r.typeParameters
  let params ← r.parameters false
  return (types ++ params.parts ++ (← r.result ":"), params)

def accessorSignature (r : Rules) (set : Bool) (ms : Modifiers) : Reading Phrase := do
  let k ← r.key false
  let params ← r.parameters false
  let result ← r.result ":"
  memberEnd
  flawIf (set && !result.isEmpty)
  allowModifiers [] ms
  return .other (k.parts ++ params.parts ++ result)

/-- One member of an object type. -/
def typeMember (r : Rules) : Reading Phrase := do
  let called ← seesAny ["(", "<"]
  let made ← if ← seesWord "new" then holdsBehind (seesAny ["(", "<"]) else pure false
  if called || made then
    if made then advance
    let (parts, _) ← r.signature
    memberEnd
    return .other parts
  let ms ← modifiers false false
  if ← acceptModifier "get" then return ← r.accessorSignature false ms
  if ← acceptModifier "set" then return ← r.accessorSignature true ms
  if ← seesIndexSignature then return ← r.indexSignature ms false
  let k ← r.key false
  let _ ← accept "?"
  let method ← seesAny ["(", "<"]
  let parts ← if method then (·.1) <$> r.signature else r.annotation
  memberEnd
  allowModifiers (if method then [] else ["readonly"]) ms
  return .other (k.parts ++ parts)

def typeMembers (r : Rules) : Reading Phrase :=
  .other <$> braced (some <$> r.typeMember)

/-! ## Types made from other types -/

/-- A sign of a mapped type in front of a word or a mark. -/
def signed (p : Reading Unit) : Reading Unit := do
  if (← accept "+") || (← accept "-") then p

/-- Whether a type maps keys to types, and does not list members. -/
def seesMappedType : Reading Bool :=
  holdsBehind do
    if ← seesAny ["+", "-"] then holdsBehind (seesWord "readonly")
    else
      let _ ← acceptWord "readonly"
      if !(← accept "[") then return false
      if !(← sign).isAnyWord then return false
      holdsBehind (seesWord "in")

def mappedType (r : Rules) : Reading Phrase := do
  symbol openBrace
  if ← seesAny ["+", "-"] then
    advance
    keyword "readonly"
  else let _ ← acceptWord "readonly"
  symbol "["
  let _ ← anyName
  keyword "in"
  let keys ← r.read .type
  let renamed ← if ← acceptWord "as" then pure [← r.read .type] else pure []
  symbol "]"
  if ← seesAny ["+", "-"] then
    advance
    symbol "?"
  else let _ ← accept "?"
  let type ← if ← accept ":" then pure [← r.read .type] else pure []
  let _ ← accept ";"
  symbol closeBrace
  return .other (keys :: renamed ++ type)

/-- Whether an item of a tuple has a name. -/
def seesItemName : Reading Bool :=
  holds do
    let _ ← accept "..."
    if !(← sign).isAnyWord then return false
    advance
    if ← sees ":" then return true
    if ← sees "?" then holdsBehind (sees ":") else return false

/-- One item of a tuple. -/
def tupleItem (r : Rules) : Reading Phrase := do
  let named ← seesItemName
  let _ ← accept "..."
  if named then
    advance
    let _ ← accept "?"
    symbol ":"
  r.read .type

def tupleType (r : Rules) : Reading Phrase := do
  let (found, _) ← enclosed "[" "]" r.tupleItem
  return .other found

/-! ## Functions -/

/-- Whether round brackets hold the parameters of a function type. -/
def seesParameters (r : Rules) : Reading Bool := do
  if !(← sees "(") then return false
  holdsBehind do
    if ← seesAny [")", "..."] then return true
    let _ ← modifiers false false
    if (← seesName) || (← seesWord "this") then advance
    else if ← seesAny ["[", openBrace] then
      let before := (← get).flawed
      let _ ← r.read .binding
      if (← get).flawed && !before then return false
    else return false
    if ← seesAny [":", ",", "?", "="] then return true
    if ← sees ")" then holdsBehind (sees "=>") else return false

def seesFunctionType (r : Rules) : Reading Bool := do
  if ← sees "<" then return true
  if ← seesWord "new" then return true
  if ← seesWord "abstract" then return ← holdsBehind (seesWord "new")
  r.seesParameters

def functionType (r : Rules) : Reading Phrase := do
  let _ ← acceptWord "abstract"
  let constructs ← acceptWord "new"
  let types ← r.typeParameters
  let params ← r.parameters false
  flawIf (constructs && params.this)
  ensure (← sees "=>")
  let result ← r.result "=>"
  return .other (types ++ params.parts ++ result)

/-! ## Operators -/

def seesType : Reading Bool := do
  let k ← sign
  if k.isMark "-" then holdsBehind (return (← sign) == .number)
  else if k == .number || k.isString || k.isName then return true
  else
    return k.isMarkIn [openBrace, "[", "<", "|", "&", "*", "?", "!", "...", backtick, "("] ||
      k.isWordIn ["void", "null", "this", "typeof", "new", "true", "false", "import", "function"]

/-- A type without operators, and whether it is a tuple. -/
def simpleType (r : Rules) : Reading (Phrase × Bool) := do
  let k ← sign
  if k.isMark "(" then
    advance
    let c ← r.read .type
    symbol ")"
    return (c, false)
  else if k.isMark "[" then return (← r.tupleType, true)
  else if k.isMark openBrace then
    return (← if ← seesMappedType then r.mappedType else r.typeMembers, false)
  else if k.isMark backtick then return (← r.typeTemplate, false)
  else if k.isMarkIn ["?", "!"] then
    advance
    let nothing ← seesAny [",", closeBrace, ")", ">", "=", "|"]
    if k.isMark "?" && nothing then return (Phrase.plain, false) else return (← r.read .type, false)
  else if k.isMark "-" then
    advance
    ensure ((← sign) == .number)
    advance
    return (Phrase.plain, false)
  else if k == .number || k.isString || k.isWordIn ["true", "false", "void"] then
    pass
    return (Phrase.plain, false)
  else if k.isWord "this" then
    pass
    let judged ← if !(← onNewLine) && (← acceptWord "is") then pure [← r.read .type] else pure []
    return (.other judged, false)
  else if k.isWord "typeof" then return (← r.typeQuery, false)
  else if k.isWord "import" then return (← r.importedType, false)
  else if k.isWord "asserts" then
    if ← holdsBehind (return (← sign).isAnyWord && !(← onNewLine)) then
      pass
      advance
      let judged ← if ← acceptWord "is" then pure [← r.read .type] else pure []
      return (.other judged, false)
    else return (← r.typeReference, false)
  else if k.isWordIn basicTypes then
    if ← holdsBehind (sees ".") then return (← r.typeReference, false)
    else
      pass
      return (Phrase.plain, false)
  else return (← r.typeReference, false)

/-- At most `n` square brackets and marks behind a type. The flag tells whether it is a list or a tuple. -/
def typeSuffixes (r : Rules) : Nat → Phrase → Bool → Reading (Phrase × Bool)
  | 0, c, series => return (c, series)
  | n + 1, c, series => do
    if ← onNewLine then return (c, series)
    else if ← accept "!" then typeSuffixes r n c false
    else if ← sees "?" then
      if ← holdsBehind seesType then return (c, series)
      advance
      typeSuffixes r n c false
    else if ← accept "[" then
      if ← accept "]" then typeSuffixes r n c true
      else
        let i ← r.read .type
        symbol "]"
        typeSuffixes r n (.other [c, i]) false
    else return (c, series)

/-- A type parameter in a condition, with a bound if no condition follows it. -/
def inferredType (r : Rules) : Reading Phrase := do
  let _ ← name
  let bound ← attempt do
    keyword "extends"
    let c ← within (fun s => { s with conditional := false }) (r.read .type)
    ensure (!(← setting).conditional || !(← sees "?"))
    return c
  return .other bound.toList

/-- At most `n` words in front of a type. -/
def operatorType (r : Rules) : Nat → Reading (Phrase × Bool)
  | 0 => failure
  | n + 1 => do
    if ← seesAnyWord ["keyof", "unique", "readonly"] then
      let readonly ← seesWord "readonly"
      pass
      let (c, series) ← operatorType r n
      flawIf (readonly && !series)
      return (c, false)
    else if ← acceptWord "infer" then return (← r.inferredType, false)
    else
      within (fun s => { s with conditional := true }) do
        let (c, series) ← r.simpleType
        r.typeSuffixes (← setting).bound c series

/-- Types joined by a mark, which may also stand in front. -/
def joinedTypes (mark : String) (part : Reading Phrase) : Reading Phrase := do
  let _ ← accept mark
  let first ← part
  let more ← eachAfter mark part
  return if more.isEmpty then first else .other (first :: more)

def type (r : Rules) : Reading Phrase := do
  if ← r.seesFunctionType then return ← r.functionType
  let n := (← setting).bound
  let c ← joinedTypes "|" (joinedTypes "&" ((·.1) <$> r.operatorType n))
  if (← setting).conditional && !(← onNewLine) && (← acceptWord "extends") then
    let bound ← within (fun s => { s with conditional := false }) (r.read .type)
    symbol "?"
    let free := within (fun s => { s with conditional := true }) (r.read .type)
    let yes ← free
    symbol ":"
    return .other [c, bound, yes, ← free]
  else return c

end TaggedStyles.Grammar.Rules
