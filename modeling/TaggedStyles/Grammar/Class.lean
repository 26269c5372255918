import TaggedStyles.Grammar.Object

/-! Classes: what they extend, and their members. -/
namespace TaggedStyles.Grammar.Rules
set_option autoImplicit false
open Reading

/-! ## Members -/

/-- The key of a member. Secret members are the same to all who may see them. -/
def memberKey (r : Rules) (ms : Modifiers) : Reading Key := do
  flawIf ((← sign).isSecret && ms.hasAny Modifiers.accessibility)
  r.key true

/-- A key that is kept for the function that makes objects is a flaw, and so is one for what objects have in
common, unless the class is only declared. -/
def avoidKept (field : Bool) (ms : Modifiers) (k : Key) : Reading Unit := do
  let static := ms.has "static"
  let shared := k.isName "prototype" && static && !(← setting).ambient
  flawIf (if k.secret then k.isName "constructor" else shared || (k.isName "constructor" && (field || !static)))

def accessorMember (r : Rules) (set : Bool) (ms : Modifiers) : Reading Phrase := do
  let k ← r.memberKey ms
  avoidKept false ms k
  let f ← r.function {}
  flawIf !(fitsAccessor (← isTyped) set f.parameters)
  allowModifiers (Modifiers.accessibility ++ ["abstract", "static", "override"]) ms
  return .other (k.parts ++ f.parts)

/-- The function that makes the objects of a class. -/
def constructorMember (r : Rules) (ms : Modifiers) : Reading Phrase := do
  advance
  let f ← r.function { constructs := true }
  flawIf (f.generic || f.parameters.this)
  allowModifiers Modifiers.accessibility ms
  return .other f.parts

/-- Whether the function that makes objects starts at the token. -/
def seesConstructor (ms : Modifiers) : Reading Bool := do
  let named := match ← sign with
    | .word w | .string w => w == "constructor".toList
    | _ => false
  if named && !ms.has "static" then holdsBehind (seesAny ["(", "<"]) else return false

def methodMember (r : Rules) (yields : Bool) (k : Key) (ms : Modifiers) : Reading Phrase := do
  avoidKept false ms k
  let f ← r.function { awaits := ms.has "async", yields }
  allowModifiers (Modifiers.accessibility ++ ["abstract", "static", "override", "async"]) ms
  return .other (k.parts ++ f.parts)

def fieldMember (r : Rules) (k : Key) (ms : Modifiers) : Reading Phrase := do
  avoidKept true ms k
  let type ← r.annotation
  let value ←
    if ← accept "=" then
      let inner := fun s : Setting => { s with hasIn := true, awaits := false, yields := false }
      pure [← within inner (r.read .expression)]
    else pure []
  terminator
  let more := if ms.has "accessor" then ["accessor"] else ["declare", "readonly"]
  allowModifiers (Modifiers.accessibility ++ ["abstract", "static", "override"] ++ more) ms
  return .other (k.parts ++ type ++ value)

def staticBlock (r : Rules) : Reading Phrase := do
  keyword "static"
  .other <$> within (fun s => { s with returns := false, awaits := true, yields := false, hasIn := true }) do
    braced (some <$> r.read (.statement false))

/-- One member of a class. -/
def member (r : Rules) : Reading Phrase := do
  let marks ← r.decorators
  let ms ← modifiers true true
  if (← seesWord "static") && (← holdsBehind (sees openBrace)) then
    flawIf !(marks.isEmpty && ms.isEmpty)
    return ← r.staticBlock
  let found ←
    if ← acceptModifier "get" then r.accessorMember false ms
    else if ← acceptModifier "set" then r.accessorMember true ms
    else if ← seesConstructor ms then r.constructorMember ms
    else if (← isTyped) && (← seesIndexSignature) then
      flawIf !marks.isEmpty
      r.indexSignature ms true
    else
      within (fun s => { s with ambient := s.ambient || ms.has "declare" }) do
        let yields ← accept "*"
        let k ← r.memberKey ms
        let optional ← accept "?"
        if yields || (← seesAny ["(", "<"]) then r.methodMember yields k ms
        else
          let definite ← accept "!"
          flawIf (optional && (definite || ms.has "accessor"))
          r.fieldMember k ms
  return .other (marks ++ [found])

/-- The members of a class, with semicolons between them. -/
def members (r : Rules) : Reading (List Phrase) :=
  braced do
    let _ ← repeated do
      if ← accept ";" then return some () else return none
    if ← sees closeBrace then return none else return some (← r.member)

/-! ## Heritage -/

/-- What a class or an interface extends, each with its type arguments. -/
def extended (r : Rules) : Reading (List Phrase) := do
  keyword "extends"
  let one : Reading Phrase := do
    let c ← r.read .access
    match c with
    | .applied _ _ => return c
    | _ => return .applied c (← r.typeArguments)
  let first ← one
  return first :: (← eachAfter "," one)

def implemented (r : Rules) : Reading (List Phrase) := do
  keyword "implements"
  let one : Reading Phrase := do
    typeName
    return .other (← r.typeArguments)
  let first ← one
  return first :: (← eachAfter "," one)

/-- What a class or an interface extends and what interfaces it has. -/
structure Heritage where
  extended : List Phrase
  implemented : List Phrase

/-- Both parts of the heritage, each at most once and in this order. -/
def heritage (r : Rules) : Reading Heritage := do
  let bases ← if ← seesWord "extends" then r.extended else pure []
  let types ← if ← seesWord "implements" then r.implemented else pure []
  ensure !(← seesAnyWord ["extends", "implements"])
  return ⟨bases, types⟩

/-- A class from the keyword on. Only the first of what it extends is looked at. -/
def classFromKeyword (r : Rules) (marks : List Phrase) (ms : Modifiers) : Reading Phrase := do
  keyword "class"
  let own ← if (← seesName) && !(← seesWord "implements") then some <$> name else pure none
  let types ← r.typeParameters
  let h ← r.heritage
  let found ← r.members
  allowModifiers ["declare", "abstract"] ms
  return .pattern own.toList [.other (marks ++ types ++ h.extended.take 1 ++ h.implemented ++ found)]

end TaggedStyles.Grammar.Rules
