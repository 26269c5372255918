import TaggedStyles.Grammar.Expressions

/-! Elements written as markup in host code. Between tags there is text, which is not made of tokens; tags
themselves are, but for hyphens in names and quoted attributes. -/
namespace TaggedStyles.Grammar.Rules
set_option autoImplicit false
open Reading

/-! ## Names -/

/-- A name in markup, which may hold hyphens. -/
def markupName : Reading Text := do
  let t ← token
  match t.sign with
  | .word w =>
    let more := t.rest.takeWhile fun c => isNamePart c || c == '-'
    jump (t.stop + Text.size more) (t.rest.drop more.length)
    return w ++ more
  | _ => failure

/-- The name of an element: two names with a colon between them, or names with dots. -/
def tagName : Reading (List Text) := do
  let first ← markupName
  if ← accept ":" then return [first, [':'], ← markupName]
  else
    let members ← eachAfter "." do
      let member ← markupName
      flawIf (member.contains '-')
      return member
    return first :: members

/-! ## Code in braces -/

/-- Code in braces behind the opening one, which may be missing and has no commas; the reader stops at the
closing one. -/
def embedded (r : Rules) : Reading Phrase := do
  let c ← if ← sees closeBrace then pure Phrase.plain else r.values
  flawIf (match c with
    | .sequence _ => true
    | _ => false)
  ensure (← sees closeBrace)
  return c

/-- All parts of something, spread into an element, behind the dots. -/
def spreadInto (r : Rules) : Reading Phrase := do
  symbol "..."
  let c ← r.values
  ensure (← sees closeBrace)
  return c

/-! ## Attributes -/

/-- The text that stands in quotes right at the front, and what is behind it. Nothing in it is escaped. -/
def quotedText? : Text → Option (Text × Text)
  | [] => none
  | c :: cs =>
    let text := cs.takeWhile (· != c)
    if c == '"' || c == '\'' then (cs.drop text.length).tail?.map fun more => (text, more) else none

/-- What stands behind the equals sign of an attribute. -/
def attributeValue (r : Rules) : Reading Phrase := do
  let t ← token
  match quotedText? t.rest with
  | some (text, more) =>
    jump (t.stop + Text.size text + 2) more
    return Phrase.plain
  | none =>
    advance
    if ← accept openBrace then
      let value ← r.embedded
      advance
      return value
    else if (← sign).isString then
      advance
      return Phrase.plain
    else
      ensure (← sees "<")
      r.read (.element false)

/-- An attribute, or all that is spread into the element. -/
def elementAttribute (r : Rules) : Reading Phrase := do
  if ← accept openBrace then
    let c ← r.spreadInto
    advance
    return c
  else
    let _ ← markupName
    if ← accept ":" then let _ ← markupName
    if ← sees "=" then r.attributeValue else return Phrase.plain

/-! ## Elements -/

/-- At most `n` children from an offset on. The reader stops at the closing tag. -/
def children (r : Rules) : Nat → Nat → Text → Reading (List Phrase)
  | 0, _, _ => failure
  | n + 1, i, cs => do
    let text := cs.takeWhile fun c => c != '<' && c != '\x7b'
    flawIf (text.any fun c => c == '>' || c == '\x7d')
    let i := i + Text.size text
    let cs := cs.drop text.length
    match cs with
    | '\x7b' :: more =>
      jump (i + 1) more
      let c ← if ← sees "..." then r.spreadInto else r.embedded
      let t ← token
      return c :: (← children r n t.stop t.rest)
    | '<' :: _ =>
      jump i cs
      narrow
      if ← holdsBehind (sees "/") then return []
      let c ← r.read (.element true)
      let t ← token
      return c :: (← children r n t.stop t.rest)
    | _ => failure

/-- The rest of an element with a name and attributes, if it has children. The closing tag repeats the
name. -/
def elementBody (r : Rules) (name : List Text) : Reading (List Phrase) := do
  ensure (← sees ">")
  let t ← token
  let found ← r.children (← setting).bound t.stop t.rest
  symbol "<"
  symbol "/"
  let closing ← if ← sees ">" then pure [] else tagName
  flawIf (closing != name)
  return found

/-- An element, or a group of elements without a name. Inside of another the reader stops at its end. -/
def element (r : Rules) (inside : Bool) : Reading Phrase := do
  narrow
  symbol "<"
  let parts ←
    if ← sees ">" then r.elementBody []
    else do
      let name ← tagName
      let types ← if ← isTyped then r.typeArguments else pure []
      let attributes ← repeated do
        if ← seesAny [">", "/"] then return none else return some (← r.elementAttribute)
      if ← accept "/" then pure (types ++ attributes)
      else pure (types ++ attributes ++ (← r.elementBody name))
  if inside then ensure (← sees ">") else symbol ">"
  return .other parts

end TaggedStyles.Grammar.Rules
