import TaggedStyles.Grammar.Template

/-! Expressions without operators, and the members, calls and templates behind them. -/
namespace TaggedStyles.Grammar.Rules
set_option autoImplicit false
open Reading

/-! ## Primary expressions -/

def group (r : Rules) : Reading Phrase := do
  let (found, comma) ← enclosed "(" ")" r.value
  ensure !comma
  match found with
  | [] => failure
  | [c] => return .group c
  | cs => return .group (.sequence cs)

/-- A module that is loaded when the code runs, behind the keyword. -/
def importCall (r : Rules) : Reading Phrase := do
  symbol "("
  let source ← r.value
  let options ← if (← accept ",") && !(← sees ")") then pure [← r.value] else pure []
  let _ ← accept ","
  symbol ")"
  return .other (source :: options)

def importExpression (r : Rules) : Reading Phrase := do
  keyword "import"
  if ← accept "." then
    if ← seesAnyWord ["source", "defer"] then
      pass
      r.importCall
    else
      keyword "meta"
      return Phrase.plain
  else r.importCall

/-- A new object: what makes it, and its arguments. -/
def construction (r : Rules) : Reading Phrase := do
  keyword "new"
  if ← accept "." then
    keyword "target"
    return Phrase.plain
  let maker ← r.read .maker
  let args ← if ← sees "(" then r.arguments else pure []
  return .other (maker :: args)

/-- An expression that is no name. -/
def primaryWord (r : Rules) (k : Sign) : Reading Phrase := do
  if k.isWord "class" then r.classFromKeyword [] []
  else if k.isWord "new" then r.construction
  else if k.isWord "import" then r.importExpression
  else if k.isWord "super" then
    pass
    flawIf !(← seesAny [".", "[", "("])
    return Phrase.plain
  else if k.isWordIn ["this", "null", "true", "false"] then
    pass
    return Phrase.plain
  else return .name (← name)

/-- An expression without operators, members or calls. -/
def primary (r : Rules) : Reading Phrase := do
  if ← seesFunction then return ← r.functionWithWords false false
  let k ← sign
  if k.isMark "(" then r.group
  else if k.isMark "[" then r.list
  else if k.isMark openBrace then r.record
  else if k.isMark backtick then
    let (t, values) ← r.template false
    return .template t values
  else if k.isMarkIn ["/", "/="] then
    regex
    return Phrase.plain
  else if k.isMark "@" then
    let marks ← r.decorators
    r.classFromKeyword marks []
  else if k == .number || k.isString then
    advance
    return Phrase.plain
  else r.primaryWord k

/-! ## Members -/

def memberName (c : Phrase) : Reading Phrase := do
  if (← sign).isSecret then
    advance
    return .access c []
  else return .member c (← anyName)

def computedMember (r : Rules) (c : Phrase) : Reading Phrase := do
  symbol "["
  let i ← r.values
  symbol "]"
  return .access c [i]

def taggedTemplate (r : Rules) (c : Phrase) : Reading Phrase := do
  let (t, values) ← r.template true
  match c with
  | .applied inner types => return .tagged inner types t values
  | c => return .tagged c [] t values

/-- One member or template behind an expression, and whether an access before or in it was optional.
Behind an optional access no template may stand. -/
def memberSuffix (r : Rules) (c : Phrase) (optional : Bool) : Reading (Option (Phrase × Bool)) := do
  let k ← sign
  if k.isMark "." then
    advance
    return some (← memberName c, optional)
  else if k.isMark "?." then
    let access ← holdsBehind do
      let k ← sign
      return k.isAnyWord || k.isSecret || k.isMark "["
    if access then
      advance
      if ← sees "[" then return some (← r.computedMember c, true)
      else return some (← memberName c, true)
    else return none
  else if k.isMark "[" then
    if (← setting).decorating then return none else return some (← r.computedMember c, optional)
  else if k.isMark backtick then
    flawIf optional
    return some (← r.taggedTemplate c, optional)
  else if !(← isTyped) then return none
  else if k.isMark "!" && !(← onNewLine) then
    advance
    return some (.cast [] c [], optional)
  else if k.isMarkIn ["<", "<<"] then
    match ← attempt r.appliedTypes with
    | some types => return some (.applied c types, optional)
    | none => return none
  else return none

def callSuffix (r : Rules) (c : Phrase) (optional : Bool) : Reading (Option (Phrase × Bool)) := do
  if ← accept "?." then
    let types ← if ← isTyped then attempt r.appliedTypes else pure none
    return some (.call c (types.getD []) (← r.arguments), true)
  else if ← sees "(" then
    let args ← r.arguments
    match c with
    | .applied inner types => return some (.call inner types args, optional)
    | c => return some (.call c [] args, optional)
  else return none

/-- At most `n` members, templates and, if allowed, calls behind an expression. -/
def suffixes (r : Rules) (calls : Bool) : Nat → Phrase → Bool → Reading (Phrase × Bool)
  | 0, c, optional => return (c, optional)
  | n + 1, c, optional => do
    match ← r.memberSuffix c optional with
    | some (c', optional') => suffixes r calls n c' optional'
    | none =>
      if !calls then return (c, optional)
      match ← r.callSuffix c optional with
      | some (c', optional') => suffixes r calls n c' optional'
      | none => return (c, optional)

/-- An expression of members, calls and templates. -/
def access (r : Rules) : Reading Phrase := do
  let first ← r.primary
  let (c, optional) ← r.suffixes true (← setting).bound first false
  return if optional then .chain c else c

/-- What a new object is made from: no optional access, nor a module that is loaded. -/
def maker (r : Rules) : Reading Phrase := do
  let loads ← if ← seesWord "import" then holdsBehind (sees "(") else pure false
  let first ← r.primary
  let stop := (← token).start
  let (c, optional) ← r.suffixes false (← setting).bound first false
  flawIf (optional || (← sees "?.") || (loads && (← token).start == stop))
  return c

end TaggedStyles.Grammar.Rules
