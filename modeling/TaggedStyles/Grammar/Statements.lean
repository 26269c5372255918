import TaggedStyles.Grammar.Declarations

/-! Statements of host code. -/
namespace TaggedStyles.Grammar.Rules
set_option autoImplicit false
open Reading

/-- A statement that is the whole branch of another. -/
def branch (r : Rules) : Reading Phrase := r.read (.statement true)

def condition (r : Rules) : Reading Phrase := do
  symbol "("
  let c ← r.values
  symbol ")"
  return c

/-- An expression as a statement, or a statement with a label. -/
def expressionStatement (r : Rules) : Reading Phrase := do
  let c ← r.read .expression
  match c, ← sees ":" with
  | .name _, true =>
    advance
    r.branch
  | _, _ =>
    terminator
    return .other [c]

/-! ## Words that declare -/

/-- A statement that starts with `let`, which can also be a name. -/
def letStatement (r : Rules) (alone : Bool) : Reading Phrase := do
  let t ← token
  let next ← ahead do
    advance
    sign
  let k := next.getD .unknown
  let computes := k.level?.any (· > 3) && !k.isWordIn ["as", "satisfies"]
  if k.isMarkIn assignmentMarks || computes then
    let c ← r.read (.assignment true)
    terminator
    return .other [c]
  else if k.isMarkIn [".", "("] then r.read .expression
  else if (alone && !k.isMark "[") || k.isMark ";" then
    advance
    terminator
    return Phrase.plain
  else
    flawIf (alone || t.escaped)
    r.variableStatement []

/-- A class or a function as a statement. As a branch it is none but a plain function. -/
def declaringStatement (r : Rules) (alone : Bool) : Reading Phrase := do
  if ← seesWord "class" then
    flawIf alone
    r.classFromKeyword [] []
  else
    flawIf (alone && ((← seesWord "async") || (← holdsBehind (sees "*"))))
    r.functionWithWords true true

def decoratedStatement (r : Rules) (alone : Bool) : Reading Phrase := do
  let marks ← r.decorators
  if ← acceptWord "export" then r.exportStatement marks
  else
    let ms ← modifiers false false
    flawIf alone
    r.classFromKeyword marks ms

/-! ## Loops -/

/-- The rest of the head of a loop that counts, behind its first part. It has nothing to await. -/
def countingHead (r : Rules) (awaits : Bool) : Reading (List Phrase) := do
  flawIf awaits
  symbol ";"
  let test ← if ← sees ";" then pure [] else pure [← r.values]
  symbol ";"
  let update ← if ← sees ")" then pure [] else pure [← r.values]
  symbol ")"
  return test ++ update

/-- The rest of the head of a loop over the parts of something. -/
def iteratingHead (r : Rules) : Reading (List Phrase) := do
  let keys ← seesWord "in"
  pass
  let c ← if keys then r.values else r.value
  symbol ")"
  return [c]

/-- The head of a loop behind its opening bracket. -/
def loopHead (r : Rules) (awaits : Bool) : Reading (List Phrase) := do
  if ← sees ";" then return ← r.countingHead awaits
  let declared ←
    if ← seesAnyWord ["var", "const"] then pure true
    else if ← seesWord "let" then
      holdsBehind (return (← seesAny ["[", openBrace]) || ((← sign).isAnyWord && !(← seesWord "in")))
    else pure false
  let closed := fun s : Setting => { s with hasIn := false }
  if declared then
    let (c, lacking) ← within closed r.declarators
    if ← seesAnyWord ["of", "in"] then return c :: (← r.iteratingHead)
    else
      flawIf lacking
      return c :: (← r.countingHead awaits)
  else if (← seesResources) && !(← holdsBehind (seesWord "of")) then
    let (c, lacking) ← within closed r.resources
    if ← seesWord "of" then return c :: (← r.iteratingHead)
    else
      flawIf lacking
      return c :: (← r.countingHead awaits)
  else
    let async ← seesWord "async"
    let named ← seesWord "let"
    let c ← within closed (r.read .expression)
    if ← seesAnyWord ["of", "in"] then
      let name := match c with
        | .name _ => true
        | _ => false
      flawIf ((named || (async && name && !awaits)) && (← seesWord "of"))
      asTarget c
      return c :: (← r.iteratingHead)
    else return c :: (← r.countingHead awaits)

/-- A loop behind its keyword `for`. -/
def loop (r : Rules) : Reading Phrase := do
  let awaits ← acceptWord "await"
  flawIf (awaits && !(← setting).awaits)
  symbol "("
  let head ← r.loopHead awaits
  return .other (head ++ [← r.branch])

/-! ## Branches -/

/-- One case of a choice with its statements. -/
def switchCase (r : Rules) : Reading Phrase := do
  let test ←
    if ← acceptWord "default" then pure []
    else do
      keyword "case"
      pure [← r.values]
  symbol ":"
  let statements ← repeated do
    if (← sees closeBrace) || (← seesAnyWord ["case", "default"]) then return none
    return some (← r.read (.statement false))
  return .other (test ++ statements)

def guarded (r : Rules) : Reading Phrase := do
  let tried ← r.block
  let caught ←
    if ← acceptWord "catch" then do
      let target ←
        if ← accept "(" then do
          let c ← r.read .binding
          let type ← r.annotation
          symbol ")"
          pure (c :: type)
        else pure []
      pure (target ++ [← r.block])
    else pure []
  let final ← if ← acceptWord "finally" then pure [← r.block] else pure []
  flawIf (caught.isEmpty && final.isEmpty)
  return .other (tried :: caught ++ final)

/-! ## Any statement -/

/-- A statement behind a keyword that none of its own kind is declared with. -/
def keywordStatement (r : Rules) (k : Sign) : Reading Phrase := do
  pass
  if k.isWord "if" then
    let test ← r.condition
    let yes ← r.branch
    let no ← if ← acceptWord "else" then pure [← r.branch] else pure []
    return .other (test :: yes :: no)
  else if k.isWord "for" then r.loop
  else if k.isWordIn ["while", "with"] then
    let test ← r.condition
    return .other [test, ← r.branch]
  else if k.isWord "do" then
    let looped ← r.branch
    keyword "while"
    let test ← r.condition
    let _ ← accept ";"
    return .other [looped, test]
  else if k.isWord "return" then
    flawIf !(← setting).returns
    let c ← if ← canEnd then pure Phrase.plain else r.values
    terminator
    return .other [c]
  else if k.isWordIn ["break", "continue"] then
    if !(← canEnd) then let _ ← name
    terminator
    return Phrase.plain
  else if k.isWord "throw" then
    flawIf (← onNewLine)
    let c ← r.read .expression
    terminator
    return .other [c]
  else if k.isWord "try" then r.guarded
  else if k.isWord "switch" then
    let test ← r.condition
    return .other (test :: (← braced (some <$> r.switchCase)))
  else
    terminator
    return Phrase.plain

/-- Any statement; `alone` if it is the whole branch of another. -/
def statement (r : Rules) (alone : Bool) : Reading Phrase := do
  let t ← token
  let k := t.sign
  if k.isMark openBrace then r.block
  else if k.isMark ";" then
    advance
    return Phrase.plain
  else if k.isMark "@" then r.decoratedStatement alone
  else if k.isWordIn ["if", "for", "while", "with", "do", "return", "break", "continue", "throw", "try",
      "switch", "debugger"] then r.keywordStatement k
  else if k.isWord "class" || (← seesFunction) then r.declaringStatement alone
  else if k.isWord "export" then
    pass
    r.exportStatement []
  else if k.isWord "import" && !(← holdsBehind (seesAny [".", "("])) then
    pass
    importStatement
    return Phrase.plain
  else if k.isWord "let" && !t.escaped then r.letStatement alone
  else if k.isWord "var" then r.variableStatement []
  else if k.isWord "const" && !((← isTyped) && (← holdsBehind (seesWord "enum"))) then
    flawIf alone
    r.variableStatement []
  else if ← seesResources then
    flawIf alone
    r.resourceStatement
  else if !(k.isWord "async") && (← seesDeclaration) then
    within (fun s => { s with awaits := false }) (r.declaration [])
  else r.expressionStatement

end TaggedStyles.Grammar.Rules
