import TaggedStyles.Grammar.Binding

/-! Type parameters and type arguments, in angle brackets, and result types. -/
namespace TaggedStyles.Grammar
set_option autoImplicit false

/-! ## What may follow type arguments -/

namespace Sign

def level? (k : Sign) : Option Nat :=
  if k.isMark "??" then some 1
  else if k.isMark "||" then some 2
  else if k.isMark "&&" then some 3
  else if k.isMark "|" then some 4
  else if k.isMark "^" then some 5
  else if k.isMark "&" then some 6
  else if k.isMarkIn ["==", "!=", "===", "!=="] then some 7
  else if k.isMarkIn ["<", ">", "<=", ">="] || k.isWordIn ["in", "instanceof", "as", "satisfies"] then some 8
  else if k.isMarkIn ["<<", ">>", ">>>"] then some 9
  else if k.isMarkIn ["+", "-"] then some 10
  else if k.isMarkIn ["*", "/", "%"] then some 11
  else if k.isMark "**" then some 12
  else none

def startsExpression (k : Sign) : Bool :=
  k.isLiteral || k.isName || k.isSecret || k.level?.isSome ||
    k.isMarkIn ["(", "[", openBrace, backtick, "/=", "!", "~", "++", "--", "@"] ||
    k.isWordIn ["this", "super", "function", "class", "new", "typeof", "void", "delete"]

end Sign

namespace Reading

/-- Whether type arguments may end here in an expression, so that no comparison was meant. -/
def endsTypeArguments : Reading Bool := do
  let t ← token
  if t.sign.isMarkIn ["(", backtick] then return true
  else if t.sign.isMarkIn ["<", ">", "+", "-"] then return false
  else if t.newline then return true
  else if t.sign.isWord "import" then return !(← holdsBehind (seesAny ["(", "<", "."]))
  else
    let operator := t.sign.level?.isSome && !(t.sign.isWord "in" && !(← setting).hasIn)
    return operator || !t.sign.startsExpression

end Reading

namespace Rules
open Reading

/-! ## Type arguments -/

/-- Types in angle brackets, of which there is at least one. -/
def typeList (r : Rules) : Reading (List Phrase) := do
  symbol "<"
  let (types, _) ← items ">" (r.read .type)
  symbol ">"
  flawIf types.isEmpty
  return types

/-- Type arguments, if they are there. -/
def typeArguments (r : Rules) : Reading (List Phrase) := do
  let t ← token
  if t.narrowed.sign.isMark "<" then
    narrow
    r.typeList
  else return []

/-- Type arguments on the same line, if they are there. -/
def typeArgumentsOnLine (r : Rules) : Reading (List Phrase) := do
  if ← onNewLine then return [] else r.typeArguments

/-- Type arguments in an expression of typed code, or a failure if a comparison was meant. -/
def appliedTypes (r : Rules) : Reading (List Phrase) := do
  ensure (← isTyped)
  narrow
  symbol "<"
  let (types, _) ← items ">" (r.read .type)
  ensure !(">=".toList.isPrefixOf (← token).source)
  symbol ">"
  ensure (← endsTypeArguments)
  flawIf types.isEmpty
  return types

/-! ## Type parameters -/

def typeParameter (r : Rules) : Reading Phrase := do
  let ms ← modifiers true false
  allowModifiers ["in", "out", "const"] ms
  let _ ← name
  let bound ← if ← acceptWord "extends" then pure [← r.read .type] else pure []
  let default ← if ← accept "=" then pure [← r.read .type] else pure []
  return .other (bound ++ default)

/-- The type parameters of typed code, if they are there. -/
def typeParameters (r : Rules) : Reading (List Phrase) := do
  if (← isTyped) && (← sees "<") then
    let (found, _) ← enclosed "<" ">" r.typeParameter
    flawIf found.isEmpty
    return found
  else return []

/-! ## Result types -/

/-- A type, or a statement about the type of something that is named. -/
def resultType (r : Rules) : Reading Phrase := do
  let _ ← attempt do
    let _ ← anyName
    ensure !(← onNewLine)
    keyword "is"
  r.read .type

/-- A result type behind a mark, if typed code has one here. -/
def result (r : Rules) (mark : String) : Reading (List Phrase) := do
  if (← isTyped) && (← accept mark) then return [← r.resultType] else return []

end Rules
end TaggedStyles.Grammar
