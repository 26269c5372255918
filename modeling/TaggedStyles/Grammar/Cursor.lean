import TaggedStyles.Grammar.Dialect
import TaggedStyles.Grammar.Phrase
import TaggedStyles.Grammar.Token

/-! Reading host code token by token. A reader stands at a token and may move on, fail, or note a flaw and
go on: code is right if reading it neither fails nor notes a flaw. `Reading.attempt` and `Reading.ahead`
take back what was read, flaws included, but not what is remembered about places. -/
namespace TaggedStyles.Grammar
set_option autoImplicit false

/-- Where code stands, as far as that decides how it is read. -/
structure Setting where
  dialect : Dialect
  /-- No list in the code is longer. -/
  bound : Nat
  /-- Whether `in` is an operator. -/
  hasIn : Bool := true
  awaits : Bool := false
  yields : Bool := false
  returns : Bool := false
  /-- Whether all this is only declared and written elsewhere. -/
  ambient : Bool := false
  /-- Whether a type may depend on a condition. -/
  conditional : Bool := true
  /-- Whether this is the expression of a decorator. -/
  decorating : Bool := false

structure Cursor where
  token : Token
  flawed : Bool := false
  /-- Where the shorthands with a value start that are not known to be assigned to. -/
  shorthands : List Nat := []
  /-- Where round brackets are known not to hold the parameters of an arrow function. -/
  notArrows : List Nat := []
  /-- The names that the module exports. -/
  exports : List Text := []

abbrev Reading := ReaderT Setting (OptionT (StateM Cursor))

namespace Reading

/-! ## Tokens -/

def setting : Reading Setting := read

def token : Reading Token := return (← get).token

def sign : Reading Sign := return (← get).token.sign

/-- Whether a line ends in front of the token. -/
def onNewLine : Reading Bool := return (← get).token.newline

def sees (s : String) : Reading Bool := return (← sign).isMark s

def seesWord (w : String) : Reading Bool := return (← sign).isWord w

def seesAny (ss : List String) : Reading Bool := return (← sign).isMarkIn ss

def seesAnyWord (ws : List String) : Reading Bool := return (← sign).isWordIn ws

def isTyped : Reading Bool := return (← setting).dialect.typed

/-! ## Failures and flaws -/

def ensure (b : Bool) : Reading Unit := if b then return () else failure

def flaw : Reading Unit := modify fun c => { c with flawed := true }

def flawIf (b : Bool) : Reading Unit := if b then flaw else return ()

/-! ## Moving -/

/-- Stand at the first token behind an offset. -/
def jump (i : Nat) (cs : Text) : Reading Unit := do
  let (t, flawed) := Token.next (← setting).dialect.script false i cs
  modify fun c => { c with token := t, flawed := c.flawed || flawed }

def advance : Reading Unit := do
  let t ← token
  jump t.stop t.rest

/-- Move over a keyword, which must not be written with escapes. -/
def pass : Reading Unit := do
  flawIf (← token).escaped
  advance

def symbol (s : String) : Reading Unit := do
  ensure (← sees s)
  advance

def keyword (w : String) : Reading Unit := do
  ensure (← seesWord w)
  pass

/-- Move over a mark if it is there. -/
def accept (s : String) : Reading Bool := do
  if ← sees s then
    advance
    return true
  else return false

/-- Move over a keyword if it is there. -/
def acceptWord (w : String) : Reading Bool := do
  if ← seesWord w then
    pass
    return true
  else return false

/-- Take the token as a longer mark if it can be one. -/
def widen : Reading Unit := modify fun c => { c with token := c.token.widened }

def narrow : Reading Unit := modify fun c => { c with token := c.token.narrowed }

/-! ## Alternatives -/

/-- Read if possible; after a failure the reader stands where it stood. -/
def attempt {α : Type} (p : Reading α) : Reading (Option α) := fun s c =>
  match p s c with
  | (some a, c') => (some (some a), c')
  | (none, c') => (some none, { c with shorthands := c'.shorthands, notArrows := c'.notArrows })

def ahead {α : Type} (p : Reading α) : Reading (Option α) := fun s c =>
  match p s c with
  | (a, c') => (some a, { c with shorthands := c'.shorthands, notArrows := c'.notArrows })

/-- Whether something holds of what comes next. -/
def holds (p : Reading Bool) : Reading Bool := return (← ahead p) == some true

def holdsBehind (p : Reading Bool) : Reading Bool :=
  holds do
    advance
    p

def within {α : Type} (f : Setting → Setting) (p : Reading α) : Reading α := fun s => p (f s)

/-! ## Lists -/

/-- Read as often as something is found, at most `n` times. -/
def repeatAtMost {α : Type} (p : Reading (Option α)) : Nat → Reading (List α)
  | 0 => return []
  | n + 1 => do
    match ← p with
    | some a => return a :: (← repeatAtMost p n)
    | none => return []

def repeated {α : Type} (p : Reading (Option α)) : Reading (List α) := do
  repeatAtMost p (← setting).bound

/-- Read as often as a mark stands in front. -/
def eachAfter {α : Type} (s : String) (p : Reading α) : Reading (List α) :=
  repeated do
    if ← accept s then return some (← p) else return none

/-- Items with commas between them up to a closing mark, and whether a comma is behind the last. -/
def items {α : Type} (close : String) (item : Reading α) : Reading (List α × Bool) := do
  if ← sees close then return ([], false)
  let first ← item
  let more ← repeated do
    if ← sees close then return none
    symbol ","
    if ← sees close then return some none else return some (some (← item))
  return (first :: more.filterMap id, more.any Option.isNone)

def enclosed {α : Type} (opening close : String) (item : Reading α) : Reading (List α × Bool) := do
  symbol opening
  let found ← items close item
  symbol close
  return found

/-- Things without anything between them, in braces. -/
def braced {α : Type} (item : Reading (Option α)) : Reading (List α) := do
  symbol openBrace
  let found ← repeated do
    if ← sees closeBrace then return none else item
  symbol closeBrace
  return found

/-! ## Statement ends -/

/-- Whether a semicolon stands here or may be left out. -/
def canEnd : Reading Bool := do
  let t ← token
  return t.sign.isMarkIn [";", closeBrace] || t.sign == .ending || t.newline

/-- The end of a statement. -/
def terminator : Reading Unit := do
  ensure (← canEnd)
  let _ ← accept ";"

end Reading
end TaggedStyles.Grammar
