import TaggedStyles.Tree.Walk

/-! Separators: the raws that are inferred for nodes that lack them. A separator is copied from the
first node of the tree that shows it, or else has a fixed text.

`Separator.infer` looks a separator up afresh. `Lookup` is what a printer asks: `Lookup.fresh` infers
each time and `Lookup.cached` remembers every answer. -/
namespace TaggedStyles
set_option autoImplicit false

inductive Separator where
  | beforeDeclaration
  | beforeRule
  | beforeClose
  | beforeComment
  | beforeOpen
  | colon
  | emptyBody
  | indent
  | commentLeft
  | commentRight
deriving DecidableEq

namespace Separator

def default : Separator → Text
  | beforeDeclaration | beforeRule | beforeClose | beforeComment => ['\n']
  | beforeOpen | commentLeft | commentRight => [' ']
  | colon => [':', ' ']
  | emptyBody => []
  | indent => [' ', ' ', ' ', ' ']

/-- The blank characters of a raw up to its last line break. -/
def lines (raw : Text) : Text := (raw.throughLast '\n').blanks

/-- What one node shows of a separator. -/
def shownBy (s : Separator) (e : Entry) : Option Text :=
  let raws := e.node.raws
  match s with
  | beforeDeclaration => if e.node.isDeclaration then raws.before.map lines else none
  | beforeComment => if e.node.isComment then raws.before.map lines else none
  | beforeRule =>
    if e.node.nodes?.isNone || (e.depth = 1 && e.index = 0) then none else raws.before.map lines
  | beforeClose => if e.node.nodes?.any (!·.isEmpty) then raws.after.map lines else none
  | beforeOpen => if e.node.isDeclaration then none else raws.between
  | colon =>
    if e.node.isDeclaration then raws.between.map (·.filter fun c => isBlank c || c == ':') else none
  | emptyBody => if e.node.nodes?.any (·.isEmpty) then raws.after else none
  | indent => if e.depth = 2 then raws.before.map fun raw => (raw.afterLast '\n').blanks else none
  | commentLeft => raws.left
  | commentRight => raws.right

/-- What the first node that shows a separator shows of it. -/
def shown (entries : List Entry) (s : Separator) : Option Text := entries.findSome? s.shownBy

/-- The separators to look for, in this order. -/
def chain : Separator → List Separator
  | beforeComment => [beforeComment, beforeDeclaration, beforeRule]
  | beforeDeclaration => [beforeDeclaration, beforeRule]
  | s => [s]

/-- The text of a separator in a tree with these entries. -/
def infer (entries : List Entry) (s : Separator) : Text :=
  (s.chain.findSome? (shown entries)).getD s.default

end Separator

/-- Whether a semicolon follows the last declaration of a block: as in the first block that ends with
a declaration and says so. -/
def inferSemicolon (entries : List Entry) : Bool :=
  (entries.findSome? fun e =>
    if e.node.nodes?.any fun ns => ns.getLast?.any Node.isDeclaration then e.node.raws.semicolon
    else none).getD false

/-! ## Lookups -/

/-- A way to ask for what has to be inferred. -/
structure Lookup (m : Type → Type) where
  separator : Separator → m Text
  semicolon : m Bool

namespace Lookup

/-- Infer each time. -/
def fresh (entries : List Entry) : Lookup Id where
  separator := Separator.infer entries
  semicolon := inferSemicolon entries

/-- The answers given so far. -/
structure Cache where
  separators : List (Separator × Text) := []
  semicolon : Option Bool := none

/-- Look for separators in order. Each one that is tried is remembered with the answer. -/
def search (entries : List Entry) (default : Text) : List Separator → StateM Cache Text
  | [] => return default
  | s :: more => do
    match (← get).separators.lookup s with
    | some text => return text
    | none =>
      let text ← match s.shown entries with
        | some text => pure text
        | none => search entries default more
      modify fun cache => { cache with separators := (s, text) :: cache.separators }
      return text

/-- Remember every answer. -/
def cached (entries : List Entry) : Lookup (StateM Cache) where
  separator s := search entries s.default s.chain
  semicolon := do
    match (← get).semicolon with
    | some semicolon => return semicolon
    | none =>
      let semicolon := inferSemicolon entries
      modify fun cache => { cache with semicolon := some semicolon }
      return semicolon

end Lookup
end TaggedStyles
