import TaggedStyles.Host.Code

/-! Host code as it is read, with all of its shape that decides whether it is right; `Phrase.code` is what the
locator sees of it. Parts stand in the order of the source. An expression that a value is assigned to is read
like any other; `Phrase.asTarget?` says what it then means. -/
namespace TaggedStyles.Grammar
set_option autoImplicit false

inductive Phrase where
  | name (ident : Text)
  | member (object : Phrase) (property : Text)
  /-- A member whose name is computed or private. -/
  | access (object : Phrase) (index : List Phrase)
  | call (callee : Phrase) (types args : List Phrase)
  | template (template : Host.Template) (values : List Phrase)
  /-- A template with the code in front of it that gives it its meaning. -/
  | tagged (tag : Phrase) (types : List Phrase) (template : Host.Template) (values : List Phrase)
  /-- An arrow function whose body is one expression. -/
  | arrow (params : List Phrase) (value : Phrase)
  /-- Code in round brackets. -/
  | group (inner : Phrase)
  /-- Code with optional accesses. -/
  | chain (inner : Phrase)
  /-- Code with type arguments that no call or template takes. -/
  | applied (inner : Phrase) (types : List Phrase)
  /-- Code with another type than its own, which stands in front of it or behind. -/
  | cast (before : List Phrase) (inner : Phrase) (after : List Phrase)
  /-- Items in square brackets, perhaps with a comma behind the last. -/
  | list (items : List Phrase) (comma : Bool)
  /-- Entries in braces, perhaps with a comma behind the last. -/
  | record (entries : List Phrase) (comma : Bool)
  | entry (key : List Phrase) (value : Phrase)
  /-- A name that is its own key. A value behind it makes sense only if the record is assigned to. -/
  | shorthand (start : Nat) (value : List Phrase)
  | spread (inner : Phrase)
  /-- An item that is left out. -/
  | gap
  /-- An assignment; `plain` if nothing is computed by it. -/
  | assigned (plain : Bool) (target value : Phrase)
  /-- An operand with an operator in front of it that binds less than a power. -/
  | signed (inner : Phrase)
  /-- Two truth values joined, or a value with its replacement if it is missing. -/
  | logical (coalescing : Bool) (left right : Phrase)
  | sequence (parts : List Phrase)
  /-- A pattern that values are bound to, with the names that it binds. -/
  | pattern (names : List Text) (parts : List Phrase)
  | other (parts : List Phrase)
deriving Inhabited

namespace Phrase

def plain : Phrase := other []

def names : Phrase → List Text
  | pattern names _ => names
  | _ => []

def isBoundName : Phrase → Bool
  | pattern [_] [] => true
  | _ => false

/-- A pattern that is a single name, perhaps with a type. -/
def isTypedName : Phrase → Bool
  | pattern _ (target :: _) => target.isBoundName
  | c => c.isBoundName

def isSpread : Phrase → Bool
  | spread _ => true
  | _ => false

def spreadsPattern : Phrase → Bool
  | spread (list _ _) | spread (record _ _) => true
  | _ => false

def isPlainTemplate : Phrase → Bool
  | template t _ => t.holes.isEmpty
  | _ => false

def isPath : Phrase → Bool
  | name _ => true
  | member object _ => object.isPath
  | _ => false

/-! ## What the locator sees -/

mutual

def code : Phrase → Host.Code
  | name ident => .name ident
  | member object _ => .member object.code
  | call callee types args => .call callee.code (codes types) (codes args)
  | template t values => .template t (codes values)
  | tagged tag types t values => .tagged tag.code (codes types) t (codes values)
  | arrow params value => .arrow (codes params) value.code
  | gap => .other []
  | group c | chain c | spread c | signed c => .other [c.code]
  | access c more | applied c more => .other (c.code :: codes more)
  | cast before c after => .other (codes before ++ c.code :: codes after)
  | entry key value => .other (codes key ++ [value.code])
  | assigned _ left right | logical _ left right => .other [left.code, right.code]
  | list parts _ | record parts _ | shorthand _ parts | sequence parts | pattern _ parts | other parts =>
    .other (codes parts)

def codes : List Phrase → List Host.Code
  | [] => []
  | c :: cs => c.code :: codes cs

end

/-! ## Targets of assignments -/

/-- A place that a value can be put in, when round brackets and types are passed over. -/
def isPlace : Phrase → Bool
  | name _ | member _ _ | access _ _ => true
  | group inner | applied inner _ | cast _ inner _ => inner.isPlace
  | _ => false

def isSimpleTarget : Phrase → Bool
  | name _ | member _ _ | access _ _ => true
  | group inner => inner.isSimpleTarget
  | cast _ inner _ => inner.isPlace
  | _ => false

/-- What is known of code as a target: whether it is wrong, although it can be read on, and where the
names start that are given values in it. -/
structure Target where
  flawed : Bool := false
  shorthands : List Nat := []
deriving DecidableEq

mutual

/-- Code as the target of an assignment. Inside of a list or a record a target may have a value of its
own, which it gets if no other is there. -/
def asTarget? (inside : Bool) : Phrase → Option Target
  | assigned plain _ _ => if inside then some ⟨!plain, []⟩ else none
  | list items comma => asTargets? false comma items
  | record entries comma => asTargets? true comma entries
  | entry _ value => if inside then asTarget? true value else none
  | shorthand start _ => if inside then some ⟨false, [start]⟩ else none
  | spread inner => if inside then asTarget? false inner else none
  | gap => if inside then some {} else none
  | c => if c.isSimpleTarget then some {} else none

/-- Items or entries as targets. What is left over goes to the last of them. -/
def asTargets? (named comma : Bool) : List Phrase → Option Target
  | [] => some {}
  | c :: cs => do
    if c.isSpread && !cs.isEmpty then none
    let first ← asTarget? true c
    let others ← asTargets? named comma cs
    let wrong := c.isSpread && (comma || (named && c.spreadsPattern))
    return ⟨wrong || first.flawed || others.flawed, first.shorthands ++ others.shorthands⟩

end

end Phrase
end TaggedStyles.Grammar
