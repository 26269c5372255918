import TaggedStyles.Document.Basic

/-! Edits of a document. A node is reached by the place of its root and then by places among siblings;
an edit that cannot be done says why and leaves the document alone. -/
namespace TaggedStyles
set_option autoImplicit false

/-- Why an edit or a question does not apply. -/
inductive EditError where
  | noSuchField
  | notContainer
  | noSuchNode
  | noSuchRoot
deriving DecidableEq

def EditError.message : EditError → String
  | noSuchField => "no such field"
  | notContainer => "not a container"
  | noSuchNode => "no such node"
  | noSuchRoot => "no such root"

/-! ## Paths -/

/-- Where a node stands in a document. A path without places is the root itself. -/
structure Path where
  root : Nat
  places : List Nat
deriving DecidableEq

namespace Node

/-- The node reached from some siblings. -/
def at? : List Nat → List Node → Option Node
  | [], _ => none
  | [i], ns => ns[i]?
  | i :: places, ns => (ns[i]?.bind nodes?).bind (at? places)

/-- Change the node reached from some siblings. -/
def modifyAt (f : Node → Except EditError Node) : List Nat → List Node → Except EditError (List Node)
  | [], _ => .error .noSuchNode
  | [i], ns =>
    match ns[i]? with
    | some n => return ns.set i (← f n)
    | none => .error .noSuchNode
  | i :: places, ns =>
    match ns[i]? with
    | some (.block header children raws source) => do
      let children ← modifyAt f places children
      return ns.set i (.block header children raws source)
    | _ => .error .noSuchNode

/-- The children of a node that can have some. -/
def children (n : Node) : Except EditError (List Node) :=
  match n.container? with
  | some ns => .ok ns
  | none => .error .notContainer

/-- Change the children of a node that can have some. An at-rule without a body gains one. -/
def mapChildren (f : List Node → Except EditError (List Node)) : Node → Except EditError Node
  | .block header ns raws source => return .block header (← f ns) raws source
  | .leaf (.atRule name params) raws source => return .block (.atRule name params) (← f []) raws source
  | .leaf .. => .error .notContainer

end Node

namespace Document

def root (d : Document) (i : Nat) : Except EditError Root :=
  match d.roots[i]? with
  | some r => .ok r
  | none => .error .noSuchRoot

def node (d : Document) (path : Path) : Except EditError Node := do
  let r ← d.root path.root
  match Node.at? path.places r.nodes with
  | some n => return n
  | none => throw .noSuchNode

/-- The children of a root or of a node that can have some. -/
def children (d : Document) (path : Path) : Except EditError (List Node) := do
  if path.places.isEmpty then return (← d.root path.root).nodes
  else (← d.node path).children

def mapRoot (d : Document) (i : Nat) (f : Root → Except EditError Root) : Except EditError Document := do
  let r ← d.root i
  return { d with roots := d.roots.set i (← f r) }

def mapNode (d : Document) (path : Path) (f : Node → Except EditError Node) : Except EditError Document :=
  d.mapRoot path.root fun r => return { r with nodes := ← Node.modifyAt f path.places r.nodes }

def mapChildren (d : Document) (path : Path) (f : List Node → Except EditError (List Node)) :
    Except EditError Document :=
  if path.places.isEmpty then d.mapRoot path.root fun r => return { r with nodes := ← f r.nodes }
  else d.mapNode path (Node.mapChildren f)

end Document

/-! ## Changes of one node -/

/-- A field of a node that is not formatting, with its new content. -/
inductive FieldChange where
  | prop (new : Text)
  | value (new : Text)
  | important (new : Bool)
  | selector (new : Text)
  | name (new : Text)
  | params (new : Text)
  | text (new : Text)

/-- The raws that are plain text. -/
inductive TextRaw where
  | before | after | between | important | afterName | left | right | ownSemicolon

/-- The raws that belong to a cleaned value. -/
inductive CleanedRaw where
  | selector | value | params

/-- The raws whose end in the source is known. -/
inductive RawEnd where
  | before | after | ownSemicolon

/-- A raw with its new content; no content unsets it. -/
inductive RawChange where
  | text (raw : TextRaw) (new : Option Text)
  | semicolon (new : Option Bool)
  | cleaned (raw : CleanedRaw) (new : Option RawValue)
  | stop (raw : RawEnd) (new : Option Nat)

/-- A field of a root with its new content. -/
inductive RootChange where
  | after (new : Text)
  | semicolon (new : Option Bool)
  | rangeStart (new : Nat)
  | rangeEnd (new : Nat)
  | role (new : Role)

def FieldChange.applyToLeaf : FieldChange → Leaf → Except EditError Leaf
  | .prop new, .declaration _ v i => .ok (.declaration new v i)
  | .value new, .declaration p _ i => .ok (.declaration p new i)
  | .important new, .declaration p v _ => .ok (.declaration p v new)
  | .name new, .atRule _ p => .ok (.atRule new p)
  | .params new, .atRule n _ => .ok (.atRule n new)
  | .text new, .comment _ => .ok (.comment new)
  | _, _ => .error .noSuchField

def FieldChange.applyToHeader : FieldChange → Header → Except EditError Header
  | .selector new, .rule _ => .ok (.rule new)
  | .name new, .atRule _ p => .ok (.atRule new p)
  | .params new, .atRule n _ => .ok (.atRule n new)
  | _, _ => .error .noSuchField

def FieldChange.apply (change : FieldChange) : Node → Except EditError Node
  | .leaf content raws source => return .leaf (← change.applyToLeaf content) raws source
  | .block header ns raws source => return .block (← change.applyToHeader header) ns raws source

def RawChange.apply (raws : Raws) : RawChange → Raws
  | text .before new => { raws with before := new }
  | text .after new => { raws with after := new }
  | text .between new => { raws with between := new }
  | text .important new => { raws with important := new }
  | text .afterName new => { raws with afterName := new }
  | text .left new => { raws with left := new }
  | text .right new => { raws with right := new }
  | text .ownSemicolon new => { raws with ownSemicolon := new }
  | semicolon new => { raws with semicolon := new }
  | cleaned .selector new => { raws with selector := new }
  | cleaned .value new => { raws with value := new }
  | cleaned .params new => { raws with params := new }
  | stop .before new => { raws with ends := { raws.ends with before := new } }
  | stop .after new => { raws with ends := { raws.ends with after := new } }
  | stop .ownSemicolon new => { raws with ends := { raws.ends with ownSemicolon := new } }

def RootChange.apply (r : Root) : RootChange → Root
  | after new => { r with after := new }
  | semicolon new => { r with semicolon := new }
  | rangeStart new => { r with rangeStart := new }
  | rangeEnd new => { r with rangeEnd := new }
  | role new => { r with role := new }

mutual

/-- A node without formatting, all nodes below it included. -/
def Node.bare : Node → Node
  | .leaf content _ source => .leaf content {} source
  | .block header ns _ source => .block header (bareNodes ns) {} source

def bareNodes : List Node → List Node
  | [] => []
  | n :: ns => n.bare :: bareNodes ns

end

/-! ## Edits -/

inductive Edit where
  | set (path : Path) (change : FieldChange)
  | raw (path : Path) (change : RawChange)
  /-- Drop the formatting of one node. -/
  | clearRaws (path : Path)
  /-- Drop the formatting of all nodes of a root. -/
  | clearAllRaws (root : Nat)
  | source (path : Path) (new : Option Span)
  /-- Move the recorded start of a node to the right. -/
  | shiftSource (path : Path) (distance : Nat)
  | root (root : Nat) (change : RootChange)
  | append (path : Path) (node : Node)
  | insert (path : Path) (index : Nat) (node : Node)
  | remove (path : Path)
  | removeRoot (root : Nat)
  /-- Take a node out and insert it under a path that is read after that. -/
  | move (path : Path) (target : Path) (index : Nat)
  /-- Insert a node once more, formatting included. -/
  | copy (path : Path) (target : Path) (index : Nat)

/-- Put a node at a place among its siblings; behind the last one there is only the end. -/
def insertNode (index : Nat) (n : Node) (ns : List Node) : List Node := ns.insertIdx (min index ns.length) n

namespace Document

/-- Take out a node. -/
def remove (d : Document) (path : Path) : Except EditError Document := do
  match path.places.getLast? with
  | none => throw .noSuchNode
  | some i =>
    let _ ← d.node path
    d.mapChildren ⟨path.root, path.places.dropLast⟩ fun ns => return ns.eraseIdx i

def insert (d : Document) (path : Path) (index : Nat) (n : Node) : Except EditError Document :=
  d.mapChildren path fun ns => return insertNode index n ns

def edit (d : Document) : Edit → Except EditError Document
  | .set path change => d.mapNode path change.apply
  | .raw path change => d.mapNode path fun n => return n.withRaws (change.apply n.raws)
  | .clearRaws path => d.mapNode path fun n => return n.withRaws {}
  | .clearAllRaws i => d.mapRoot i fun r => return { r with nodes := bareNodes r.nodes }
  | .source path new => d.mapNode path fun n => return n.withSource new
  | .shiftSource path distance =>
    d.mapNode path fun n =>
      let moved := n.source.map fun s => { s with start := { s.start with offset := s.start.offset + distance } }
      return n.withSource moved
  | .root i change => d.mapRoot i fun r => return change.apply r
  | .append path n => d.mapChildren path fun ns => return ns ++ [n]
  | .insert path index n => d.insert path index n
  | .remove path => d.remove path
  | .removeRoot i => do
    let _ ← d.root i
    return { d with roots := d.roots.eraseIdx i }
  | .move path target index => do
    let n ← d.node path
    (← d.remove path).insert target index n
  | .copy path target index => do
    let n ← d.node path
    d.insert target index n

end Document
end TaggedStyles
