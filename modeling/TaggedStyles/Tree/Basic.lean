import TaggedStyles.Position
import TaggedStyles.Text.Blank

/-! The tree of one style text. Nodes that hold others are blocks, all others are leaves; an at-rule is
one or the other. What is formatting only stands in the `Raws` of a node: a raw that is not set is
inferred from other nodes on printing. -/
namespace TaggedStyles
set_option autoImplicit false

/-! ## Formatting -/

/-- A cleaned value and the text it was cleaned from. The text is printed as long as the value is the
one of the node. -/
structure RawValue where
  value : Text
  raw : Text
deriving DecidableEq

/-- Offsets in the source, each right behind the last character of a raw. -/
structure RawEnds where
  before : Option Nat := none
  after : Option Nat := none
  ownSemicolon : Option Nat := none
deriving DecidableEq

/-- The formatting of a node. -/
structure Raws where
  /-- What stands before the node: spaces, stray semicolons, holes on their own. -/
  before : Option Text := none
  /-- What stands before the closing mark of a block. -/
  after : Option Text := none
  /-- What stands between property and value, or before the opening mark of a block. -/
  between : Option Text := none
  /-- Whether a semicolon follows the last child of a block. -/
  semicolon : Option Bool := none
  /-- The spelling of the important mark, unless it is the usual one. -/
  important : Option Text := none
  /-- What stands between the name of an at-rule and its parameters. -/
  afterName : Option Text := none
  /-- What stands in a comment before its text. -/
  left : Option Text := none
  /-- What stands in a comment behind its text. -/
  right : Option Text := none
  /-- A semicolon right behind a rule, with what stands in front of it. -/
  ownSemicolon : Option Text := none
  selector : Option RawValue := none
  value : Option RawValue := none
  params : Option RawValue := none
  ends : RawEnds := {}
deriving DecidableEq

/-! ## Nodes -/

/-- What a node without children says. -/
inductive Leaf where
  | declaration (prop value : Text) (important : Bool)
  | atRule (name params : Text)
  | comment (text : Text)
deriving DecidableEq

/-- What stands in front of a block. -/
inductive Header where
  | rule (selector : Text)
  | atRule (name params : Text)
deriving DecidableEq

inductive Node where
  | leaf (content : Leaf) (raws : Raws) (source : Option Span)
  | block (header : Header) (nodes : List Node) (raws : Raws) (source : Option Span)

namespace Node

def raws : Node → Raws
  | leaf _ r _ => r
  | block _ _ r _ => r

def source : Node → Option Span
  | leaf _ _ s => s
  | block _ _ _ s => s

/-- The children, for a block. -/
def nodes? : Node → Option (List Node)
  | leaf .. => none
  | block _ ns _ _ => some ns

/-- The nodes of what can have some: an at-rule without a body has none, a declaration or a comment is nothing that
others stand in. -/
def container? : Node → Option (List Node)
  | block _ ns _ _ => some ns
  | leaf (.atRule ..) _ _ => some []
  | leaf .. => none

def withRaws (r : Raws) : Node → Node
  | leaf c _ s => leaf c r s
  | block h ns _ s => block h ns r s

def withSource (s : Option Span) : Node → Node
  | leaf c r _ => leaf c r s
  | block h ns r _ => block h ns r s

def isDeclaration : Node → Bool
  | leaf (.declaration ..) _ _ => true
  | _ => false

def isComment : Node → Bool
  | leaf (.comment _) _ _ => true
  | _ => false

def isRule : Node → Bool
  | block (.rule _) _ _ _ => true
  | _ => false

def isAtRule : Node → Bool
  | leaf (.atRule ..) _ _ => true
  | block (.atRule ..) _ _ _ => true
  | _ => false

end Node

/-! ## Roots -/

/-- The part a root plays in its document. -/
inductive Role where
  /-- On its own in the host code, with the code before it, and the code after it if it is the last. -/
  | component (codeBefore : Text) (codeAfter : Option Text)
  /-- In a hole of another root, with the text that stands there in the source. -/
  | nested (written : Text)
deriving DecidableEq

/-- One parsed style text. -/
structure Root where
  nodes : List Node := []
  /-- What stands behind the last child. -/
  after : Text := []
  /-- Whether a semicolon follows the last child; unset without children. -/
  semicolon : Option Bool := none
  /-- Offset of the first character in the source. -/
  rangeStart : Nat := 0
  /-- Offset right behind the last character in the source. -/
  rangeEnd : Nat := 0
  role : Role := .component [] none
  source : Span := ⟨Position.front, none⟩

namespace Root

def isComponent (r : Root) : Bool :=
  match r.role with
  | .component .. => true
  | .nested _ => false

def codeBefore? (r : Root) : Option Text :=
  match r.role with
  | .component code _ => some code
  | .nested _ => none

def codeAfter? (r : Root) : Option Text :=
  match r.role with
  | .component _ code => code
  | .nested _ => none

def written? (r : Root) : Option Text :=
  match r.role with
  | .component .. => none
  | .nested text => some text

end Root
end TaggedStyles
