import TaggedStyles.Printer.Separator
import TaggedStyles.Printer.Splice

/-! Printing a tree. A raw that is set is printed as it is; one that is not is asked for. The printer
works in any monad in which its questions are answered, so that it can be run with remembered answers
and with fresh ones.

`Node.css` and `Root.css` print a node or a root alone; `Root.print` frames the root with the code
around it and splices nested style texts into its raws. -/
namespace TaggedStyles
set_option autoImplicit false

/-! ## Places -/

/-- What a printed node is a child of. -/
inductive Parent where
  | nothing
  | root
  | block
deriving DecidableEq

/-- Where a printed node stands: the number of blocks around it and its place among its siblings. -/
structure Place where
  parent : Parent
  depth : Nat
  index : Nat
deriving DecidableEq

/-- A node on its own. Nothing is inferred for it: what is unset has its fixed text. -/
def Place.floating : Place := ⟨.nothing, 0, 0⟩

def Place.isFloating (p : Place) : Bool := p.parent = .nothing

/-! ## Values -/

/-- The text of a value: as it was written if it has not changed since. -/
def RawValue.text (raw : Option RawValue) (value : Text) : Text :=
  match raw with
  | some raw => if raw.value = value then raw.raw else value
  | none => value

/-- An at-rule up to its parameters. -/
def atRuleStart (name params : Text) (raws : Raws) : Text :=
  let params := if params.isEmpty then [] else RawValue.text raws.params params
  '@' :: name ++ raws.afterName.getD (if params.isEmpty then [] else [' ']) ++ params

def Header.text (raws : Raws) : Header → Text
  | .rule selector => RawValue.text raws.selector selector
  | .atRule name params => atRuleStart name params raws

/-- The offset in the source at which the raw before a node ends. -/
def Node.beforeEnd? (n : Node) : Option Nat :=
  n.raws.ends.before <|> n.source.map (·.start.offset)

/-- The place of the last child that is no comment; the first place if there is none. -/
def lastSolid (ns : List Node) : Nat :=
  ns.length - 1 - (ns.reverse.findIdx? (!·.isComment)).getD (ns.length - 1)

/-! ## Printing -/

namespace Printer

/-- Print a raw; if it is known where in the source it ends, splice into it. -/
def raw (rendered : List Rendered) (text : Text) (stop : Option Nat) : Text :=
  match stop with
  | some stop => splice rendered text stop
  | none => text

variable {m : Type → Type} [Monad m]

/-- A raw of a node at a place, or the separator that stands for it. -/
def rawOr (look : Lookup m) (own : Option Text) (place : Place) (s : Separator) : m Text :=
  match own with
  | some text => return text
  | none => if place.isFloating then return s.default else look.separator s

/-- A separator in front of a line, indented by the depth if it breaks the line. -/
def indented (look : Lookup m) (s : Separator) (depth : Nat) : m Text := do
  let text ← look.separator s
  if '\n' ∈ text then return text ++ (← look.separator .indent).times depth
  else return text

/-- The raw before a node that stands in a root or a block. -/
def before (look : Lookup m) (place : Place) (n : Node) : m Text :=
  match n.raws.before with
  | some text => return text
  | none =>
    if place.isFloating || (place.parent = .root && place.index = 0) then return []
    else
      match n with
      | .leaf (.declaration ..) _ _ => indented look .beforeDeclaration place.depth
      | .leaf (.comment _) _ _ => indented look .beforeComment place.depth
      | _ => indented look .beforeRule place.depth

/-- The raw before the closing mark of a block with children. -/
def afterChildren (look : Lookup m) (place : Place) (raws : Raws) : m Text :=
  match raws.after with
  | some text => return text
  | none => if place.isFloating then return ['\n'] else indented look .beforeClose place.depth

def leaf (look : Lookup m) (place : Place) (semicolon : Bool) (raws : Raws) : Leaf → m Text
  | .declaration prop value important => do
    let between ← rawOr look raws.between place .colon
    let mark := if important then (raws.important.filter (!·.isEmpty)).getD " !important".toList else []
    return prop ++ between ++ RawValue.text raws.value value ++ mark ++ (if semicolon then [';'] else [])
  | .atRule name params =>
    return atRuleStart name params raws ++ raws.between.getD [] ++ (if semicolon then [';'] else [])
  | .comment text => do
    let left ← rawOr look raws.left place .commentLeft
    let right ← rawOr look raws.right place .commentRight
    return ['/', '*'] ++ left ++ text ++ right ++ ['*', '/']

/-- The semicolon that only a rule has behind it. -/
def ownSemicolon (rendered : List Rendered) (raws : Raws) : Header → Text
  | .rule _ => raw rendered (raws.ownSemicolon.getD []) raws.ends.ownSemicolon
  | .atRule .. => []

mutual

/-- Print a node at a place, without the raw before it. -/
def node (look : Lookup m) (rendered : List Rendered) (place : Place) (semicolon : Bool) : Node → m Text
  | .leaf content raws _ => leaf look place semicolon raws content
  | .block header ns raws _ => do
    let between ← rawOr look raws.between place .beforeOpen
    let (children, after) ←
      if ns.isEmpty then do pure ([], ← rawOr look raws.after place .emptyBody)
      else do
        let semicolon ← match raws.semicolon with
          | some semicolon => pure semicolon
          | none => if place.isFloating then pure false else look.semicolon
        let children ← nodes look rendered ⟨.block, place.depth + 1, 0⟩ (lastSolid ns) semicolon ns
        pure (children, ← afterChildren look place raws)
    return header.text raws ++ between ++ ['\x7b'] ++ children ++ raw rendered after raws.ends.after
      ++ ['\x7d'] ++ ownSemicolon rendered raws header

/-- Print the siblings from a place on. All but the one at place `last` are followed by a semicolon if
they can be, and that one if `semicolon` says so. -/
def nodes (look : Lookup m) (rendered : List Rendered) (place : Place) (last : Nat) (semicolon : Bool) :
    List Node → m Text
  | [] => return []
  | n :: ns => do
    let before ← before look place n
    let text ← node look rendered place (place.index != last || semicolon) n
    let more ← nodes look rendered { place with index := place.index + 1 } last semicolon ns
    return raw rendered before n.beforeEnd? ++ text ++ more

end

/-- Print the children of a root. -/
def body (look : Lookup m) (rendered : List Rendered) (r : Root) : m Text := do
  let semicolon ← match r.semicolon with
    | some semicolon => pure semicolon
    | none => look.semicolon
  nodes look rendered ⟨.root, 0, 0⟩ (lastSolid r.nodes) semicolon r.nodes

/-- Print a root between the code around it. -/
def root (look : Lookup m) (rendered : List Rendered) (r : Root) : m Text := do
  let body ← body look rendered r
  return r.codeBefore?.getD [] ++ body ++ raw rendered r.after (some r.rangeEnd) ++ r.codeAfter?.getD []

end Printer

/-! ## Whole trees -/

/-- Run a printer over a scope with remembered answers. -/
def printIn (scope : List Node) (print : Lookup (StateM Lookup.Cache) → StateM Lookup.Cache Text) : Text :=
  ((print (Lookup.cached (descendants scope))).run {}).1

/-- A node on its own, without the raw before it. -/
def Node.css (n : Node) : Text :=
  printIn (n.nodes?.getD []) fun look => Printer.node look [] Place.floating false n

/-- A root with the code around it, with some nested style texts spliced into its raws. -/
def Root.print (rendered : List Rendered) (r : Root) : Text :=
  printIn r.nodes fun look => Printer.root look rendered r

/-- The style text of a root alone. -/
def Root.css (r : Root) : Text :=
  printIn r.nodes fun look => return (← Printer.body look [] r) ++ r.after

end TaggedStyles
