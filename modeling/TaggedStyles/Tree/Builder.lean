import TaggedStyles.Token.Reader
import TaggedStyles.Tree.Run

/-! The tree as it grows: open blocks on a stack, and text that waits for the next node. Each operation
takes the tokens of one construct; together they decide where every piece of text goes. -/
namespace TaggedStyles
set_option autoImplicit false

/-- A block that is not closed yet. -/
structure Frame where
  header : Header
  raws : Raws
  source : Span
  nodes : List Node := []

structure Builder where
  excerpt : Excerpt
  holes : List Hole
  nodes : List Node := []
  /-- Open blocks, innermost first. -/
  frames : List Frame := []
  /-- Text for the raw before the next node, or for the end of the block. -/
  pending : Text := []
  /-- Whether a semicolon ended the last declaration or at-rule here. -/
  semicolon : Bool := false

namespace Builder

/-! ## Places -/

def position (b : Builder) (offset : Nat) : Position := b.excerpt.position offset

/-- The place one byte behind an offset, on the line and column of the offset itself. -/
def positionBehind (b : Builder) (offset : Nat) : Position :=
  let p := b.position offset
  { p with offset := p.offset + 1 }

def error (b : Builder) (cause : Cause) (offset : Nat) : Fault := .style (b.excerpt.error cause offset)

/-- The error for a token that fits nowhere. A space has no place of its own and counts as standing
where reading has got to. -/
def unknownWord (b : Builder) (t : Token) (reached : Nat) : Fault :=
  b.error (.unknownWord t.text) (t.start.getD reached)

/-! ## Nodes -/

/-- Change the children of the innermost open block, or of the root. -/
def mapNodes (f : List Node → List Node) (b : Builder) : Builder :=
  match b.frames with
  | [] => { b with nodes := f b.nodes }
  | frame :: frames => { b with frames := { frame with nodes := f frame.nodes } :: frames }

/-- The last child of the innermost open block, or of the root. -/
def lastNode? (b : Builder) : Option Node :=
  match b.frames with
  | [] => b.nodes.getLast?
  | frame :: _ => frame.nodes.getLast?

def add (b : Builder) (n : Node) : Builder := b.mapNodes (· ++ [n])

def openBlock (b : Builder) (frame : Frame) : Builder := { b with frames := frame :: b.frames }

def wait (b : Builder) (text : Text) : Builder := { b with pending := b.pending ++ text }

/-- Give the waiting text away. -/
def taken (b : Builder) : Builder := { b with pending := [], semicolon := false }

/-! ## Constructs -/

/-- A comment becomes a node; blank characters at its ends are kept apart from its text. -/
def comment (b : Builder) (t : Token) : Builder :=
  let start := t.start.getD 0
  let inner : Text := (t.text.drop 2).take (t.text.length - 4)
  let opened := inner.trimStart
  let text := opened.trimEnd
  let (left, right) :=
    if text.isEmpty then (inner, [])
    else (inner.take (inner.length - opened.length), opened.drop text.length)
  let place := b.position start
  let raws : Raws :=
    { before := some b.pending, left := some left, right := some right, ends := { before := some place.offset } }
  add { b with pending := [] }
    (.leaf (.comment text) raws (some ⟨place, some (b.positionBehind (t.last.getD start))⟩))

/-- Open the rule whose selector is a run of tokens. -/
def openRule (b : Builder) (run : List Token) : Builder :=
  let (lines, run) := Run.splitHoleLines b.holes run
  let place := b.position ((run.head?.bind (·.start)).getD 0)
  let (run, between) := Run.splitEnd Token.isTrivia run
  let (selector, raw) := Run.clean false run
  let raws : Raws :=
    { before := some (b.pending ++ Token.joined lines), between := some (Token.joined between)
      selector := raw, ends := { before := some place.offset } }
  b.taken.openBlock ⟨.rule selector, raws, ⟨place, none⟩, []⟩

/-- Open a rule without a selector. -/
def openBareRule (b : Builder) (t : Token) : Builder :=
  let place := b.position (t.start.getD 0)
  let raws : Raws := { before := some b.pending, between := some [], ends := { before := some place.offset } }
  b.taken.openBlock ⟨.rule [], raws, ⟨place, none⟩, []⟩

/-- Split a leading underscore or star, which hides a property from some readers, off its name. -/
def splitHack : Text → Text × Text
  | '_' :: prop => (['_'], prop)
  | '*' :: prop => (['*'], prop)
  | prop => ([], prop)

/-- Add the declaration that a run of tokens is, semicolon included. `reached` is the offset up to
which tokens have been read. -/
def declare (b : Builder) (run : List Token) (custom : Bool) (reached : Nat) : Except Fault Builder := do
  let some last := run.getLast? | return b.taken
  let closed := last.kind = .semicolon
  let run := if closed then run.dropLast else run
  let stop := last.anchor? <|> Run.lastAnchor? run
  let (before, run) ← (Run.splitProperty b.holes b.pending run).mapError (b.unknownWord · reached)
  let place := b.position ((run.head?.bind (·.start)).getD 0)
  let name := Token.joined (run.takeWhile (!Run.endsProperty ·))
  let (between, value) ←
    (Run.splitColon [] (run.dropWhile (!Run.endsProperty ·))).mapError (b.unknownWord · reached)
  let (hack, prop) := splitHack name
  let lead := value.takeWhile Token.isTrivia
  let (value, important, mark) := Run.splitImportant (value.dropWhile Token.isTrivia)
  let bare := value.all Token.isTrivia
  let (text, raw) := Run.clean custom (if bare then lead ++ value else value)
  if ':' ∈ text && !custom then
    if let some (cause, offset) := Run.colonFault? value then throw (b.error cause offset)
  let raws : Raws :=
    { before := some (before ++ hack)
      between := some (if bare then between else between ++ Token.joined lead)
      important := mark
      value := raw
      ends := { before := some (place.offset + hack.size) } }
  return { b.taken with semicolon := closed }.add
    (.leaf (.declaration prop text important) raws (some ⟨place, stop.map b.position⟩))

/-- Take a run without a structure of its own: its comments become nodes, its spaces, semicolons and
holes wait for the next node, and nothing else may stand in it. -/
def fill (b : Builder) : List Token → Except Fault Builder
  | [] => .ok b
  | t :: ts =>
    if t.kind = .space || t.kind = .semicolon || t.isHole b.holes then (b.wait t.text).fill ts
    else if t.kind = .comment then (b.comment t).fill ts
    else .error (b.unknownWord t 0)

/-- A semicolon on its own belongs to the rule right before it, if that has none yet. -/
def freeSemicolon (b : Builder) (t : Token) : Builder :=
  match b.lastNode? with
  | some (.block (.rule selector) nodes raws source) =>
    if raws.ownSemicolon.isSome then b.wait t.text
    else
      let stop := b.positionBehind (t.start.getD 0)
      let raws :=
        { raws with
          ownSemicolon := some (b.pending ++ t.text)
          ends := { raws.ends with ownSemicolon := some stop.offset } }
      let rule := Node.block (.rule selector) nodes raws (source.map fun s => { s with stop := some stop })
      { b with pending := [] }.mapNodes (·.dropLast ++ [rule])
  | _ => b.wait t.text

/-- Close the innermost block. -/
def close (b : Builder) (t : Token) : Except Fault Builder :=
  let start := t.start.getD 0
  match b.frames with
  | [] => .error (b.error .unexpectedClose start)
  | frame :: frames =>
    let raws :=
      { frame.raws with
        semicolon := if frame.nodes.isEmpty then frame.raws.semicolon else some b.semicolon
        after := some (frame.raws.after.getD [] ++ b.pending)
        ends := { frame.raws.ends with after := some (b.position start).offset } }
    let source := { frame.source with stop := some (b.positionBehind start) }
    .ok ({ b with frames := frames, pending := [], semicolon := false }.add
      (.block frame.header frame.nodes raws (some source)))

/-- The root, once all tokens are taken. -/
def finish (b : Builder) (role : Role) : Except Fault Root :=
  match b.frames with
  | frame :: _ => .error (.style ⟨.unclosedBlock, frame.source.start, b.excerpt.file⟩)
  | [] =>
    .ok
      { nodes := b.nodes
        after := b.pending
        semicolon := if b.nodes.isEmpty then none else some b.semicolon
        rangeStart := b.excerpt.origin.offset
        rangeEnd := b.excerpt.origin.offset + b.excerpt.text.size
        role := role
        source := ⟨b.excerpt.origin, some (b.position b.excerpt.text.size)⟩ }

end Builder
end TaggedStyles
