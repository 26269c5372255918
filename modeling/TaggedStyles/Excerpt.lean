import TaggedStyles.Position

/-! Excerpts: a text together with the place in the full source where it starts. Reading an excerpt works
with offsets into its own text; `Excerpt.position` turns such an offset into a place in the source. Only
columns on the excerpt's first line are shifted, because later lines start in the source where they start
in the excerpt. -/
namespace TaggedStyles
set_option autoImplicit false

namespace Text

/-- Line and column after `n` more bytes, when `line` lines, `chars` characters and `bytes` bytes of
the current line have been passed. Inside a character the column falls back to counting bytes. -/
def lineColumnFrom (line chars bytes : Nat) : Text → Nat → Nat × Nat
  | [], _ => (line, chars + 1)
  | c :: cs, n =>
    if n = 0 then (line, chars + 1)
    else if n < c.utf8Size then (line, bytes + n + 1)
    else if c = '\n' then lineColumnFrom (line + 1) 0 0 cs (n - c.utf8Size)
    else lineColumnFrom line (chars + 1) (bytes + c.utf8Size) cs (n - c.utf8Size)

/-- Line and column of a byte offset, both from 1. An offset past the end counts as the end. -/
def lineColumn (t : Text) (offset : Nat) : Nat × Nat :=
  lineColumnFrom 1 0 0 t offset

end Text

/-- A text, the position of its first character in the full source, and the name of the file. -/
structure Excerpt where
  text : Text
  origin : Position := Position.front
  file : Option String := none
deriving DecidableEq

/-- The place in the source of an offset into the excerpt. -/
def Excerpt.position (e : Excerpt) (offset : Nat) : Position :=
  let (line, column) := e.text.lineColumn offset
  { offset := e.origin.offset + offset
    line := e.origin.line + line - 1
    column := if line = 1 then e.origin.column + column - 1 else column }

end TaggedStyles
