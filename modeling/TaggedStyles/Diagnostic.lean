import TaggedStyles.Error

/-! Diagnostics: one shape for problems of the host code and errors of the style texts in it, so that
both can be shown side by side. -/
namespace TaggedStyles
set_option autoImplicit false

inductive Severity where
  | error
  | warning
  | hint
deriving DecidableEq

/-- A place in the source that a diagnostic points at, with its line and column. -/
structure Label where
  text : Option String
  start : Nat
  stop : Nat
  line : Nat
  column : Nat
deriving DecidableEq

structure Diagnostic where
  severity : Severity
  text : String
  /-- How to mend it; empty if nothing is known. -/
  hint : String
  labels : List Label
deriving DecidableEq

/-- A problem as a checker of host code reports it: byte spans and no lines. -/
structure HostProblem where
  severity : Severity
  message : String
  help : Option String := none
  labels : List (Option String × Nat × Nat) := []

namespace Text

/-- Line and column reached by passing every character that starts before `offset`. -/
def cursorFrom (offset line column : Nat) : Nat → Text → Nat × Nat
  | _, [] => (line, column)
  | i, c :: cs =>
    if offset ≤ i then (line, column)
    else if c = '\n' then cursorFrom offset (line + 1) 1 (i + c.utf8Size) cs
    else cursorFrom offset line (column + 1) (i + c.utf8Size) cs

/-- Where a cursor stands at a byte offset: line and column, both from 1. -/
def cursor (t : Text) (offset : Nat) : Nat × Nat := cursorFrom offset 1 1 0 t

end Text

/-- A label over the bytes from `start` up to `stop` of a source. -/
def Label.over (text : Option String) (start stop : Nat) (source : Text) : Label :=
  let (line, column) := source.cursor start
  ⟨text, start, stop, line, column⟩

/-- A label never ends before it starts. -/
def Diagnostic.ofHostProblem (source : Text) (p : HostProblem) : Diagnostic where
  severity := p.severity
  text := p.message
  hint := p.help.getD ""
  labels := p.labels.map fun (text, start, stop) => Label.over text start (start + (stop - start)) source

def Diagnostic.ofStyleError (e : StyleError) : Diagnostic where
  severity := .error
  text := e.reason
  hint := ""
  labels := [⟨none, e.position.offset, e.position.offset, e.position.line, e.position.column⟩]

end TaggedStyles
