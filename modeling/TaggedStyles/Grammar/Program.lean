import TaggedStyles.Grammar.Statements
import TaggedStyles.Host.Locate

/-! Whole programs of host code: the rules tied together, with a bound on how deep they nest that no
program reaches. `parser` reads the part of the language that host files are mostly written in. -/
namespace TaggedStyles.Grammar
set_option autoImplicit false

namespace Rules
open Reading

def rule (r : Rules) : Goal → Reading Phrase
  | .statement alone => r.statement alone
  | .expression => r.expression
  | .assignment results => r.assignment results
  | .operation level => r.operation level
  | .unary => r.unary
  | .access => r.access
  | .maker => r.maker
  | .type => r.type
  | .binding => r.binding
  | .element inside => r.element inside

/-- Read a goal with rules that nest at most `n` deep. -/
def readWithin : Nat → Goal → Reading Phrase
  | 0, _ => failure
  | n + 1, goal => rule ⟨readWithin n⟩ goal

/-- All statements up to the end of the text. -/
def program (r : Rules) : Reading (List Phrase) := do
  let statements ← repeated do
    if (← sign) == .ending then return none else return some (← r.read (.statement false))
  ensure ((← sign) == .ending)
  return statements

end Rules

/-- The first token of a program. A first line that says how to run it is passed over. -/
def start (script : Bool) (source : Text) : Token × Bool :=
  let note := if "#!".toList.isPrefixOf source then source.takeWhile (!isLineEnd ·) else []
  Token.next script true (Text.size note) (source.drop note.length)

/-- The code of a source, or nothing if it is wrong. Each level of nesting takes a token, and few rules
lead from one level to the next. A program without types exports each name once. -/
def parse? (source : Text) (dialect : Dialect) : Option (List Phrase) :=
  let setting : Setting := {
    dialect
    bound := source.length + 2
    awaits := !dialect.script
    ambient := dialect.ambient }
  let (token, flawed) := start dialect.script source
  let rules : Rules := ⟨Rules.readWithin (12 * source.length + 12)⟩
  match rules.program setting { token, flawed } with
  | (some code, c) =>
    if c.flawed || !c.shorthands.isEmpty || !(dialect.typed || decide c.exports.Nodup) then none else some code
  | (none, _) => none

/-- A parser for the locator. -/
def parser : Host.Parser where
  Dialect := Dialect
  ofPath? := Dialect.ofPath?
  standard := .standard
  parse? source dialect := (parse? source dialect).map Phrase.codes

/-! ## Examples -/

example : (Host.locate? parser "styled(css\x60a\x60)\x60b\x60;".toList none).map (·.map (·.rangeStart)) =
    some [15, 11] := by decide +kernel

example : (Host.locate? parser "styled.a(p => \x60b\x60);".toList none).map (·.map (·.rangeStart)) =
    some [15] := by decide +kernel

example : (Host.locate? parser "a?.css\x60b\x60;".toList none).isNone = true := by decide +kernel

end TaggedStyles.Grammar
