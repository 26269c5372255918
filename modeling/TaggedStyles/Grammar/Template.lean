import TaggedStyles.Grammar.Class

/-! Templates and regular expressions, which are read by their characters. -/
namespace TaggedStyles.Grammar.Rules
set_option autoImplicit false
open Reading

/-- What is behind a place of a template: its texts, the values between them, where it stops, and whether an
escape in it means nothing. -/
structure Tail where
  texts : List Range
  values : List Phrase
  stop : Nat
  flawed : Bool

/-- At most `n` pieces of a template from an offset on. -/
def templatePieces (r : Rules) : Nat → Nat → Text → Reading Tail
  | 0, _, _ => failure
  | n + 1, i, cs => do
    match templatePiece 0 false i cs with
    | none => failure
    | some piece =>
      if piece.hole then
        jump (piece.stop + 2) piece.rest
        let c ← r.values
        ensure (← sees closeBrace)
        let t ← token
        let tail ← templatePieces r n t.stop t.rest
        return ⟨⟨i, piece.stop⟩ :: tail.texts, c :: tail.values, tail.stop, piece.flawed || tail.flawed⟩
      else
        jump (piece.stop + 1) piece.rest
        return ⟨[⟨i, piece.stop⟩], [], piece.stop + 1, piece.flawed⟩

/-- A template with the values in its holes. Only behind a tag all escapes are allowed. -/
def template (r : Rules) (tagged : Bool) : Reading (Host.Template × List Phrase) := do
  ensure (← sees backtick)
  let t ← token
  let tail ← r.templatePieces (← setting).bound t.stop t.rest
  flawIf (tail.flawed && !tagged)
  return (⟨⟨t.start, tail.stop⟩, tail.texts⟩, tail.values)

def regex : Reading Unit := do
  let t ← token
  match regexBody false false (t.start + 1) t.source.tail with
  | none => failure
  | some (i, cs) =>
    let flags := cs.takeWhile isFlag
    flawIf !(areFlags flags)
    jump (i + flags.length) (cs.drop flags.length)

end TaggedStyles.Grammar.Rules
