import TaggedStyles.Excerpt

/-! Errors in a style text: what went wrong, where it stands in the full source, and the wording. -/
namespace TaggedStyles
set_option autoImplicit false

inductive Cause where
  | unclosedString
  | unclosedComment
  | unclosedBracket
  | unclosedBlock
  | unexpectedClose
  | unknownWord (word : Text)
  | missedSemicolon
  | doubleColon
  | unnamedAtRule
deriving DecidableEq

def Cause.reason : Cause → String
  | unclosedString => "Unclosed string"
  | unclosedComment => "Unclosed comment"
  | unclosedBracket => "Unclosed bracket"
  | unclosedBlock => "Unclosed block"
  | unexpectedClose => "Unexpected \x7d"
  | unknownWord word => "Unknown word " ++ String.ofList word
  | missedSemicolon => "Missed semicolon"
  | doubleColon => "Double colon"
  | unnamedAtRule => "At-rule without name"

structure StyleError where
  cause : Cause
  position : Position
  file : Option String := none
deriving DecidableEq

def StyleError.reason (e : StyleError) : String := e.cause.reason

/-- The file, the line, the column and the reason. -/
def StyleError.message (e : StyleError) : String :=
  e.file.getD "<css input>" ++ ":" ++ toString e.position.line ++ ":" ++ toString e.position.column
    ++ ": " ++ e.reason

/-- An error at an offset into the excerpt. -/
def Excerpt.error (e : Excerpt) (cause : Cause) (offset : Nat) : StyleError :=
  ⟨cause, e.position offset, e.file⟩

/-- Why reading stops: the style text is wrong, or a hole ends inside the character at an offset, so
that no token can end with it. -/
inductive Fault where
  | style (error : StyleError)
  | splitCharacter (offset : Nat)
deriving DecidableEq

end TaggedStyles
