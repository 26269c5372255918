import TaggedStyles.Token.Scan

/-! Readers: tokens one at a time, with push-back. A reader keeps the words it has met, because an
opening bracket uses up the last of them: right after `url` it opens an address.

`Reader.next` answers a token, the end or a fault together with the reader that goes on.
`Reader.drain` reads to the end or to the first fault. -/
namespace TaggedStyles
set_option autoImplicit false

structure Reader where
  excerpt : Excerpt
  /-- The holes that lie in the text. -/
  holes : List Hole
  /-- Whether open strings, comments and addresses are closed where they stand. -/
  lenient : Bool := false
  /-- Offset of the first character that no token has taken. -/
  position : Nat := 0
  /-- The text from `position` on. -/
  rest : Text
  /-- The words that no opening bracket has used up, latest first. -/
  words : List Text := []
  /-- Tokens pushed back, latest first. -/
  returned : List Token := []
deriving DecidableEq

namespace Reader

/-- A reader at the front of an excerpt. Holes that are reversed or leave the text do not count. -/
def start (excerpt : Excerpt) (holes : List Hole) (lenient : Bool := false) : Reader where
  excerpt := excerpt
  holes := holes.filter (Hole.fits excerpt.text.size)
  lenient := lenient
  rest := excerpt.text

def atEnd (r : Reader) : Bool := r.returned.isEmpty && r.rest.isEmpty

/-- Push a token back, to be read next. -/
def back (r : Reader) (t : Token) : Reader := { r with returned := t :: r.returned }

def isHole (r : Reader) (t : Token) : Bool := t.isHole r.holes

/-- The token that a lexeme found at offset `i` is. -/
def tokenOf (l : Lexeme) (i : Nat) : Token :=
  match l.kind with
  | .space => Token.space l.text
  | .word | .string | .comment | .atWord | .brackets => Token.ranged l.kind l.text i
  | kind => ⟨kind, l.text, some i, none⟩

/-- The reader that goes on behind a lexeme. -/
def advance (r : Reader) (l : Lexeme) : Reader :=
  { r with
    position := r.position + l.text.size
    rest := l.rest
    words := if l.kind = .word then l.text :: r.words else r.words }

/-- Read the next token, with lenient reading for this once if asked for. Even a failed attempt at an
opening bracket uses up a word. -/
def next (r : Reader) (lenient : Bool := false) : Except Fault (Option Token) × Reader :=
  match r.returned with
  | t :: ts => (.ok (some t), { r with returned := ts })
  | [] =>
    let used := if r.rest.head? = some '(' then { r with words := r.words.tail } else r
    match Lexeme.first r.holes (r.lenient || lenient) (r.words.headD []) r.position r.rest with
    | .ok none => (.ok none, r)
    | .ok (some l) => (.ok (some (tokenOf l r.position)), used.advance l)
    | .error (.unclosed cause) => (.error (.style (r.excerpt.error cause r.position)), used)
    | .error (.split offset) => (.error (.splitCharacter offset), used)

/-- Read at most `n` tokens; stop at the end or at the first fault. -/
def take : Nat → Reader → List Token × Option Fault × Reader
  | 0, r => ([], none, r)
  | n + 1, r =>
    match r.next with
    | (.ok (some t), r') =>
      let (ts, fault, last) := take n r'
      (t :: ts, fault, last)
    | (.ok none, r') => ([], none, r')
    | (.error fault, r') => ([], some fault, r')

/-- Read to the end or to the first fault. No token is empty, so there are no more of them than
characters and tokens pushed back. -/
def drain (r : Reader) : List Token × Option Fault × Reader :=
  take (r.returned.length + r.rest.length + 1) r

end Reader
end TaggedStyles
