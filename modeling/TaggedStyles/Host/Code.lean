import TaggedStyles.Document.Fragment

/-! Host code as a tree. Only those forms are told apart that decide where style texts are; all else is a form
with parts, in the order in which they are visited. -/
namespace TaggedStyles.Host
set_option autoImplicit false

/-- The places of a template in its source: from backtick to backtick, and those of the texts around its holes. -/
structure Template where
  span : Range
  texts : List Range
deriving DecidableEq

namespace Template

/-- The offset behind the opening backtick. -/
def start (t : Template) : Nat := t.span.start + 1

/-- The offset of the closing backtick. -/
def stop (t : Template) : Nat := max (t.span.stop - 1) t.start

/-- What is left out between two texts, from the dollar sign to behind the brace. -/
def holes (t : Template) : List Range := t.texts.zipWith (fun a b => ⟨a.stop, b.start⟩) t.texts.tail

end Template

inductive Code where
  | name (ident : Text)
  | member (object : Code)
  | call (callee : Code) (types args : List Code)
  | template (template : Template) (values : List Code)
  /-- A template with the code in front of it that gives it its meaning. -/
  | tagged (tag : Code) (types : List Code) (template : Template) (values : List Code)
  /-- An arrow function whose body is one expression. -/
  | arrow (params : List Code) (value : Code)
  | other (parts : List Code)

/-- What reads host code: the dialect that the name of a file stands for, the one for all other files, and the code
of a source, or nothing if an error is found in it. -/
structure Parser where
  Dialect : Type
  ofPath? : String → Option Dialect
  standard : Dialect
  parse? : Text → Dialect → Option (List Code)

namespace Parser

def dialect (p : Parser) (file : Option String) : p.Dialect := (file.bind p.ofPath?).getD p.standard

/-- The code of a source in the dialect of its file. -/
def code? (p : Parser) (source : Text) (file : Option String) : Option (List Code) :=
  p.parse? source (p.dialect file)

end Parser
end TaggedStyles.Host
