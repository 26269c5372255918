import TaggedStyles.Text.Basic

/-! Dialects of host code, chosen by the name of the file. -/
namespace TaggedStyles.Grammar
set_option autoImplicit false

/-- What host code may hold: type annotations, elements written as markup, and constants that are only
declared. A script is no module, so `await` is a name in it. -/
structure Dialect where
  typed : Bool
  markup : Bool
  script : Bool := false
  ambient : Bool := false
deriving DecidableEq

namespace Dialect

def standard : Dialect := { typed := true, markup := false }

def ofExtension? (ext : Text) : Option Dialect :=
  if ["ts".toList, "mts".toList].contains ext then some standard
  else if ext = "cts".toList then some { standard with script := true }
  else if ext = "tsx".toList then some { typed := true, markup := true }
  else if ["js".toList, "mjs".toList].contains ext then some { typed := false, markup := false }
  else if ext = "cjs".toList then some { typed := false, markup := false, script := true }
  else if ext = "jsx".toList then some { typed := false, markup := true }
  else none

/-! ## File names -/

/-- The parts of a text between marks. -/
def partsBetween (mark : Char) : Text → List Text
  | [] => [[]]
  | c :: cs =>
    if c == mark then [] :: partsBetween mark cs
    else
      match partsBetween mark cs with
      | [] => [[c]]
      | part :: parts => (c :: part) :: parts

/-- The last part of a path that is not empty and not a dot, unless it leads back up. -/
def fileName? (path : Text) : Option Text :=
  match ((partsBetween '/' path).filter fun part => !part.isEmpty && part != ['.']).getLast? with
  | some name => if name == ['.', '.'] then none else some name
  | none => none

/-- A file name cut at its last dot. A dot in front of the whole name does not count. -/
def stemAndExtension? (name : Text) : Option (Text × Text) :=
  let ext := Text.afterLast '.' name
  let stem := name.take (name.length - (ext.length + 1))
  if stem.isEmpty then none else some (stem, ext)

/-- Whether a file only declares what is written elsewhere: the extension in front of the last one is
`d`, and in front of `ts` also the one before that. -/
def declares (stem ext : Text) : Bool :=
  if ext = "ts".toList then ((partsBetween '.' stem).reverse.take 2).contains ['d']
  else if ["mts".toList, "cts".toList].contains ext then
    (stemAndExtension? stem).any fun cut => cut.2 == ['d']
  else false

/-- The dialect of a file, if its extension is one of those known. -/
def ofPath? (path : String) : Option Dialect := do
  let name ← fileName? path.toList
  let (stem, ext) ← stemAndExtension? name
  let dialect ← ofExtension? ext
  return { dialect with ambient := declares stem ext }

end Dialect
end TaggedStyles.Grammar
