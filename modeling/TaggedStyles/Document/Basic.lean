import TaggedStyles.Document.Fragment
import TaggedStyles.Tree.Parser
import TaggedStyles.Printer.Basic

/-! Documents: all style texts of a host source, parsed. A fragment on its own is a component and owns
the code between the component before it and itself, the last one also the code behind it. A fragment
in a hole of another keeps the text that is written there, by which it is found again on printing. -/
namespace TaggedStyles
set_option autoImplicit false

structure Document where
  roots : List Root
  source : Text

/-! ## Assembly -/

namespace Fragment

def parse (f : Fragment) (file : Option String) (role : Role) : Except Fault Root :=
  Root.parse ⟨f.text, f.location, file⟩ f.localHoles role

/-- The parts of some fragments, `previous` being the end of the component before them. Fragments come in
source order; `all` are those that decide about nesting. -/
def roles (source : Text) (all : List Fragment) (previous : Nat) : List Fragment → List Role
  | [] => []
  | f :: fs =>
    if f.isComponentAmong all then
      let codeAfter :=
        if fs.any (isComponentAmong all) then none else some ((source.suffix? f.rangeEnd).getD [])
      .component ((source.slice? previous f.rangeStart).getD []) codeAfter
        :: roles source all f.rangeEnd fs
    else .nested f.text :: roles source all previous fs

end Fragment

/-- Parse the fragments of a source, in their order. The first fault counts. -/
def Document.assemble (source : Text) (fragments : List Fragment) (file : Option String) :
    Except Fault Document := do
  let roles := Fragment.roles source fragments 0 fragments
  let roots ← (fragments.zip roles).mapM fun (f, role) => f.parse file role
  return ⟨roots, source⟩

def Document.components (d : Document) : List Root := d.roots.filter Root.isComponent

/-! ## Printing -/

namespace Rendered

/-- A nested root as it is printed with those rendered before. -/
def ofRoot (done : List Rendered) (r : Root) : Rendered :=
  ⟨r.rangeStart, r.rangeEnd, r.print done, r.written?.getD []⟩

/-- Shorter roots first: a fragment is shorter than any around it. -/
def lengthLe (a b : Root) : Bool := a.rangeEnd - a.rangeStart ≤ b.rangeEnd - b.rangeStart

/-- Render the nested roots among some, innermost first. -/
def ofRoots (roots : List Root) : List Rendered :=
  (sorted lengthLe (roots.filter (!·.isComponent))).foldl (fun done r => done ++ [ofRoot done r]) []

end Rendered

/-- The host source with every edit of the trees in it. -/
def Document.print (d : Document) : Text :=
  if d.roots.isEmpty then d.source
  else d.components.flatMap (Root.print (Rendered.ofRoots d.roots))

end TaggedStyles
