import TaggedStyles.Excerpt
import TaggedStyles.Host.Code

/-! Locating style texts in host code. A template holds styles if its tag is one of a few shapes made of
the names `styled`, `css` and `createGlobalStyle`, or if an arrow function that returns it is given to
`styled`. Code is walked from the outside in, so a template comes before all that stands in it, and
also before what stands in its tag. -/
namespace TaggedStyles.Host
set_option autoImplicit false

namespace Code

def isStyled : Code → Bool
  | name ident => ident == "styled".toList
  | _ => false

/-- A member of `styled`, or a call of it: what makes a component. -/
def isFactory : Code → Bool
  | member object => object.isStyled
  | call callee _ _ => callee.isStyled
  | _ => false

def tagsStyles : Code → Bool
  | member object => object.isStyled
  | call callee _ _ =>
    callee.isStyled ||
      match callee with
      | member object => object.isFactory
      | _ => false
  | name ident => ident == "css".toList || ident == "createGlobalStyle".toList
  | _ => false

/-- The template that an arrow function returns when it is the first thing given to a factory. -/
def returnedStyles? : Code → List Code → Option Template
  | callee, arrow _ (template t _) :: _ => if callee.isFactory then some t else none
  | _, _ => none

mutual

/-- The templates in some code that hold styles, in the order of the walk. -/
def styles : Code → List Template
  | name _ => []
  | member object => object.styles
  | call callee types args =>
    (returnedStyles? callee args).toList ++ callee.styles ++ stylesIn types ++ stylesIn args
  | template _ values => stylesIn values
  | tagged tag types t values =>
    (if tag.tagsStyles then [t] else []) ++ tag.styles ++ stylesIn types ++ stylesIn values
  | arrow params value => stylesIn params ++ value.styles
  | other parts => stylesIn parts

def stylesIn : List Code → List Template
  | [] => []
  | c :: cs => c.styles ++ stylesIn cs

end

end Code

def Template.fragment (source : Text) (t : Template) : Fragment where
  text := (source.slice? t.start t.stop).getD []
  rangeStart := t.start
  rangeEnd := t.stop
  holes := t.holes
  location := ({ text := source } : Excerpt).position t.start

/-- All style texts in a source, or nothing if its code is wrong. -/
def locate? (p : Parser) (source : Text) (file : Option String) : Option (List Fragment) :=
  (p.code? source file).map fun code => (Code.stylesIn code).map (Template.fragment source)

end TaggedStyles.Host
