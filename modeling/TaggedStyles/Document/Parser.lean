import TaggedStyles.Document.Basic
import TaggedStyles.Host.Locate

/-! From host code to a document. Code that is wrong holds no style texts, and its document prints as the
code does. -/
namespace TaggedStyles
set_option autoImplicit false

/-- Parse the style texts of a host source; the name of the file chooses the dialect of its code. -/
def Document.parse (p : Host.Parser) (source : Text) (file : Option String) : Except Fault Document :=
  Document.assemble source ((Host.locate? p source file).getD []) file

end TaggedStyles
