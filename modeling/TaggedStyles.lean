import TaggedStyles.Diagnostic
import TaggedStyles.Document.Basic
import TaggedStyles.Document.Edit
import TaggedStyles.Document.Fragment
import TaggedStyles.Document.Parser
import TaggedStyles.Error
import TaggedStyles.Excerpt
import TaggedStyles.Grammar.Access
import TaggedStyles.Grammar.Binding
import TaggedStyles.Grammar.Class
import TaggedStyles.Grammar.Cursor
import TaggedStyles.Grammar.Declarations
import TaggedStyles.Grammar.Dialect
import TaggedStyles.Grammar.Expressions
import TaggedStyles.Grammar.Function
import TaggedStyles.Grammar.Generic
import TaggedStyles.Grammar.Identifier
import TaggedStyles.Grammar.Lexeme
import TaggedStyles.Grammar.Markup
import TaggedStyles.Grammar.Modifier
import TaggedStyles.Grammar.Module
import TaggedStyles.Grammar.Object
import TaggedStyles.Grammar.Phrase
import TaggedStyles.Grammar.Program
import TaggedStyles.Grammar.Rules
import TaggedStyles.Grammar.Statements
import TaggedStyles.Grammar.Template
import TaggedStyles.Grammar.Token
import TaggedStyles.Grammar.Types
import TaggedStyles.Host.Code
import TaggedStyles.Host.Locate
import TaggedStyles.Position
import TaggedStyles.Printer.Basic
import TaggedStyles.Printer.Separator
import TaggedStyles.Printer.Splice
import TaggedStyles.Proofs.Document.Append
import TaggedStyles.Proofs.Document.Assembly
import TaggedStyles.Proofs.Document.EditReach
import TaggedStyles.Proofs.Document.Inferred
import TaggedStyles.Proofs.Document.Inner
import TaggedStyles.Proofs.Document.NestedEdit
import TaggedStyles.Proofs.Document.Nesting
import TaggedStyles.Proofs.Document.RawEdit
import TaggedStyles.Proofs.Document.Rendering
import TaggedStyles.Proofs.Document.Rewording
import TaggedStyles.Proofs.Document.RoundTrip
import TaggedStyles.Proofs.Host.Order
import TaggedStyles.Proofs.Host.Spans
import TaggedStyles.Proofs.Printer.Exchange
import TaggedStyles.Proofs.Printer.Filled
import TaggedStyles.Proofs.Printer.Lookup
import TaggedStyles.Proofs.Printer.Pieces
import TaggedStyles.Proofs.Printer.Replacement
import TaggedStyles.Proofs.Printer.Splice
import TaggedStyles.Proofs.Sorted
import TaggedStyles.Proofs.Text.Lines
import TaggedStyles.Proofs.Text.Place
import TaggedStyles.Proofs.Text.Slice
import TaggedStyles.Proofs.Token.Astray
import TaggedStyles.Proofs.Token.Atoms
import TaggedStyles.Proofs.Token.Boundary
import TaggedStyles.Proofs.Token.Bytes
import TaggedStyles.Proofs.Token.Fresh
import TaggedStyles.Proofs.Token.Holes
import TaggedStyles.Proofs.Token.Lenient
import TaggedStyles.Proofs.Token.Lexeme
import TaggedStyles.Proofs.Token.Lossless
import TaggedStyles.Proofs.Token.Opaque
import TaggedStyles.Proofs.Token.OpaqueRun
import TaggedStyles.Proofs.Token.Outline
import TaggedStyles.Proofs.Token.PushBack
import TaggedStyles.Proofs.Token.Refill
import TaggedStyles.Proofs.Token.Retry
import TaggedStyles.Proofs.Token.Tiling
import TaggedStyles.Proofs.Tree.Brackets
import TaggedStyles.Proofs.Tree.Builder
import TaggedStyles.Proofs.Tree.Descendants
import TaggedStyles.Proofs.Tree.Explicit
import TaggedStyles.Proofs.Tree.Filler
import TaggedStyles.Proofs.Tree.Formatting
import TaggedStyles.Proofs.Tree.Layout
import TaggedStyles.Proofs.Tree.Loop
import TaggedStyles.Proofs.Tree.Moves
import TaggedStyles.Proofs.Tree.Parser
import TaggedStyles.Proofs.Tree.Places
import TaggedStyles.Proofs.Tree.PlacesTree
import TaggedStyles.Proofs.Tree.Raws
import TaggedStyles.Proofs.Tree.RefillRun
import TaggedStyles.Proofs.Tree.RefillTree
import TaggedStyles.Proofs.Tree.Run
import TaggedStyles.Proofs.Tree.Scan
import TaggedStyles.Proofs.Tree.Slices
import TaggedStyles.Proofs.Tree.Spans
import TaggedStyles.Proofs.Tree.Walk
import TaggedStyles.Sorted
import TaggedStyles.Text.Basic
import TaggedStyles.Text.Blank
import TaggedStyles.Token.Basic
import TaggedStyles.Token.Reader
import TaggedStyles.Token.Scan
import TaggedStyles.Tree.Basic
import TaggedStyles.Tree.Builder
import TaggedStyles.Tree.Parser
import TaggedStyles.Tree.Run
import TaggedStyles.Tree.Walk
