import Gullet.Text.Alphabetic
import Gullet.Text.Blank
import Gullet.Text.Quoted
import Gullet.Dimen.Unit
import Gullet.CatCode.Table
import Gullet.Token.Writer
import Gullet.Text.Styled
import Gullet.Text.Path
import Gullet.Search
import Gullet.Spelling
import Gullet.Interner
import Gullet.Scope
import Gullet.Lexer
import Gullet.Settings
import Gullet.Object
import Gullet.Command.Vocabulary
import Gullet.Fault
import Gullet.Diagnostic.Rendering
import Gullet.Event
import Gullet.Input
import Gullet.FileSystem
import Gullet.Machine.Loop
import Gullet.Reader.Dimen
import Gullet.Macro.Call
import Gullet.Expansion
import Gullet.Execution.Definition
import Gullet.Execution.Assignment
import Gullet.Execution
import Gullet.Session
import Gullet.Diagnostic.Saved
import Gullet.CommandLine
import Gullet.Check
import Gullet.Main
import Gullet.Proofs.Scope.Layers
import Gullet.Proofs.Scopes.Environments
import Gullet.Proofs.Session.Grouping
import Gullet.Proofs.Session.Ending
import Gullet.Proofs.Lexer.Rereading
import Gullet.Proofs.Unfolding.Meanings
import Gullet.Proofs.Run.Looping
import Gullet.Proofs.Unfolding.Full
import Gullet.Proofs.Stream.Expanding
import Gullet.Proofs.Conditional.Tested
import Gullet.Proofs.Conditional.Number
import Gullet.Proofs.Conditional.Testing
import Gullet.Proofs.Conditional.Skipping
import Gullet.Proofs.Conditional.Evaluation
import Gullet.Proofs.Conditional.Embedding
import Gullet.Proofs.Conditional.Yielding
import Gullet.Proofs.Conditional.Branching
import Gullet.Proofs.Macro.Braces
import Gullet.Proofs.Macro.Text
import Gullet.Proofs.Search.Matching
import Gullet.Proofs.Macro.Calling
import Gullet.Proofs.Dimen.Rereading
import Gullet.Proofs.Stream.Remaining
import Gullet.Proofs.Stream.Confining
import Gullet.Proofs.Stream.Reentering
import Gullet.Proofs.Session.Prefixing
import Gullet.Proofs.Session.LeftOpen
import Gullet.Proofs.Session.Cancelling
import Gullet.Proofs.Stream.Capturing
import Gullet.Proofs.Source.Tracing
import Gullet.Proofs.Lexer.LineEnds
import Gullet.Proofs.Lexer.Stretches
import Gullet.Proofs.Lexer.LineNumbers
import Gullet.Proofs.Lexer.Blanks
import Gullet.Proofs.Number.Constants
import Gullet.Proofs.Dimen.Conversion
import Gullet.Proofs.Dimen.Fractions
import Gullet.Proofs.Registers.Reading
import Gullet.Proofs.Session.Stopping
import Gullet.Proofs.Macro.Collecting
import Gullet.Proofs.Macro.Delimited
import Gullet.Proofs.Macro.Bound
import Gullet.Proofs.Macro.Optional
import Gullet.Proofs.Typesetting.Options
import Gullet.Proofs.Session.Formulas
import Gullet.Proofs.Typesetting.Verbatim
import Gullet.Proofs.Stream.Reordering
import Gullet.Proofs.Diagnostic.Marking
import Gullet.Proofs.Search.Finding
import Gullet.Proofs.Interner.Interning
import Gullet.Proofs.Spelling.Suggesting
