import CaptureAutomata.Graph.Search
import CaptureAutomata.Drawing
import CaptureAutomata.Lexer.Token
import CaptureAutomata.Nfa.Run
import CaptureAutomata.Pattern.Grammar
import CaptureAutomata.Pattern.Language
import CaptureAutomata.Pattern.Transcript
import CaptureAutomata.Proofs.Nfa.Determinization
import CaptureAutomata.Proofs.Nfa.Build
import CaptureAutomata.Proofs.Pattern.Threaded
import CaptureAutomata.Proofs.Pattern.Growth
import CaptureAutomata.Proofs.Pattern.Links
import CaptureAutomata.Proofs.Pattern.Ways
import CaptureAutomata.Proofs.Pattern.WellFormed
import CaptureAutomata.Proofs.Pattern.Acceptance
import CaptureAutomata.Proofs.Dfa.Tags
import CaptureAutomata.Proofs.Dfa.Spans
import CaptureAutomata.Proofs.Dfa.Runs
import CaptureAutomata.Proofs.Regex.Attempt
import CaptureAutomata.Proofs.Regex.Report
import CaptureAutomata.Proofs.Regex.Substring
import CaptureAutomata.Proofs.Pattern.Sites
import CaptureAutomata.Proofs.Regex.Iterations
import CaptureAutomata.Proofs.Regex.Search
import CaptureAutomata.Proofs.Regex.Scanning
import CaptureAutomata.Proofs.Pattern.Reading
import CaptureAutomata.Pattern.Layout
import CaptureAutomata.Proofs.Pattern.Layout
import CaptureAutomata.Proofs.Pattern.Classes
import CaptureAutomata.Proofs.Pattern.Enclosing
import CaptureAutomata.Proofs.Regex.Escaping
import CaptureAutomata.Proofs.Pattern.SideBySide
import CaptureAutomata.Proofs.Lexer.Composition
import CaptureAutomata.Proofs.Lexer.Ambiguity
import CaptureAutomata.Proofs.Lexer.Attribution
import CaptureAutomata.Proofs.Lexer.Munch
import CaptureAutomata.Proofs.Regex.Order
import CaptureAutomata.Proofs.Regex.Sentinel
import CaptureAutomata.Proofs.Regex.Splitting
import CaptureAutomata.Proofs.Lexer.Keywords
import CaptureAutomata.Iterator
import CaptureAutomata.Lexer.Stream
import CaptureAutomata.Proofs.Dfa.ChangePoints
import CaptureAutomata.Proofs.Lexer.Claimants
import CaptureAutomata.Proofs.Lexer.Stream
import CaptureAutomata.Proofs.Pattern.SeparateLoops
import CaptureAutomata.Proofs.Regex.Boundaries
import CaptureAutomata.Proofs.Regex.Lockstep
import CaptureAutomata.Proofs.Pattern.Moving
import CaptureAutomata.Proofs.Regex.Wrapping
import CaptureAutomata.Proofs.Regex.Commuting
import CaptureAutomata.Proofs.Regex.Verbatim
import CaptureAutomata.Proofs.Pattern.Mistakes
import CaptureAutomata.Pattern.Parentheses
import CaptureAutomata.Proofs.Pattern.Numbering
import CaptureAutomata.Graph.Labelled
import CaptureAutomata.Graph.Steps
import CaptureAutomata.Proofs.Graph.Edges
import CaptureAutomata.Proofs.Graph.Closure
import CaptureAutomata.Proofs.Nfa.Worklist
import CaptureAutomata.Proofs.Graph.Forest
import CaptureAutomata.Proofs.Graph.Repeats
import CaptureAutomata.Graph.Calls
import CaptureAutomata.Proofs.Graph.Building
import CaptureAutomata.Proofs.Graph.Rebuilding
import CaptureAutomata.Proofs.Text.Quoting
import CaptureAutomata.Proofs.Drawing.Lines
import CaptureAutomata.Proofs.Drawing.Nfa
import CaptureAutomata.Calls
import CaptureAutomata.Proofs.UndefinedTags
import CaptureAutomata.Proofs.Regex.MainGroup
import CaptureAutomata.Pattern.Calls
import CaptureAutomata.Proofs.Pattern.InOrder
import CaptureAutomata.Drawing.Reading
import CaptureAutomata.Proofs.Drawing.Reading
import CaptureAutomata.Proofs.Drawing.Dfa
