import LineBasic.Text.Excerpt
import LineBasic.Text.Quoted
import LineBasic.Ascending
import LineBasic.Number.Binary64
import LineBasic.Tree.Node
import LineBasic.Tree.Outline
import LineBasic.Grammar.Statement
import LineBasic.Program.Source
import LineBasic.Program.Outline
import LineBasic.Session
import LineBasic.Grammar.Reading
import LineBasic.Proofs.Reading
import LineBasic.Proofs.Lexemes
import LineBasic.Proofs.Recursion
import LineBasic.Proofs.Spelling
import LineBasic.Proofs.Arithmetic
import LineBasic.Proofs.Lines
import LineBasic.Proofs.Alike
import LineBasic.Proofs.Plain
import LineBasic.Proofs.Decimal
import LineBasic.Proofs.WellFormed
import LineBasic.Proofs.Strings
import LineBasic.Proofs.Rendering
import LineBasic.Proofs.RoundTrip
import LineBasic.Proofs.Spans
import LineBasic.Proofs.Composed
import LineBasic.Proofs.Traversal
import LineBasic.Proofs.Chaining
import LineBasic.Proofs.Phrases
import LineBasic.Proofs.Recognition
import LineBasic.Proofs.Layout
import LineBasic.Proofs.Rearrangement
import LineBasic.Proofs.Ascending
import LineBasic.Proofs.Bookkeeping
import LineBasic.Proofs.Lookahead
import LineBasic.Proofs.Whole
import LineBasic.Proofs.Connectives
import LineBasic.Proofs.Reach
import LineBasic.Proofs.Cutting
import LineBasic.Proofs.Counting
import LineBasic.Proofs.Keeping
import LineBasic.Proofs.Expected
import LineBasic.Proofs.Fragments
import LineBasic.Proofs.Prompting
import LineBasic.Proofs.Table
import LineBasic.Proofs.Sorting
import LineBasic.Proofs.Walking
import LineBasic.Proofs.Exclusion
import LineBasic.Proofs.Respacing
import LineBasic.Proofs.Causes
import LineBasic.Proofs.Rounding
import LineBasic.Proofs.Preorder
import LineBasic.Proofs.JumpTargets
import LineBasic.Proofs.Positions
import LineBasic.Proofs.PlainData
import LineBasic.Proofs.Equations
import LineBasic.Proofs.Progress
