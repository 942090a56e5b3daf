import AlloyLexical.Declaration
import AlloyLexical.Filter
import AlloyLexical.Source.Counted
import AlloyLexical.Source.Interrupted
import AlloyLexical.Proofs.Declaration.Duplicates
import AlloyLexical.Proofs.Declaration.Outcome
import AlloyLexical.Proofs.Layer.Delivery
import AlloyLexical.Proofs.Layer.Lookahead
import AlloyLexical.Proofs.Layer.Rewriting
import AlloyLexical.Proofs.Layer.Course
import AlloyLexical.Proofs.Layer.Buffers
import AlloyLexical.Proofs.Layer.Ending
import AlloyLexical.Proofs.Layer.Failure
import AlloyLexical.Proofs.Layer.Placement
import AlloyLexical.Proofs.Layer.Runs
import AlloyLexical.Proofs.Layer.Greedy
import AlloyLexical.Proofs.Layer.Pattern
import AlloyLexical.Proofs.Layer.Deciding
import AlloyLexical.Proofs.Layer.Blocks
import AlloyLexical.Proofs.Layer.Neighbours
import AlloyLexical.Proofs.Layer.Idle
import AlloyLexical.Proofs.Filter.Staging
import AlloyLexical.Proofs.Filter.Text
import AlloyLexical.Proofs.Filter.Barriers
import AlloyLexical.Proofs.Filter.Conservation
import AlloyLexical.Proofs.Filter.Heads
import AlloyLexical.Proofs.Filter.Inert
import AlloyLexical.Proofs.Filter.Meanings
import AlloyLexical.Proofs.Filter.Names
import AlloyLexical.Proofs.Filter.Numbers
import AlloyLexical.Proofs.Filter.Origin
import AlloyLexical.Proofs.Filter.Payloads
import AlloyLexical.Proofs.Filter.Readings
import AlloyLexical.Proofs.Lexeme.Grammar
import AlloyLexical.Proofs.Lexeme.Spelling
import AlloyLexical.Proofs.Scanner.Lines
import AlloyLexical.Proofs.Scanner.Literals
import AlloyLexical.Proofs.Scanner.Segments
import AlloyLexical.Proofs.Scanner.Faults
import AlloyLexical.Proofs.Cursor.Progress
import AlloyLexical.Proofs.Cursor.Counters
import AlloyLexical.Proofs.Scanner.Respelling
import AlloyLexical.Proofs.Scanner.Layout
import AlloyLexical.Proofs.Scanner.LongestMatch
