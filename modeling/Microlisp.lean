import Microlisp.Reading.Literal
import Microlisp.Numbers
import Microlisp.Equality
import Microlisp.Balance.TailCalls
import Microlisp.RoundTrip
import Microlisp.Binding
import Microlisp.Reading.Truncated
import Microlisp.Reading.Depth
import Microlisp.Repl
import Microlisp.Limits
import Microlisp.Session
import Microlisp.Abort
import Microlisp.Refinement
import Microlisp.Expansions
import Microlisp.PrintBuffer
import Microlisp.Progress
import Microlisp.Positions
import Microlisp.Symbols
import Microlisp.CommandLine
import Microlisp.LetStar
import Microlisp.Pieces
import Microlisp.Output
import Microlisp.Books
import Microlisp.Derived
import Microlisp.Language.Answers
