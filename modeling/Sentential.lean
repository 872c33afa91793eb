import Sentential.Text.Quoted
import Sentential.Text.Alphabet
import Sentential.PrefixMap.Sorted
import Sentential.PrefixMap.Hashed
import Sentential.PrefixMap.Trie
import Sentential.Operator.Dialect
import Sentential.Cursor
import Sentential.Parsed
import Sentential.TruthTable.Enumeration
import Sentential.Session
import Sentential.CommandLine
import Sentential.Main
import Sentential.Proofs.Parsing.Climbing
import Sentential.Proofs.Parsing.Precedence
import Sentential.Proofs.Parsing.Arena
import Sentential.Proofs.Parsing.Grammar
import Sentential.Proofs.Parsing.Faults
import Sentential.Proofs.Parsing.Rereading
import Sentential.Proofs.TruthTable.NormalForms
import Sentential.Proofs.Parsing.Agreement
import Sentential.Proofs.Linked.Safety
import Sentential.Proofs.Linked.Shape
import Sentential.Proofs.Session.Refinement
import Sentential.Proofs.PrefixMap.Searches
import Sentential.Proofs.Linked.Recursion
import Sentential.Proofs.Parsing.Yield
import Sentential.Proofs.Parsing.Polish
import Sentential.Proofs.TruthTable.Refusals
import Sentential.Proofs.TruthTable.Cancellation
import Sentential.Proofs.Operator.History
import Sentential.Proofs.Parsing.Grouping
import Sentential.Proofs.Formula.Regrading
import Sentential.Proofs.Parsing.Regrading
import Sentential.Proofs.Parsing.Operands
import Sentential.Proofs.CommandLine
import Sentential.Proofs.Cursor.Moves
import Sentential.Proofs.TruthTable.Words
