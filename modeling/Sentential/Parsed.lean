import Sentential.Formula.Evaluation
import Sentential.Formula.Rendering
import Sentential.Parsing.State
import Sentential.SymbolTable

namespace Sentential

/-- A formula that was read from a text, with its nodes and its symbols at hand. -/
structure Parsed where
  formula : Formula NodeId
  nodes : Array Node
  symbols : SymbolTable
  nodes_eq : nodes = formula.nodes
  symbols_eq : symbols = SymbolTable.ofNodes nodes

namespace Parsed

/-- The formula with its nodes in an array and its symbols in a table. -/
def ofFormula (f : Formula NodeId) : Parsed :=
  ⟨f, f.nodes, SymbolTable.ofNodes f.nodes, rfl, rfl⟩

/-- The number of the outermost node. -/
def root (p : Parsed) : NodeId :=
  p.formula.label

/-- The atom whose leaf has this number. -/
def atom? (p : Parsed) (id : NodeId) : Option String := do
  match ← (← p.nodes[id]?).proposition? with
  | .constant _ => none
  | .atom name => some name

end Parsed

/-- Reads a formula in some dialect. -/
def parseWith {M : Type → Type} [PrefixMap M] (d : Dialect M) (text : List Char) :
    Except SyntaxError Parsed :=
  ((ParseState.start text).run d).map Parsed.ofFormula

/-- Reads a formula in the standard dialect. -/
def parse (text : List Char) : Except SyntaxError Parsed :=
  parseWith Dialect.standard text

end Sentential
