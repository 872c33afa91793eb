import Sentential.Parsed
import Sentential.TruthTable.Basic

namespace Sentential

/-- The most columns of a table, so that a row count fits a machine word. -/
def maxColumns : Nat := 31

/-- Why there is no table. -/
inductive TableError where
  | tooManyPropositions (count : Nat)
  | foreignSymbol (name : String)
  | duplicateProposition (name : String)
  | cancelled (rows : Nat)
  deriving DecidableEq, Repr

/-- The wording of the error. -/
def TableError.message : TableError → String
  | tooManyPropositions count =>
    toString count ++ " propositions exceed the limit of " ++ toString maxColumns
  | foreignSymbol name => "proposition " ++ Text.quoteString name ++ " doesn't belong to this formula"
  | duplicateProposition name => "proposition " ++ Text.quoteString name ++ " is listed more than once"
  | cancelled rows => "enumeration cancelled after " ++ toString rows ++ " rows"

namespace Valuation

/-- Gives the names the bits of a row index, the least significant bit to the last name. -/
def setRow (v : Valuation) (names : List String) (index : UInt32) : Valuation :=
  (names.reverse.foldl (fun (v, index) name => (v.set name (index &&& 1 == 1), index >>> 1))
    (v, index)).1

end Valuation

namespace Parsed

/-- The first fault of a list of columns that is not too long. A column has to be a symbol of the
    formula, and no leaf may be listed twice. `seen` holds the leaves listed before. -/
def columnFault? (p : Parsed) (seen : List NodeId) : List Symbol → Option TableError
  | [] => none
  | s :: rest =>
    if p.atom? s.id ≠ some s.name then some (.foreignSymbol s.name)
    else if s.id ∈ seen then some (.duplicateProposition s.name)
    else p.columnFault? (s.id :: seen) rest

/-- Why a list of columns is refused. -/
def refusal? (p : Parsed) (columns : List Symbol) : Option TableError :=
  if maxColumns < columns.length then some (.tooManyPropositions columns.length)
  else p.columnFault? [] columns

/-- Metered connectives cost one unit, all others nothing. -/
def meter (_ : NodeId) (c : Connective) : Nat :=
  if c.rule = .metered then 1 else 0

/-- What stays the same during an enumeration: the columns, the order of the visits, the number of
    rows, the number of units after which no further row is visited, and the valuation of the atoms
    that are no column. -/
structure Survey where
  names : List String
  direction : Direction
  rows : UInt32
  limit : Option Nat
  base : Valuation

/-- The valuation of the row that is visited at a position. -/
def Survey.valuation (survey : Survey) (position : UInt32) : Valuation :=
  survey.base.setRow survey.names (survey.direction.index position survey.rows)

/-- Whether so many units are too many to visit another row. -/
def Survey.isSpent (survey : Survey) (spent : Nat) : Bool :=
  survey.limit.any (· ≤ spent)

/-- Visits the rows from a position on. `spent` counts the units used and `values` holds the values
    found so far. The last argument is the valuation that is left if no further row is visited. -/
def visit (p : Parsed) (survey : Survey) :
    (remaining : Nat) → (position : UInt32) → (spent : Nat) → (values : Array Bool) → Valuation →
      Except TableError (Array Bool) × Valuation
  | 0, _, _, values, v => (.ok values, v)
  | remaining + 1, position, spent, values, v =>
    if survey.isSpent spent then (.error (.cancelled values.size), v)
    else
      let v := survey.valuation position
      let (value, cost) := p.formula.measure meter v
      p.visit survey remaining (position + 1) (spent + cost) (values.push value) v

/-- Evaluates the formula under every assignment of the columns. Atoms that are no column keep their
    value. The answer comes with the valuation that is left: that of the last row visited. -/
def enumerate (p : Parsed) (columns : List Symbol) (direction : Direction) (limit : Option Nat)
    (v : Valuation) : Except TableError TruthTable × Valuation :=
  match p.refusal? columns with
  | some e => (.error e, v)
  | none =>
    let names := columns.map Symbol.name
    let rows : UInt32 := 1 <<< columns.length.toUInt32
    let (result, v) := p.visit ⟨names, direction, rows, limit, v⟩ rows.toNat 0 0 #[] v
    (result.map fun values => ⟨names, p.formula.render .algebraic, direction, values⟩, v)

end Parsed

end Sentential
