import Sentential.TruthTable.Direction

namespace Sentential

/-- One row of a truth table. Its index, read as a binary number, gives the values of the columns,
    the most significant bit that of the first one. -/
structure Row where
  index : UInt32
  width : Nat
  value : Bool
  deriving DecidableEq, Repr

namespace Row

/-- The value of a column. -/
def bit (row : Row) (column : Nat) : Bool :=
  (row.index >>> (row.width - 1 - column).toUInt32) &&& 1 == 1

/-- The values of all columns. -/
def bits (row : Row) : List Bool :=
  (List.range row.width).map row.bit

/-- The value of a column if there is one. -/
def assignment? (row : Row) (column : Nat) : Option Bool :=
  if column < row.width then some (row.bit column) else none

end Row

/-- The values of a formula under every assignment of its columns, in the order of the visits. -/
structure TruthTable where
  names : List String
  formula : String
  direction : Direction
  values : Array Bool
  deriving DecidableEq, Repr

namespace TruthTable

/-- The number of rows that were visited. -/
def rowCount (t : TruthTable) : UInt32 :=
  t.values.size.toUInt32

/-- The rows in the order of the visits. -/
def rows (t : TruthTable) : List Row :=
  t.values.toList.zipIdx.map fun (value, position) =>
    ⟨t.direction.index position.toUInt32 t.rowCount, t.names.length, value⟩

/-- The minterms of the principal disjunctive normal form, ascending: the indices of the rows in
    which the formula is true. -/
def minterms (t : TruthTable) : List UInt32 :=
  let visited := (t.rows.filter (·.value)).map Row.index
  match t.direction with
  | .ascending => visited
  | .descending => visited.reverse

/-- The maxterms of the principal conjunctive normal form, ascending: the indices of the rows in
    which the formula is false, counted from the last row. -/
def maxterms (t : TruthTable) : List UInt32 :=
  let visited := (t.rows.filter (!·.value)).map fun row => t.rowCount - 1 - row.index
  match t.direction with
  | .ascending => visited.reverse
  | .descending => visited

/-- How a table is written: the words for truth and falsity, what follows a cell, and what follows a
    line. -/
structure Layout where
  whenTrue : String
  whenFalse : String
  afterCell : String
  afterLine : String

/-- One word per cell, cells in columns, a line per row. -/
def Layout.plain : Layout :=
  ⟨"T", "F", "\t", "\n"⟩

/-- The line of names and the formula itself, behind which no cell ends. -/
def header (layout : Layout) (t : TruthTable) : String :=
  String.join (t.names.map (· ++ layout.afterCell)) ++ t.formula ++ layout.afterLine

/-- The line of one row: its columns and the value of the formula. -/
def line (layout : Layout) (row : Row) : String :=
  let word := fun (value : Bool) => if value then layout.whenTrue else layout.whenFalse
  String.join ((row.bits ++ [row.value]).map fun value => word value ++ layout.afterCell)
    ++ layout.afterLine

/-- The table as a text: the header and the rows below it. -/
def render (layout : Layout) (t : TruthTable) : String :=
  t.header layout ++ String.join (t.rows.map (line layout))

end TruthTable

end Sentential
