namespace Sentential

/-- The order in which the rows of a truth table are visited: from all false to all true, or the
    other way. -/
inductive Direction where
  | ascending
  | descending
  deriving DecidableEq, Repr

/-- The index of the row that is visited at a position, in a table of the given number of rows. -/
def Direction.index (direction : Direction) (position rows : UInt32) : UInt32 :=
  match direction with
  | ascending => position
  | descending => rows - 1 - position

end Sentential
