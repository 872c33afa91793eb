namespace Sentential

/-- What an operator makes of its operands. A unary operator is applied without a left operand. -/
inductive Rule where
  /-- The value is looked up. Bits 0 and 1 answer for a right operand alone, bits 2 to 5 for a left
      and a right operand, the right one counting 1 and the left one 2. -/
  | tabulated (table : BitVec 6)
  /-- The value is the right operand, and every application is counted. -/
  | metered
  deriving DecidableEq, Repr

namespace Rule

/-- The value for the given operands. -/
def apply : Rule → Option Bool → Bool → Bool
  | tabulated table, none, right => table.getLsbD right.toNat
  | tabulated table, some left, right => table.getLsbD (2 + 2 * left.toNat + right.toNat)
  | metered, _, right => right

/-- The rule that tabulates a function. -/
def ofFunction (f : Option Bool → Bool → Bool) : Rule :=
  tabulated <| BitVec.ofBoolListLE
    [f none false, f none true, f (some false) false, f (some false) true, f (some true) false,
      f (some true) true]

/-- A tabulated function is applied by looking it up. Six bits are all there is to know about a function
    of one or two truth values. -/
@[simp] theorem apply_ofFunction (f : Option Bool → Bool → Bool) : (ofFunction f).apply = f := by
  funext left right
  unfold ofFunction apply
  rcases left with _ | _ | _ <;> cases right <;> simp [BitVec.ofBoolListLE]

/-- Counting an application does not change its value. -/
@[simp] theorem apply_metered (left : Option Bool) (right : Bool) :
    metered.apply left right = right := by
  cases left <;> rfl

end Rule

end Sentential
