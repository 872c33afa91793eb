namespace Sentential.Text

/-- A run of consecutive code points, both ends included. -/
structure CodeRange where
  first : Nat
  last : Nat

/-- Whether the code point of a character lies in the range. -/
def CodeRange.contains (range : CodeRange) (c : Char) : Bool :=
  range.first ≤ c.toNat && c.toNat ≤ range.last

end Sentential.Text
