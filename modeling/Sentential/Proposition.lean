namespace Sentential

/-- A truth value for every name. -/
abbrev Valuation := String → Bool

namespace Valuation

/-- The valuation that every formula starts with. -/
def allFalse : Valuation :=
  fun _ => false

/-- The valuation changed at one name. -/
def set (v : Valuation) (name : String) (value : Bool) : Valuation :=
  fun other => if other = name then value else v other

/-- The name that is set has the new value. -/
@[simp] theorem set_self (v : Valuation) (name : String) (value : Bool) :
    v.set name value name = value := by
  simp [set]

/-- The other names keep their values. -/
theorem set_of_ne (v : Valuation) {name other : String} (value : Bool) (h : other ≠ name) :
    v.set name value other = v other := by
  simp [set, h]

end Valuation

/-- What an identifier denotes: a fixed truth value or an atom that a valuation decides. -/
inductive Proposition where
  | constant (value : Bool)
  | atom (name : String)
  deriving DecidableEq, Repr

namespace Proposition

/-- The identifier `T` denotes truth, `F` denotes falsity and any other identifier an atom. -/
def ofIdentifier (name : String) : Proposition :=
  if name = "T" then constant true else if name = "F" then constant false else atom name

/-- The identifier that denotes the proposition. -/
def name : Proposition → String
  | constant true => "T"
  | constant false => "F"
  | atom name => name

/-- No name is lost when an identifier is read, also not those of the constants. -/
@[simp] theorem name_ofIdentifier (name : String) : (ofIdentifier name).name = name := by
  unfold ofIdentifier
  split
  · simp_all [Proposition.name]
  · split <;> simp_all [Proposition.name]

/-- Whether the value is fixed. -/
def isConstant : Proposition → Bool
  | constant _ => true
  | atom _ => false

/-- The value under a valuation, which has no say in constants. -/
def value (v : Valuation) : Proposition → Bool
  | constant value => value
  | atom name => v name

end Proposition

end Sentential
