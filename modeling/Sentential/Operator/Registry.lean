import Std.Data.TreeMap
import Sentential.Operator.Standard
import Sentential.Text.Quoted

namespace Sentential

/-- Why an operator cannot be registered or found. -/
inductive RegistryError where
  | unknownOperator (symbol : String) (kind : Kind)
  | invalidArity (kind : Kind)
  | invalidPrecedence (symbol : String) (precedence : Int)
  | emptySymbol
  deriving DecidableEq, Repr

/-- The wording of the error. -/
def RegistryError.message : RegistryError → String
  | unknownOperator symbol kind => kind.name ++ " operator " ++ Text.quoteString symbol ++ " doesn't exist"
  | invalidArity kind => "operators can't have arity " ++ kind.name
  | invalidPrecedence symbol precedence =>
    "precedence " ++ toString precedence ++ " of " ++ Text.quoteString symbol
      ++ " is outside the operator range"
  | emptySymbol => "operator symbols can't be empty"

/-- A collection of operators, at most one for each symbol and arity. -/
structure Registry where
  unary : Std.TreeMap String Operator
  binary : Std.TreeMap String Operator

namespace Registry

/-- The registry without operators, not even parentheses. -/
def empty : Registry :=
  ⟨∅, ∅⟩

/-- The operators of one arity by their symbols. -/
def table (r : Registry) : Kind → Except RegistryError (Std.TreeMap String Operator)
  | .unary => .ok r.unary
  | .binary => .ok r.binary
  | .value => .error (.invalidArity .value)

/-- The operator of this symbol and arity. -/
def lookup (r : Registry) (symbol : String) (kind : Kind) : Except RegistryError Operator := do
  let table ← r.table kind
  match table[symbol]? with
  | some op => return op
  | none => throw (.unknownOperator symbol kind)

/-- Puts an operator into the table of its kind, in place of the one that had its symbol, and drops
    an operator that is of no arity. Nothing else is asked of the operator. -/
def put (r : Registry) (op : Operator) : Registry :=
  match op.kind with
  | .unary => ⟨r.unary.insert op.symbol op, r.binary⟩
  | .binary => ⟨r.unary, r.binary.insert op.symbol op⟩
  | .value => r

/-- The operators of a list, of which the last one of each symbol and arity stays. -/
def ofList (ops : List Operator) : Registry :=
  ops.foldl put empty

/-- The registry of the standard operators. -/
def standard : Registry :=
  ofList Operator.standard

/-- Binary operators first, each arity in the order of the symbols. -/
def toList (r : Registry) : List Operator :=
  r.binary.values ++ r.unary.values

/-- Why an operator is refused. A connective needs a precedence strictly between those of open and
    closed groups; every operator needs a symbol; connectives are unary or binary, openers unary. -/
def refusal? : Operator → Option RegistryError
  | .connective c =>
    if c.precedence ≤ openPrecedence ∨ closedPrecedence ≤ c.precedence then
      some (.invalidPrecedence c.symbol c.precedence)
    else if c.symbol = "" then some .emptySymbol
    else if c.kind = .value then some (.invalidArity .value)
    else none
  | .opener o =>
    if o.symbol = "" then some .emptySymbol
    else if o.kind = .unary then none
    else some (.invalidArity o.kind)

/-- Adds an operator unless it is refused. The answer holds the operator that it replaced. -/
def register (r : Registry) (op : Operator) : Except RegistryError (Option Operator × Registry) :=
  match refusal? op with
  | some e => .error e
  | none => .ok ((r.lookup op.symbol op.kind).toOption, r.put op)

end Registry

end Sentential
