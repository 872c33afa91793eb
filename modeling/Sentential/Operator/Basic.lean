import Sentential.Operator.Rule

namespace Sentential

/-- How many operands a node has: a proposition has none. Operators are unary or binary. -/
inductive Kind where
  | unary
  | binary
  | value
  deriving DecidableEq, Repr

/-- The name of a kind. -/
def Kind.name : Kind → String
  | unary => "unary"
  | binary => "binary"
  | value => "value"

/-- The precedence of a group that is still open, below every registered operator. -/
def openPrecedence : Int := 0

/-- The precedence of closed groups and of propositions, above every registered operator. -/
def closedPrecedence : Int := 2147483647

/-- An operator that combines the values of its operands. A higher precedence binds tighter. -/
structure Connective where
  symbol : String
  kind : Kind
  precedence : Int
  rule : Rule
  deriving DecidableEq, Repr

/-- A symbol that opens a group, to be closed by a right parenthesis. -/
structure Opener where
  symbol : String
  kind : Kind
  deriving DecidableEq, Repr

/-- What a symbol can stand for. -/
inductive Operator where
  | connective (c : Connective)
  | opener (o : Opener)
  deriving DecidableEq, Repr

namespace Operator

/-- The symbol as it is written in formulas. -/
def symbol : Operator → String
  | connective c => c.symbol
  | opener o => o.symbol

/-- Whether the operator is unary or binary. -/
def kind : Operator → Kind
  | connective c => c.kind
  | opener o => o.kind

/-- The precedence of a node built from the operator, for an opener that of an open group. -/
def precedence : Operator → Int
  | connective c => c.precedence
  | opener _ => openPrecedence

/-- The value for the given operands. A group has the value of its body. -/
def apply : Operator → Option Bool → Bool → Bool
  | connective c, left, right => c.rule.apply left right
  | opener _, _, right => right

/-- Whether the operator opens a group. -/
def isOpener : Operator → Bool
  | connective _ => false
  | opener _ => true

end Operator

end Sentential
