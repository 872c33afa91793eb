import Sentential.Operator.Basic
import Sentential.Proposition

namespace Sentential

/-- A formula as it was written, with parentheses, where every node carries a label. A group that
    was still open where the text ended is not closed. A regroup comes of an opener in place of a
    binary operator: the operand before it stays in the tree, but is no part of what is meant. -/
inductive Formula (ι : Type) where
  | leaf (label : ι) (proposition : Proposition)
  | unary (label : ι) (connective : Connective) (operand : Formula ι)
  | binary (label : ι) (connective : Connective) (left right : Formula ι)
  | group (label : ι) (opener : Opener) (closed : Bool) (body : Formula ι)
  | regroup (label : ι) (opener : Opener) (closed : Bool) (discarded body : Formula ι)
  deriving DecidableEq, Repr

namespace Formula

variable {ι : Type}

/-- The label of the outermost node. -/
def label : Formula ι → ι
  | leaf label _ => label
  | unary label .. => label
  | binary label .. => label
  | group label .. => label
  | regroup label .. => label

/-- The kind of the outermost node. A group counts as unary. -/
def kind : Formula ι → Kind
  | leaf .. => .value
  | unary .. => .unary
  | binary .. => .binary
  | group .. => .unary
  | regroup .. => .unary

/-- The symbol written for the outermost node. -/
def symbol : Formula ι → String
  | leaf _ p => p.name
  | unary _ c _ => c.symbol
  | binary _ c _ _ => c.symbol
  | group _ o _ _ => o.symbol
  | regroup _ o _ _ _ => o.symbol

/-- How tightly the outermost node binds. -/
def precedence : Formula ι → Int
  | leaf .. => closedPrecedence
  | unary _ c _ => c.precedence
  | binary _ c _ _ => c.precedence
  | group _ _ closed _ => if closed then closedPrecedence else openPrecedence
  | regroup _ _ closed _ _ => if closed then closedPrecedence else openPrecedence

/-- The left operand of a binary node. -/
def left? : Formula ι → Option (Formula ι)
  | binary _ _ left _ => some left
  | _ => none

/-- The right or only operand of a node that has operands. -/
def right? : Formula ι → Option (Formula ι)
  | leaf .. => none
  | unary _ _ operand => some operand
  | binary _ _ _ right => some right
  | group _ _ _ body => some body
  | regroup _ _ _ _ body => some body

/-- The number of nodes, where every occurrence of a leaf counts. -/
def size : Formula ι → Nat
  | leaf .. => 1
  | unary _ _ operand => operand.size + 1
  | binary _ _ left right => left.size + right.size + 1
  | group _ _ _ body => body.size + 1
  | regroup _ _ _ discarded body => discarded.size + body.size + 1

end Formula

end Sentential
