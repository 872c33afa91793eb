import Sentential.Operator.Basic

namespace Sentential.Operator

/-- A binary operator with the table of a function. -/
private def standardBinary (symbol : String) (precedence : Int) (f : Bool → Bool → Bool) : Operator :=
  connective ⟨symbol, .binary, precedence, Rule.ofFunction fun left => f (left.getD false)⟩

/-- The standard operators: disjunction, conjunction, implication, equivalence, alternative denial
    and joint denial, which are binary, negation, which is unary, and the parenthesis. -/
def standard : List Operator := [
  standardBinary "|" 10 fun left right => left || right,
  standardBinary "&" 15 fun left right => left && right,
  standardBinary "^" 7 fun left right => !left || right,
  standardBinary "~" 3 fun left right => left == right,
  standardBinary "↑" 2 fun left right => !(left && right),
  standardBinary "↓" 1 fun left right => !(left || right),
  connective ⟨"!", .unary, 1000, Rule.ofFunction fun _ right => !right⟩,
  opener ⟨"(", .unary⟩]

end Sentential.Operator
