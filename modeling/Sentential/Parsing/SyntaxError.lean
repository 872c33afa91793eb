import Sentential.Text.Quoted

namespace Sentential

/-- Why a text is no formula, with the position of the first character that fits nowhere. -/
inductive SyntaxError where
  | unexpectedEnd (position : Nat)
  | unknownUnaryOperator (found : Char) (position : Nat)
  | unknownBinaryOperator (found : Char) (position : Nat)
  | unmatchedRightParenthesis (position : Nat)
  deriving DecidableEq, Repr

namespace SyntaxError

/-- The position of the first character that fits nowhere. -/
def position : SyntaxError → Nat
  | unexpectedEnd position => position
  | unknownUnaryOperator _ position => position
  | unknownBinaryOperator _ position => position
  | unmatchedRightParenthesis position => position

/-- The character that no operator begins with. -/
def found? : SyntaxError → Option Char
  | unexpectedEnd _ => none
  | unknownUnaryOperator found _ => some found
  | unknownBinaryOperator found _ => some found
  | unmatchedRightParenthesis _ => none

/-- The wording of the error. -/
def message : SyntaxError → String
  | unexpectedEnd position => "unexpected end of expression at " ++ toString position
  | unknownUnaryOperator found position =>
    "unknown unary operator " ++ Text.quoteChar found ++ " at " ++ toString position
  | unknownBinaryOperator found position =>
    "unknown binary operator " ++ Text.quoteChar found ++ " at " ++ toString position
  | unmatchedRightParenthesis position =>
    "unmatched right parenthesis at " ++ toString position

end SyntaxError

end Sentential
