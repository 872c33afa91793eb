import Sentential.Formula.Basic

namespace Sentential

/-- Where operators are written: between their operands, before them or behind them. Only the
    algebraic notation has parentheses. -/
inductive Notation where
  | algebraic
  | polish
  | reversePolish
  deriving DecidableEq, Repr

/-- A piece of written text that is not cut further. -/
inductive Token where
  | operand (p : Proposition)
  | connective (c : Connective)
  | opener (o : Opener)
  | closer
  deriving DecidableEq, Repr

/-- How a token is written. -/
def Token.text : Token → String
  | operand p => p.name
  | connective c => c.symbol
  | opener o => o.symbol
  | closer => ")"

namespace Formula

variable {ι : Type}

/-- The formula as a sequence of tokens. Every group is closed in writing, also one that is not
    closed in the formula. -/
def tokens : Notation → Formula ι → List Token
  | _, leaf _ p => [.operand p]
  | .algebraic, unary _ c operand => .connective c :: operand.tokens .algebraic
  | .polish, unary _ c operand => .connective c :: operand.tokens .polish
  | .reversePolish, unary _ c operand => operand.tokens .reversePolish ++ [.connective c]
  | .algebraic, binary _ c left right =>
    left.tokens .algebraic ++ .connective c :: right.tokens .algebraic
  | .polish, binary _ c left right =>
    .connective c :: (left.tokens .polish ++ right.tokens .polish)
  | .reversePolish, binary _ c left right =>
    left.tokens .reversePolish ++ (right.tokens .reversePolish ++ [.connective c])
  | .algebraic, group _ o _ body => .opener o :: (body.tokens .algebraic ++ [.closer])
  | .polish, group _ _ _ body => body.tokens .polish
  | .reversePolish, group _ _ _ body => body.tokens .reversePolish
  | .algebraic, regroup _ o _ _ body => .opener o :: (body.tokens .algebraic ++ [.closer])
  | .polish, regroup _ _ _ _ body => body.tokens .polish
  | .reversePolish, regroup _ _ _ _ body => body.tokens .reversePolish

/-- What is still to be written: a token or a whole subformula. -/
inductive Piece (ι : Type) where
  | token (t : Token)
  | formula (f : Formula ι)

/-- The pieces of the outermost node in the order of the notation. -/
def pieces : Notation → Formula ι → List (Piece ι)
  | _, leaf _ p => [.token (.operand p)]
  | .algebraic, unary _ c operand => [.token (.connective c), .formula operand]
  | .polish, unary _ c operand => [.token (.connective c), .formula operand]
  | .reversePolish, unary _ c operand => [.formula operand, .token (.connective c)]
  | .algebraic, binary _ c left right => [.formula left, .token (.connective c), .formula right]
  | .polish, binary _ c left right => [.token (.connective c), .formula left, .formula right]
  | .reversePolish, binary _ c left right => [.formula left, .formula right, .token (.connective c)]
  | .algebraic, group _ o _ body => [.token (.opener o), .formula body, .token .closer]
  | .polish, group _ _ _ body => [.formula body]
  | .reversePolish, group _ _ _ body => [.formula body]
  | .algebraic, regroup _ o _ _ body => [.token (.opener o), .formula body, .token .closer]
  | .polish, regroup _ _ _ _ body => [.formula body]
  | .reversePolish, regroup _ _ _ _ body => [.formula body]

/-- Bounds the steps that writing a piece takes. -/
def Piece.work : Piece ι → Nat
  | token _ => 1
  | formula f => 3 * f.size

/-- Bounds the steps that writing a list of pieces takes. -/
def Piece.listWork : List (Piece ι) → Nat
  | [] => 0
  | piece :: rest => piece.work + listWork rest

/-- The work of two lists of pieces adds up, so a formula can be replaced by its pieces. -/
theorem Piece.listWork_append (pending rest : List (Piece ι)) :
    listWork (pending ++ rest) = listWork pending + listWork rest := by
  induction pending with
  | nil => simp [listWork]
  | cons piece pending ih => simp [listWork, ih, Nat.add_assoc]

/-- The pieces of a formula are less work than the formula. This is why writing ends. -/
theorem Piece.listWork_pieces_lt (n : Notation) (f : Formula ι) :
    listWork (f.pieces n) < 3 * f.size := by
  cases n <;> cases f <;> simp only [pieces, listWork, work, size] <;> omega

/-- Writes the pieces behind a text, with a list of pieces in place of recursion. -/
def write (n : Notation) : List (Piece ι) → String → String
  | [], out => out
  | .token t :: rest, out => write n rest (out ++ t.text)
  | .formula f :: rest, out => write n (f.pieces n ++ rest) out
termination_by pending _ => Piece.listWork pending
decreasing_by
  · simp only [Piece.listWork, Piece.work]
    omega
  · have := Piece.listWork_pieces_lt n f
    simp only [Piece.listWork_append, Piece.listWork, Piece.work]
    omega

/-- The text behind which the formula is written. -/
def renderOnto (out : String) (n : Notation) (f : Formula ι) : String :=
  write n [.formula f] out

/-- The text of the formula. -/
def render (n : Notation) (f : Formula ι) : String :=
  f.renderOnto "" n

end Formula

end Sentential
