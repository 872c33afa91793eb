import Sentential.Formula.Rendering
import Sentential.Parsing.Numbering

namespace Sentential.Formula

variable {ι κ : Type}

/-- The right parenthesis of a group, which is missing if the group is open. -/
def closing (closed : Bool) : List Token :=
  if closed then [.closer] else []

/-- The tokens of a text that the formula is read from. They tell closed groups from open ones. -/
def sourceTokens : Formula ι → List Token
  | leaf _ p => [.operand p]
  | unary _ c operand => .connective c :: operand.sourceTokens
  | binary _ c left right => left.sourceTokens ++ .connective c :: right.sourceTokens
  | group _ o closed body => .opener o :: (body.sourceTokens ++ closing closed)
  | regroup _ o closed discarded body =>
    discarded.sourceTokens ++ .opener o :: (body.sourceTokens ++ closing closed)

/-- The same tokens, each with the label of the node that it is the symbol of. A right parenthesis is
    the symbol of none. -/
def labelledTokens : Formula ι → List (Option ι × Token)
  | leaf label p => [(some label, .operand p)]
  | unary label c operand => (some label, .connective c) :: operand.labelledTokens
  | binary label c left right =>
    left.labelledTokens ++ (some label, .connective c) :: right.labelledTokens
  | group label o closed body =>
    (some label, .opener o) :: (body.labelledTokens ++ (closing closed).map (none, ·))
  | regroup label o closed discarded body =>
    discarded.labelledTokens ++
      (some label, .opener o) :: (body.labelledTokens ++ (closing closed).map (none, ·))

/-- The tokens with their labels are, less the labels, the tokens that the formula is read from. Right
    parentheses are among them, but have no labels. -/
theorem map_snd_labelledTokens (f : Formula ι) : f.labelledTokens.map Prod.snd = f.sourceTokens := by
  induction f with
  | leaf label p => rfl
  | unary label c operand ih => simp [labelledTokens, sourceTokens, ih]
  | binary label c left right ihl ihr => simp [labelledTokens, sourceTokens, ihl, ihr]
  | group label o closed body ih => simp [labelledTokens, sourceTokens, Function.comp_def, ih]
  | regroup label o closed discarded body ihd ih =>
    simp [labelledTokens, sourceTokens, Function.comp_def, ihd, ih]

/-- The same formula with other labels. -/
def relabel (name : ι → κ) : Formula ι → Formula κ
  | leaf label p => leaf (name label) p
  | unary label c operand => unary (name label) c (operand.relabel name)
  | binary label c left right => binary (name label) c (left.relabel name) (right.relabel name)
  | group label o closed body => group (name label) o closed (body.relabel name)
  | regroup label o closed discarded body =>
    regroup (name label) o closed (discarded.relabel name) (body.relabel name)

/-- The formula without its labels. -/
def unlabelled (f : Formula ι) : Formula Unit :=
  f.relabel fun _ => ()

/-- Numbers the nodes in reading order, after those numbered before. All occurrences of an identifier
    get one number. -/
def number (numbering : Numbering) : Formula ι → Formula NodeId × Numbering
  | leaf _ p => (leaf (numbering.leaf p.name).1 p, (numbering.leaf p.name).2)
  | unary _ c operand =>
    let body := operand.number numbering.operator.2
    (unary numbering.operator.1 c body.1, body.2)
  | binary _ c left right =>
    let first := left.number numbering
    let second := right.number first.2.operator.2
    (binary first.2.operator.1 c first.1 second.1, second.2)
  | group _ o closed operand =>
    let body := operand.number numbering.operator.2
    (group numbering.operator.1 o closed body.1, body.2)
  | regroup _ o closed discarded operand =>
    let first := discarded.number numbering
    let body := operand.number first.2.operator.2
    (regroup first.2.operator.1 o closed first.1 body.1, body.2)

/-- The formula numbered from zero. -/
def numbered (f : Formula ι) : Formula NodeId :=
  (f.number Numbering.empty).1

/-- Numbering a formula changes nothing but its labels. What is known of a formula without its labels is
    therefore known of a numbered one. -/
theorem unlabelled_number (numbering : Numbering) (f : Formula ι) :
    (f.number numbering).1.unlabelled = f.unlabelled := by
  unfold unlabelled
  induction f generalizing numbering with
  | leaf label p => rfl
  | unary label c operand ih => simp [number, relabel, ih]
  | binary label c left right ihl ihr => simp [number, relabel, ihl, ihr]
  | group label o closed body ih => simp [number, relabel, ih]
  | regroup label o closed discarded body ihd ih => simp [number, relabel, ihd, ih]

end Sentential.Formula
