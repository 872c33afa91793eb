import Sentential.Formula.Basic

namespace Sentential.Formula

variable {ι : Type}

/-- The truth value under a valuation. -/
def truth (v : Valuation) : Formula ι → Bool
  | leaf _ p => p.value v
  | unary _ c operand => c.rule.apply none (operand.truth v)
  | binary _ c left right => c.rule.apply (some (left.truth v)) (right.truth v)
  | group _ _ _ body => body.truth v
  | regroup _ _ _ _ body => body.truth v

/-- What the connectives of the formula cost, each taken once. -/
def cost (price : ι → Connective → Nat) : Formula ι → Nat
  | leaf .. => 0
  | unary label c operand => operand.cost price + price label c
  | binary label c left right => left.cost price + right.cost price + price label c
  | group _ _ _ body => body.cost price
  | regroup _ _ _ _ body => body.cost price

/-- What is left to do with the value of a subformula. -/
inductive Pending (ι : Type) where
  | applyUnary (label : ι) (connective : Connective)
  | evaluateRight (label : ι) (connective : Connective) (right : Formula ι)
  | applyBinary (label : ι) (connective : Connective) (left : Bool)

/-- Where an evaluation stands: before a subformula or behind one. -/
inductive Focus (ι : Type) where
  | before (f : Formula ι)
  | behind (value : Bool)

/-- Bounds the steps that a pending task still takes. -/
def Pending.work : Pending ι → Nat
  | applyUnary .. => 1
  | evaluateRight _ _ right => 3 * right.size + 2
  | applyBinary .. => 1

/-- Bounds the steps that a list of pending tasks still takes. -/
def Pending.listWork : List (Pending ι) → Nat
  | [] => 0
  | task :: rest => task.work + listWork rest

/-- Bounds the steps that a focus still takes. -/
def Focus.work : Focus ι → Nat
  | before f => 3 * f.size
  | behind _ => 0

/-- Evaluates with a list of pending tasks in place of recursion, so that the depth of a formula is
    no limit. The answer holds the value and what the applications of connectives cost. -/
def run (price : ι → Connective → Nat) (v : Valuation) :
    Focus ι → List (Pending ι) → Nat → Bool × Nat
  | .before (leaf _ p), tasks, spent => run price v (.behind (p.value v)) tasks spent
  | .before (unary label c operand), tasks, spent =>
    run price v (.before operand) (.applyUnary label c :: tasks) spent
  | .before (binary label c left right), tasks, spent =>
    run price v (.before left) (.evaluateRight label c right :: tasks) spent
  | .before (group _ _ _ body), tasks, spent => run price v (.before body) tasks spent
  | .before (regroup _ _ _ _ body), tasks, spent => run price v (.before body) tasks spent
  | .behind value, [], spent => (value, spent)
  | .behind value, .applyUnary label c :: tasks, spent =>
    run price v (.behind (c.rule.apply none value)) tasks (spent + price label c)
  | .behind value, .evaluateRight label c right :: tasks, spent =>
    run price v (.before right) (.applyBinary label c value :: tasks) spent
  | .behind value, .applyBinary label c left :: tasks, spent =>
    run price v (.behind (c.rule.apply (some left) value)) tasks (spent + price label c)
termination_by focus tasks _ => focus.work + Pending.listWork tasks
decreasing_by
  all_goals simp only [Focus.work, Pending.work, Pending.listWork, size]
  all_goals omega

/-- Running from before a subformula arrives behind it with its truth value, and has applied each of its
    connectives once. What was pending is left as it was. -/
theorem run_before (price : ι → Connective → Nat) (v : Valuation) (f : Formula ι)
    (tasks : List (Pending ι)) (spent : Nat) :
    run price v (.before f) tasks spent
      = run price v (.behind (f.truth v)) tasks (spent + f.cost price) := by
  induction f generalizing tasks spent with
  | leaf label p => rw [run]; rfl
  | unary label c operand ih => rw [run, ih, run]; simp only [truth, cost, Nat.add_assoc]
  | binary label c left right ihl ihr =>
    rw [run, ihl, run, ihr, run]
    simp only [truth, cost, Nat.add_assoc]
  | group label o closed body ih => rw [run, ih]; rfl
  | regroup label o closed discarded body _ ih => rw [run, ih]; rfl

/-- The truth value under a valuation and the cost of evaluating it. -/
def measure (price : ι → Connective → Nat) (v : Valuation) (f : Formula ι) : Bool × Nat :=
  run price v (.before f) [] 0

/-- The machine with a stack finds the truth value of the recursion, and spends what the recursion
    costs. Proofs about values and costs go by the recursion from here on. -/
theorem measure_eq (price : ι → Connective → Nat) (v : Valuation) (f : Formula ι) :
    f.measure price v = (f.truth v, f.cost price) := by
  rw [measure, run_before, run, Nat.zero_add]

/-- The truth value under a valuation. -/
def evaluate (v : Valuation) (f : Formula ι) : Bool :=
  (f.measure (fun _ _ => 0) v).1

/-- The value found is the truth value of the recursion. No price is paid for it. -/
theorem evaluate_eq_truth (v : Valuation) (f : Formula ι) : f.evaluate v = f.truth v := by
  rw [evaluate, measure_eq]

end Sentential.Formula
