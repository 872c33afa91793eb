import Sentential.Formula.Basic

namespace Sentential

/-- The number of a node. Nodes are numbered from zero in the order in which the text names them,
    and all occurrences of an identifier are one node. -/
abbrev NodeId := Nat

/-- A node of a formula with the subformula below it and the operator node above it. A leaf can stand
    below many operators and records none of them. -/
structure Node where
  formula : Formula NodeId
  parent : Option NodeId

namespace Node

/-- The number of the left operand. -/
def left (node : Node) : Option NodeId :=
  node.formula.left?.map Formula.label

/-- The number of the right operand, which a group has as well. -/
def right (node : Node) : Option NodeId :=
  node.formula.right?.map Formula.label

/-- The proposition of a leaf. -/
def proposition? (node : Node) : Option Proposition :=
  match node.formula with
  | .leaf _ p => some p
  | _ => none

end Node

namespace Formula

/-- A task of a walk in reading order: to go through a subformula below some node, or to record one
    node. -/
inductive Visit where
  | through (parent : Option NodeId) (f : Formula NodeId)
  | record (node : Node)

/-- Bounds the steps that a task takes. -/
def Visit.work : Visit → Nat
  | through _ f => 2 * f.size
  | record _ => 1

/-- Bounds the steps that a list of tasks takes. -/
def Visit.listWork : List Visit → Nat
  | [] => 0
  | task :: rest => task.work + listWork rest

/-- The work of two lists of tasks adds up, so a task can be replaced by the tasks that it comes down
    to. -/
theorem Visit.listWork_append (tasks rest : List Visit) :
    listWork (tasks ++ rest) = listWork tasks + listWork rest := by
  induction tasks with
  | nil => simp [listWork]
  | cons task tasks ih => simp [listWork, ih, Nat.add_assoc]

/-- The tasks that going through a subformula comes down to. -/
def visits (parent : Option NodeId) (f : Formula NodeId) : List Visit :=
  match f with
  | leaf .. => [.record ⟨f, none⟩]
  | unary id _ operand => [.record ⟨f, parent⟩, .through (some id) operand]
  | binary id _ left right => [.through (some id) left, .record ⟨f, parent⟩, .through (some id) right]
  | group id _ _ body => [.record ⟨f, parent⟩, .through (some id) body]
  | regroup id _ _ discarded body =>
    [.through (some id) discarded, .record ⟨f, parent⟩, .through (some id) body]

/-- Going through a subformula comes down to tasks of less work. This is why the walk ends. -/
private theorem Visit.listWork_visits_lt (parent : Option NodeId) (f : Formula NodeId) :
    listWork (f.visits parent) < 2 * f.size := by
  cases f <;> simp only [visits, listWork, work, size] <;> omega

/-- Walks through a formula and puts every node at the place of its number. Numbers follow the
    reading order, so a node whose number is not the next one was met before. -/
def collect : List Visit → Array Node → Array Node
  | [], nodes => nodes
  | .record node :: rest, nodes =>
    collect rest (if node.formula.label = nodes.size then nodes.push node else nodes)
  | .through parent f :: rest, nodes => collect (f.visits parent ++ rest) nodes
termination_by tasks _ => Visit.listWork tasks
decreasing_by
  · simp only [Visit.listWork, Visit.work]
    omega
  · have := Visit.listWork_visits_lt parent f
    simp only [Visit.listWork_append, Visit.listWork, Visit.work]
    omega

/-- The nodes of a numbered formula, each at its number. -/
def nodes (f : Formula NodeId) : Array Node :=
  collect [.through none f] #[]

end Formula

end Sentential
