import Std.Data.TreeMap
import Sentential.Formula.Node

namespace Sentential

/-- The numbers given to nodes so far: how many, and which one each identifier has. -/
structure Numbering where
  next : NodeId
  leaves : Std.TreeMap String NodeId

namespace Numbering

/-- No node has a number. -/
def empty : Numbering :=
  ⟨0, ∅⟩

/-- Numbers an operator node. -/
def operator (numbering : Numbering) : NodeId × Numbering :=
  (numbering.next, ⟨numbering.next + 1, numbering.leaves⟩)

/-- Numbers the leaf of an identifier when it is met for the first time. -/
def leaf (numbering : Numbering) (name : String) : NodeId × Numbering :=
  match numbering.leaves[name]? with
  | some id => (id, numbering)
  | none => (numbering.next, ⟨numbering.next + 1, numbering.leaves.insert name numbering.next⟩)

end Numbering

end Sentential
