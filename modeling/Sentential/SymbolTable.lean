import Sentential.Formula.Node

namespace Sentential

/-- An atom of a formula with the number of its leaf. -/
structure Symbol where
  name : String
  id : NodeId
  deriving DecidableEq, Repr

/-- The symbol of a leaf that holds an atom. -/
def Node.symbol? (node : Node) : Option Symbol :=
  match node.formula with
  | .leaf id (.atom name) => some ⟨name, id⟩
  | _ => none

/-- The orders that symbols can be listed in. -/
inductive SymbolOrder where
  | name
  | nameDescending
  | id
  | idDescending
  /-- Short names first, names of one length by name. -/
  | length
  deriving DecidableEq, Repr

/-- Whether one symbol may stand before another. -/
def SymbolOrder.le (order : SymbolOrder) (a b : Symbol) : Bool :=
  match order with
  | name => a.name ≤ b.name
  | nameDescending => b.name ≤ a.name
  | id => a.id ≤ b.id
  | idDescending => b.id ≤ a.id
  | length =>
    a.name.utf8ByteSize < b.name.utf8ByteSize
      || (a.name.utf8ByteSize == b.name.utf8ByteSize && a.name ≤ b.name)

/-- The atoms of a formula in the order in which the text names them. -/
structure SymbolTable where
  symbols : List Symbol
  deriving DecidableEq, Repr

namespace SymbolTable

/-- The atoms among the nodes, in the order of their leaves. -/
def ofNodes (nodes : Array Node) : SymbolTable :=
  ⟨nodes.toList.filterMap Node.symbol?⟩

/-- The number of atoms. -/
def size (table : SymbolTable) : Nat :=
  table.symbols.length

/-- Whether the formula has no atoms. -/
def isEmpty (table : SymbolTable) : Bool :=
  table.symbols.isEmpty

/-- The number of the leaf of an atom. -/
def get? (table : SymbolTable) (name : String) : Option NodeId :=
  (table.symbols.find? fun s => s.name = name).map Symbol.id

/-- All symbols, sorted by a comparison of the caller's choice. Symbols that it puts neither way keep
    the order in which the text names them. -/
def orderedBy (table : SymbolTable) (le : Symbol → Symbol → Bool) : List Symbol :=
  table.symbols.mergeSort le

/-- All symbols in the given order. -/
def ordered (table : SymbolTable) (order : SymbolOrder) : List Symbol :=
  table.orderedBy order.le

end SymbolTable

end Sentential
