import Sentential.Operator.Registry
import Sentential.PrefixMap.Trie

namespace Sentential

/-- The operators of a language as a reader needs them: one prefix map for each arity. -/
structure Dialect (M : Type → Type) where
  unary : M Operator
  binary : M Operator

namespace Dialect

variable {M : Type → Type} [PrefixMap M]

/-- The language that a registry describes. -/
def ofRegistry (r : Registry) : Dialect M :=
  ⟨PrefixMap.ofList r.unary.toList, PrefixMap.ofList r.binary.toList⟩

/-- The prefix map of one arity. -/
def operators (d : Dialect M) : Kind → Except RegistryError (M Operator)
  | .unary => .ok d.unary
  | .binary => .ok d.binary
  | .value => .error (.invalidArity .value)

/-- The operator of this symbol and arity. -/
def lookup (d : Dialect M) (symbol : String) (kind : Kind) : Except RegistryError Operator := do
  let map ← d.operators kind
  match PrefixMap.get? map symbol with
  | some op => return op
  | none => throw (.unknownOperator symbol kind)

/-- The language of the standard operators. -/
def standard : Dialect PrefixMap.Trie :=
  ofRegistry Registry.standard

end Dialect

end Sentential
