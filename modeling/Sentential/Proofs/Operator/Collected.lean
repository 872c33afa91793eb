import Sentential.Proofs.Operator.Validated

namespace Sentential

namespace Registry

/-- The registries that come of lists of operators by registrations. A list may hold any operators:
    only registrations are checked. -/
inductive Collected : Registry → Prop where
  | ofList (ops : List Operator) : Collected (ofList ops)
  | register {r next : Registry} {op : Operator} {replaced : Option Operator} (hr : Collected r)
    (hregister : r.register op = .ok (replaced, next)) : Collected next

/-- Every operator is in the table of its kind. Nothing else is asked of it. -/
structure SortsKinds (r : Registry) : Prop where
  unary : ∀ (symbol : String) (op : Operator), r.unary[symbol]? = some op → op.kind = .unary
  binary : ∀ (symbol : String) (op : Operator), r.binary[symbol]? = some op → op.kind = .binary

/-- Putting an operator keeps the tables sorted by kinds, since it goes to the table of its own. Its
    precedence and symbol may be anything. -/
theorem SortsKinds.put {r : Registry} (h : r.SortsKinds) (op : Operator) : (r.put op).SortsKinds := by
  unfold Registry.put
  cases hkind : op.kind with
  | unary =>
    refine ⟨fun symbol found hfound => ?_, h.binary⟩
    rw [Std.TreeMap.getElem?_insert] at hfound
    split at hfound
    · obtain rfl := Option.some.inj hfound
      exact hkind
    · exact h.unary symbol found hfound
  | binary =>
    refine ⟨h.unary, fun symbol found hfound => ?_⟩
    rw [Std.TreeMap.getElem?_insert] at hfound
    split at hfound
    · obtain rfl := Option.some.inj hfound
      exact hkind
    · exact h.binary symbol found hfound
  | value => exact h

/-- Operators are sorted by their kinds, whatever else they are. This is all that reading relies on to
    end without being stuck. -/
theorem Collected.sortsKinds {r : Registry} (h : r.Collected) : r.SortsKinds := by
  induction h with
  | ofList ops =>
    have hfold : ∀ r : Registry, r.SortsKinds → (ops.foldl Registry.put r).SortsKinds := by
      induction ops with
      | nil => exact fun r hr => hr
      | cons op rest ih => exact fun r hr => ih _ (hr.put op)
    exact hfold Registry.empty ⟨fun _ _ h => by simp [Registry.empty] at h,
      fun _ _ h => by simp [Registry.empty] at h⟩
  | @register r next op replaced _ hregister ih =>
    unfold Registry.register at hregister
    split at hregister
    · cases hregister
    · obtain ⟨-, rfl⟩ := by simpa using hregister
      exact ih.put op

end Registry

end Sentential
