import Sentential.Proofs.Parsing.Assembly

namespace Sentential

/-- How many groups are open behind a token, when so many are in front of it. There is none to close
    where none is open. -/
def Token.depth? (depth : Nat) : Token → Option Nat
  | operand _ => some depth
  | connective _ => some depth
  | opener _ => some (depth + 1)
  | closer => if depth = 0 then none else some (depth - 1)

namespace Spine

/-- How many groups are still open. -/
def groups (spine : Spine) : Nat :=
  spine.countP Frame.isGroup

/-- A frame counts as an open group if it is one. -/
@[simp] theorem groups_cons (frame : Frame) (rest : Spine) :
    groups (frame :: rest) = rest.groups + if frame.isGroup then 1 else 0 :=
  List.countP_cons

/-- No group is open exactly if there are none to count. -/
theorem hasGroup_eq_false_iff {spine : Spine} : spine.hasGroup = false ↔ spine.groups = 0 := by
  rw [hasGroup, List.any_eq_false, groups, List.countP_eq_zero]

/-- An operator that binds tighter than an open group climbs past none. -/
private theorem groups_climb {precedence : Int} (h : openPrecedence < precedence) (spine : Spine)
    (operand : Formula NodeId) : groups (spine.climb precedence operand).2 = spine.groups := by
  induction spine generalizing operand with
  | nil => rfl
  | cons frame rest ih =>
    rw [climb]
    split
    · rename_i hpasses
      have hgroup : frame.isGroup = false :=
        Frame.isGroup_of_openPrecedence_lt (Int.lt_of_lt_of_le h hpasses)
      rw [ih, groups_cons, hgroup]
      rfl
    · rfl

private theorem groups_of_close? {spine outer : Spine} {operand group : Formula NodeId}
    (h : spine.close? operand = some (group, outer)) : spine.groups = outer.groups + 1 := by
  induction spine generalizing operand with
  | nil => cases h
  | cons frame rest ih =>
    rw [close?] at h
    split at h
    · rename_i hgroup
      obtain ⟨-, rfl⟩ := by simpa using h
      rw [groups_cons, if_pos hgroup]
    · rename_i hgroup
      rw [groups_cons, if_neg hgroup, ih h]

end Spine

namespace Assembly

/-- A token that stands where it may is refused only if it closes a group and none is open. How many
    groups are open behind it can be told from the token alone. -/
theorem map_groups_take? {a : Assembly} {t : Token} (ht : t.Stands a.due.expectation) :
    (a.take? t).map (fun next => next.spine.groups) = t.depth? a.spine.groups := by
  obtain ⟨numbering, spine, due⟩ := a
  cases due with
  | operand =>
    cases ht with
    | operand p => rfl
    | unary hc => rfl
    | opener o => exact congrArg some (Spine.groups_cons _ _)
  | operator left =>
    cases ht with
    | binary hc =>
      exact congrArg some ((Spine.groups_cons _ _).trans (Spine.groups_climb hc spine left))
    | closer =>
      cases hclose : spine.close? left with
      | none =>
        have hgroup := spine.isSome_close? left
        rw [hclose] at hgroup
        have hzero := Spine.hasGroup_eq_false_iff.1 hgroup.symm
        simp [take?, feed, hclose, Except.toOption, Token.depth?, hzero]
      | some closed =>
        obtain ⟨group, outer⟩ := closed
        have hgroups := Spine.groups_of_close? hclose
        simp [take?, feed, hclose, Except.toOption, Token.depth?, hgroups]

/-- Reading keeps as many groups open as the tokens do. Whether a text is balanced is therefore a matter
    of its tokens. -/
theorem map_groups_takeAll? {a : Assembly} {ts : List Token}
    (hts : Token.Orderly a.due.expectation ts) :
    (a.takeAll? ts).map (fun last => last.spine.groups) = ts.foldlM Token.depth? a.spine.groups := by
  induction ts generalizing a with
  | nil => rfl
  | cons t rest ih =>
    cases hts with
    | cons ht hrest =>
      rw [takeAll?, List.foldlM_cons, ← map_groups_take? ht]
      cases htake : a.take? t with
      | none => rfl
      | some next =>
        rw [← (take?_eq_some_iff.1 htake).expectation_eq] at hrest
        exact ih hrest

end Assembly

end Sentential
