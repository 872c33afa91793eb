import Sentential.Parsing.Spine
import Sentential.Proofs.Formula.Precedence

namespace Sentential

/-- A bound below every operator, from which on a whole text is read. -/
def wholePrecedence : Int := -1

namespace Frame

/-- The tokens of an operator and of what stands before it. -/
def labelledTokens : Frame → List (Option NodeId × Token)
  | unary id c => [(some id, .connective c)]
  | binary id c left => left.labelledTokens ++ [(some id, .connective c)]
  | group id o => [(some id, .opener o)]
  | regroup id o discarded => discarded.labelledTokens ++ [(some id, .opener o)]

private theorem labelledTokens_fill (closed : Bool) (operand : Formula NodeId) (frame : Frame) :
    (frame.fill closed operand).labelledTokens =
      frame.labelledTokens ++ operand.labelledTokens ++
        (Formula.closing (closed && frame.isGroup)).map (none, ·) := by
  cases frame <;> simp [fill, labelledTokens, Formula.labelledTokens, isGroup, Formula.closing]

/-- An open group binds less tightly than any connective. What an operator climbs past is therefore no
    group. -/
theorem isGroup_of_openPrecedence_lt {frame : Frame} (h : openPrecedence < frame.precedence) :
    frame.isGroup = false := by
  cases frame with
  | unary id c => rfl
  | binary id c left => rfl
  | group id o => exact absurd h (Int.lt_irrefl _)
  | regroup id o discarded => exact absurd h (Int.lt_irrefl _)

end Frame

namespace Spine

/-- The bound for operators that are read directly under a spine. -/
def floor : Spine → Int
  | [] => wholePrecedence
  | frame :: _ => frame.precedence

/-- An operator stops climbing under one that binds less tightly. It may be the root, which binds least
    tightly of all. -/
theorem floor_climb_lt {precedence : Int} (h : wholePrecedence < precedence) (spine : Spine)
    (left : Formula NodeId) : floor (spine.climb precedence left).2 < precedence := by
  induction spine generalizing left with
  | nil => exact h
  | cons frame rest ih =>
    rw [climb]
    split
    · exact ih _
    · rename_i hstop
      exact Int.not_le.1 hstop

/-- An operator that binds tighter than the innermost one climbs over nothing. The operand in front of
    it becomes its left one. -/
theorem climb_of_floor_lt {precedence : Int} {spine : Spine} (h : floor spine < precedence)
    (operand : Formula NodeId) : spine.climb precedence operand = (operand, spine) := by
  cases spine with
  | nil => rfl
  | cons frame rest =>
    have hstop : ¬ precedence ≤ frame.precedence := Int.not_le.2 h
    rw [climb, if_neg hstop]

/-- A climb leaves an outer part of the spine. What it goes past is taken off as a whole. -/
theorem climb_suffix (precedence : Int) (operand : Formula NodeId) (spine : Spine) :
    (spine.climb precedence operand).2 <:+ spine := by
  induction spine generalizing operand with
  | nil => exact List.suffix_rfl
  | cons frame rest ih =>
    rw [climb]
    split
    · exact (ih _).trans (List.suffix_cons frame rest)
    · exact List.suffix_rfl

/-- Closing a group leaves an outer part of the spine. -/
theorem suffix_of_close? {spine rest : Spine} {operand group : Formula NodeId}
    (h : spine.close? operand = some (group, rest)) : rest <:+ spine := by
  induction spine generalizing operand with
  | nil => cases h
  | cons frame inner ih =>
    rw [close?] at h
    split at h
    · obtain ⟨-, rfl⟩ := by simpa using h
      exact List.suffix_cons frame inner
    · exact (ih h).trans (List.suffix_cons frame inner)

/-- The tokens read so far, less those of the operand at the end. -/
def labelledTokens : Spine → List (Option NodeId × Token)
  | [] => []
  | frame :: rest => labelledTokens rest ++ frame.labelledTokens

/-- A climb moves no token: what the operand gains is taken from the end of the spine. -/
theorem labelledTokens_climb (precedence : Int) (spine : Spine) (operand : Formula NodeId) :
    labelledTokens (spine.climb precedence operand).2 ++
        (spine.climb precedence operand).1.labelledTokens =
      spine.labelledTokens ++ operand.labelledTokens := by
  induction spine generalizing operand with
  | nil => rfl
  | cons frame rest ih =>
    rw [climb]
    split
    · rw [ih, frame.labelledTokens_fill]
      simp [labelledTokens, Formula.closing]
    · rfl

/-- Closing a group moves no token, and puts a right parenthesis behind the group. -/
theorem labelledTokens_of_close? {spine outer : Spine} {operand group : Formula NodeId}
    (h : spine.close? operand = some (group, outer)) :
    outer.labelledTokens ++ group.labelledTokens =
      spine.labelledTokens ++ operand.labelledTokens ++ [(none, .closer)] := by
  induction spine generalizing operand with
  | nil => cases h
  | cons frame rest ih =>
    rw [close?] at h
    split at h
    · rename_i hgroup
      obtain ⟨rfl, rfl⟩ := by simpa using h
      simp [labelledTokens, frame.labelledTokens_fill, hgroup, Formula.closing]
    · rw [ih h, frame.labelledTokens_fill]
      simp [labelledTokens, Formula.closing]

/-- Completing all operators moves no token. No right parenthesis is added for a group that is open. -/
theorem labelledTokens_complete (spine : Spine) (operand : Formula NodeId) :
    (spine.complete operand).labelledTokens = spine.labelledTokens ++ operand.labelledTokens := by
  unfold complete
  induction spine generalizing operand with
  | nil => rfl
  | cons frame rest ih =>
    rw [List.foldl_cons, ih, frame.labelledTokens_fill]
    simp [labelledTokens, Formula.closing]

end Spine

namespace Formula

/-- The spine and the last operand after reading a formula under a spine: its operators on the right
    are not completed yet, nor are its open groups. -/
def descend : Formula NodeId → Spine → Spine × Formula NodeId
  | unary id c operand, spine => operand.descend (.unary id c :: spine)
  | binary id c left right, spine => right.descend (.binary id c left :: spine)
  | group id o false body, spine => body.descend (.group id o :: spine)
  | regroup id o false discarded body, spine => body.descend (.regroup id o discarded :: spine)
  | f, spine => (spine, f)

/-- Completing all operators completes those of the formula first. Going down the right spine of a
    formula is undone by it. -/
theorem complete_descend (f : Formula NodeId) (spine : Spine) :
    (f.descend spine).1.complete (f.descend spine).2 = spine.complete f := by
  induction f generalizing spine with
  | leaf id p => rfl
  | unary id c operand ih => exact ih _
  | binary id c left right _ ih => exact ih _
  | group id o closed body ih =>
    cases closed with
    | false => exact ih _
    | true => rfl
  | regroup id o closed discarded body _ ih =>
    cases closed with
    | false => exact ih _
    | true => rfl

/-- A right parenthesis behind a formula without open groups closes a group around it. The formula is
    its body, or the end of it. -/
theorem close?_descend {f : Formula NodeId} (hf : f.AllClosed) (spine : Spine) :
    (f.descend spine).1.close? (f.descend spine).2 = spine.close? f := by
  induction f generalizing spine with
  | leaf id p => rfl
  | unary id c operand ih => exact ih hf _
  | binary id c left right _ ih => exact ih hf.2 _
  | group id o closed body _ =>
    obtain ⟨rfl, -⟩ := hf
    rfl
  | regroup id o closed discarded body _ _ =>
    obtain ⟨rfl, -⟩ := hf
    rfl

/-- An operator behind a formula takes it as a whole, if no operator on the right of it is looser. -/
theorem climb_descend {f : Formula NodeId} (hf : f.AllClosed) {precedence : Int}
    (hright : ∀ q ∈ f.rightPrecedences, precedence ≤ q) (spine : Spine) :
    (f.descend spine).1.climb precedence (f.descend spine).2 = spine.climb precedence f := by
  induction f generalizing spine with
  | leaf id p => rfl
  | unary id c operand ih =>
    obtain ⟨hc, hoperand⟩ := List.forall_mem_cons.1 hright
    have hclimb : precedence ≤ (Frame.unary id c).precedence := hc
    rw [descend, ih hf hoperand, Spine.climb, if_pos hclimb]
    rfl
  | binary id c left right _ ih =>
    obtain ⟨hc, hoperand⟩ := List.forall_mem_cons.1 hright
    have hclimb : precedence ≤ (Frame.binary id c left).precedence := hc
    rw [descend, ih hf.2 hoperand, Spine.climb, if_pos hclimb]
    rfl
  | group id o closed body _ =>
    obtain ⟨rfl, -⟩ := hf
    rfl
  | regroup id o closed discarded body _ _ =>
    obtain ⟨rfl, -⟩ := hf
    rfl

end Formula

end Sentential
