import Sentential.Formula.Node

namespace Sentential

/-- An operator node whose right operand is still being read. -/
inductive Frame where
  | unary (id : NodeId) (connective : Connective)
  | binary (id : NodeId) (connective : Connective) (left : Formula NodeId)
  | group (id : NodeId) (opener : Opener)
  | regroup (id : NodeId) (opener : Opener) (discarded : Formula NodeId)

namespace Frame

/-- The frame of an operator in front of an operand. -/
def ofUnary (id : NodeId) : Operator → Frame
  | .connective c => unary id c
  | .opener o => group id o

/-- The frame of an operator behind an operand. -/
def ofBinary (id : NodeId) (left : Formula NodeId) : Operator → Frame
  | .connective c => binary id c left
  | .opener o => regroup id o left

/-- The precedence that an operator further right is compared with. -/
def precedence : Frame → Int
  | unary _ c => c.precedence
  | binary _ c _ => c.precedence
  | group .. => openPrecedence
  | regroup .. => openPrecedence

/-- Whether a right parenthesis can close the frame. -/
def isGroup : Frame → Bool
  | unary .. => false
  | binary .. => false
  | group .. => true
  | regroup .. => true

/-- The node with its right operand, where a group is closed or stays open. -/
def fill (closed : Bool) (operand : Formula NodeId) : Frame → Formula NodeId
  | unary id c => .unary id c operand
  | binary id c left => .binary id c left operand
  | group id o => .group id o closed operand
  | regroup id o discarded => .regroup id o closed discarded operand

end Frame

/-- The operators above the place where reading goes on, innermost first. Each is the right operand
    of the next one. -/
abbrev Spine := List Frame

namespace Spine

/-- Completes the operators that bind at least as tightly as a given precedence, from the innermost
    one up to the first that does not. What is left of the spine awaits the next operator. -/
def climb (precedence : Int) : Formula NodeId → Spine → Formula NodeId × Spine
  | operand, [] => (operand, [])
  | operand, frame :: rest =>
    if precedence ≤ frame.precedence then climb precedence (frame.fill false operand) rest
    else (operand, frame :: rest)

/-- Completes all operators up to the innermost open group and closes that group. -/
def close? : Formula NodeId → Spine → Option (Formula NodeId × Spine)
  | _, [] => none
  | operand, frame :: rest =>
    if frame.isGroup then some (frame.fill true operand, rest)
    else close? (frame.fill false operand) rest

/-- Whether some group is still open. -/
def hasGroup (spine : Spine) : Bool :=
  spine.any Frame.isGroup

/-- Completes all operators. Groups that are still open stay so. -/
def complete (operand : Formula NodeId) (spine : Spine) : Formula NodeId :=
  spine.foldl (fun operand frame => frame.fill false operand) operand

/-- A right parenthesis closes a group if one is open, and only then. The operand in front of it plays
    no part. -/
theorem isSome_close? (operand : Formula NodeId) (spine : Spine) :
    (close? operand spine).isSome = spine.hasGroup := by
  induction spine generalizing operand with
  | nil => rfl
  | cons frame rest ih =>
    unfold close?
    cases hgroup : frame.isGroup with
    | true => simp [hasGroup, hgroup]
    | false => simpa [hasGroup, hgroup] using ih (frame.fill false operand)

end Spine

end Sentential
