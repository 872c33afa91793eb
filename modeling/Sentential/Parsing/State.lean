import Sentential.Cursor
import Sentential.Operator.Dialect
import Sentential.Parsing.Numbering
import Sentential.Parsing.Spine
import Sentential.Parsing.SyntaxError

namespace Sentential

/-- What may come next: an operand, or an operator behind an operand just read. -/
inductive Due where
  | operand
  | operator (left : Formula NodeId)

/-- The state of reading a formula. -/
structure ParseState where
  cursor : Cursor
  numbering : Numbering
  spine : Spine
  due : Due

namespace ParseState

variable {M : Type → Type} [PrefixMap M]

/-- The state at the start of a text. -/
def start (text : List Char) : ParseState :=
  ⟨Cursor.ofList text, Numbering.empty, [], .operand⟩

/-- Reads an identifier, or an operator in front of an operand. -/
def stepOperand (d : Dialect M) (cursor : Cursor) (numbering : Numbering) (spine : Spine) :
    Except SyntaxError ParseState :=
  match cursor.peek? with
  | none => .error (.unexpectedEnd cursor.position)
  | some found =>
    match cursor.identifier? with
    | some (name, rest) =>
      let (id, numbering) := numbering.leaf name
      .ok ⟨rest, numbering, spine, .operator (.leaf id (.ofIdentifier name))⟩
    | none =>
      match cursor.symbol? d.unary with
      | some (op, rest) =>
        let (id, numbering) := numbering.operator
        .ok ⟨rest, numbering, .ofUnary id op :: spine, .operand⟩
      | none =>
        if found = ')' ∧ spine.hasGroup = false then
          .error (.unmatchedRightParenthesis cursor.position)
        else .error (.unknownUnaryOperator found cursor.position)

/-- Reads a right parenthesis, which closes the innermost open group, or a binary operator, which
    takes as its left operand all that binds at least as tightly. `found` is the next character. -/
def stepOperator (d : Dialect M) (found : Char) (cursor : Cursor) (numbering : Numbering)
    (spine : Spine) (left : Formula NodeId) : Except SyntaxError ParseState :=
  if found = ')' then
    match spine.close? left with
    | some (group, spine) => .ok ⟨cursor.advance 1, numbering, spine, .operator group⟩
    | none => .error (.unmatchedRightParenthesis cursor.position)
  else
    match cursor.symbol? d.binary with
    | some (op, rest) =>
      let (left, spine) := spine.climb op.precedence left
      let (id, numbering) := numbering.operator
      .ok ⟨rest, numbering, .ofBinary id left op :: spine, .operand⟩
    | none => .error (.unknownBinaryOperator found cursor.position)

/-- Reads the next token. There is none to read when the text ends behind an operand: then the
    answer is the whole formula. -/
def step (d : Dialect M) (s : ParseState) : Except SyntaxError (Formula NodeId ⊕ ParseState) :=
  let cursor := s.cursor.skipBlank
  match s.due with
  | .operand => (stepOperand d cursor s.numbering s.spine).map .inr
  | .operator left =>
    match cursor.peek? with
    | none => .ok (.inl (s.spine.complete left))
    | some found => (stepOperator d found cursor s.numbering s.spine left).map .inr

/-- What begins an operand takes at least one character. -/
private theorem length_remaining_stepOperand {d : Dialect M} {cursor : Cursor} {numbering : Numbering}
    {spine : Spine} {next : ParseState} (h : stepOperand d cursor numbering spine = .ok next) :
    next.cursor.remaining.length < cursor.remaining.length := by
  unfold stepOperand at h
  cases hpeek : cursor.peek? with
  | none => simp [hpeek] at h
  | some found =>
    simp only [hpeek] at h
    cases hname : cursor.identifier? with
    | some taken =>
      obtain ⟨name, rest⟩ := taken
      simp only [hname, Except.ok.injEq] at h
      subst h
      exact Cursor.length_remaining_identifier? hname
    | none =>
      simp only [hname] at h
      cases hsymbol : cursor.symbol? d.unary with
      | some taken =>
        obtain ⟨op, rest⟩ := taken
        simp only [hsymbol, Except.ok.injEq] at h
        subst h
        exact Cursor.length_remaining_symbol? hpeek hsymbol
      | none =>
        simp only [hsymbol] at h
        split at h <;> cases h

/-- What follows an operand takes at least one character. -/
private theorem length_remaining_stepOperator {d : Dialect M} {found : Char} {cursor : Cursor}
    {numbering : Numbering} {spine : Spine} {left : Formula NodeId} {next : ParseState}
    (hpeek : cursor.peek? = some found)
    (h : stepOperator d found cursor numbering spine left = .ok next) :
    next.cursor.remaining.length < cursor.remaining.length := by
  unfold stepOperator at h
  split at h
  · cases hclose : spine.close? left with
    | none => simp [hclose] at h
    | some closed =>
      obtain ⟨group, spine⟩ := closed
      simp only [hclose, Except.ok.injEq] at h
      subst h
      exact Cursor.length_remaining_advance_lt hpeek Nat.one_pos
  · cases hsymbol : cursor.symbol? d.binary with
    | none => simp [hsymbol] at h
    | some taken =>
      obtain ⟨op, rest⟩ := taken
      simp only [hsymbol, Except.ok.injEq] at h
      subst h
      exact Cursor.length_remaining_symbol? hpeek hsymbol

/-- Every token takes at least one character. Reading therefore ends, whatever the operators are. -/
theorem length_remaining_step {d : Dialect M} {s next : ParseState}
    (h : step d s = .ok (.inr next)) :
    next.cursor.remaining.length < s.cursor.remaining.length := by
  refine Nat.lt_of_lt_of_le ?_ (Cursor.length_remaining_skipBlank_le s.cursor)
  unfold step at h
  cases hdue : s.due with
  | operand =>
    simp only [hdue] at h
    cases hstep : stepOperand d s.cursor.skipBlank s.numbering s.spine with
    | error e => simp [hstep, Except.map] at h
    | ok state =>
      simp only [hstep, Except.map, Except.ok.injEq, Sum.inr.injEq] at h
      subst h
      exact length_remaining_stepOperand hstep
  | operator left =>
    simp only [hdue] at h
    cases hpeek : s.cursor.skipBlank.peek? with
    | none => simp [hpeek] at h
    | some found =>
      simp only [hpeek] at h
      cases hstep : stepOperator d found s.cursor.skipBlank s.numbering s.spine left with
      | error e => simp [hstep, Except.map] at h
      | ok state =>
        simp only [hstep, Except.map, Except.ok.injEq, Sum.inr.injEq] at h
        subst h
        exact length_remaining_stepOperator hpeek hstep

/-- Reads on to the end of the text. -/
def run (d : Dialect M) (s : ParseState) : Except SyntaxError (Formula NodeId) :=
  match _hstep : step d s with
  | .error e => .error e
  | .ok (.inl f) => .ok f
  | .ok (.inr next) => run d next
termination_by s.cursor.remaining.length
decreasing_by exact length_remaining_step _hstep

end ParseState

end Sentential
