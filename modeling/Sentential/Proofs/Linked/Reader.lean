import Sentential.Parsed
import Sentential.Proofs.Parsing.Assembly

namespace Sentential.Linked

/-- Where a cell is in an array. Cells are put into the array in the order in which they are made. -/
abbrev Place := Nat

/-- A node that is being built. Links lead to its operands and to the cell above it, as far as these
    are known. A leaf can stand below many cells and has no links. -/
inductive Cell where
  | operator (connective : Connective) (left right above : Option Place)
  | group (opener : Opener) (closed : Bool) (right above : Option Place)
  | leaf (proposition : Proposition)
  deriving DecidableEq, Repr

namespace Cell

/-- A cell without links. -/
def ofOperator : Operator → Cell
  | .connective c => operator c none none none
  | .opener o => group o false none none

/-- The precedence that an operator further right is compared with. An open group binds less tightly
    than operators are meant to, and a closed one more tightly. -/
def precedence : Cell → Int
  | operator c .. => c.precedence
  | group _ closed .. => if closed then closedPrecedence else openPrecedence
  | leaf _ => closedPrecedence

/-- The link to the right operand, which is the only one that a group has. -/
def right? : Cell → Option Place
  | operator _ _ right _ => right
  | group _ _ right _ => right
  | leaf _ => none

/-- The link to the cell above. -/
def above? : Cell → Option Place
  | operator _ _ _ above => above
  | group _ _ _ above => above
  | leaf _ => none

/-- Whether the cell is a leaf. Leaves are never linked to what is above them. -/
def isLeaf : Cell → Bool
  | operator .. => false
  | group .. => false
  | leaf _ => true

/-- Whether the cell is a group that is still open. -/
def isOpen : Cell → Bool
  | operator .. => false
  | group _ closed .. => !closed
  | leaf _ => false

/-- Links the cell to a left operand. Only connectives have one. -/
def setLeft (left : Option Place) : Cell → Cell
  | operator c _ right above => operator c left right above
  | group o closed right above => group o closed right above
  | leaf p => leaf p

/-- Links the cell to a right operand. -/
def setRight (right : Place) : Cell → Cell
  | operator c left _ above => operator c left (some right) above
  | group o closed _ above => group o closed (some right) above
  | leaf p => leaf p

/-- Links the cell to the one above it. -/
def setAbove (above : Place) : Cell → Cell
  | operator c left right _ => operator c left right (some above)
  | group o closed right _ => group o closed right (some above)
  | leaf p => leaf p

/-- Closes a group. -/
def close : Cell → Cell
  | operator c left right above => operator c left right above
  | group o _ right above => group o true right above
  | leaf p => leaf p

end Cell

/-- The place of the cell above all others, which no token makes. -/
def rootPlace : Place := 0

/-- The operator of the cell above all others. It binds less tightly than an open group. -/
def rootConnective : Connective :=
  ⟨"", .unary, wholePrecedence, Rule.ofFunction fun _ right => right⟩

/-- Why there is no result: the text is no formula, or a link is broken. It is broken if it leads out
    of the array or a walk along links does not end. -/
inductive Halt where
  | fault (e : SyntaxError)
  | stuck
  deriving DecidableEq, Repr

private theorem exists_of_bind_eq_ok {ε α β : Type} {x : Except ε α} {f : α → Except ε β} {b : β}
    (h : x >>= f = .ok b) : ∃ a, x = .ok a ∧ f a = .ok b := by
  cases x with
  | error e => cases h
  | ok a => exact ⟨a, rfl, h⟩

/-- A result under a function comes from a result. Steps are taken apart with it. -/
theorem exists_of_map_eq_ok {ε α β : Type} {x : Except ε α} {f : α → β} {b : β}
    (h : x.map f = .ok b) : ∃ a, x = .ok a ∧ f a = b := by
  cases x with
  | error e => cases h
  | ok a => exact ⟨a, rfl, Except.ok.inj h⟩

/-- The cell at a place. -/
def fetch (cells : Array Cell) (place : Place) : Except Halt Cell :=
  match cells[place]? with
  | some cell => .ok cell
  | none => .error .stuck

/-- Changes the cell at a place. -/
def update (cells : Array Cell) (place : Place) (change : Cell → Cell) :
    Except Halt (Array Cell) :=
  if place < cells.size then .ok (cells.modify place change) else .error .stuck

/-- The nearest open group on the way up from a place. Following more links than there are cells
    means that the way does not end. -/
def openGroup? (cells : Array Cell) : (links : Nat) → Place → Except Halt (Option Place)
  | 0, _ => .error .stuck
  | links + 1, place => do
    let cell ← fetch cells place
    if cell.isOpen then return some place
    else
      match cell.above? with
      | some above => openGroup? cells links above
      | none => return none

/-- Goes up past the cells that bind at least as tightly as a precedence, and stops at the first one
    that does not or has no cell above it. -/
def climb (cells : Array Cell) (precedence : Int) : (links : Nat) → Place → Except Halt Place
  | 0, _ => .error .stuck
  | links + 1, place => do
    let cell ← fetch cells place
    if precedence ≤ cell.precedence then
      match cell.above? with
      | some above => climb cells precedence links above
      | none => return place
    else return place

/-- The cells made so far, the tip that the next operand goes below, and the leaves by their
    identifiers. -/
structure Builder where
  cells : Array Cell
  tip : Place
  leaves : Std.TreeMap String Place

namespace Builder

/-- The root alone. -/
def start : Builder :=
  ⟨#[.operator rootConnective none none none], rootPlace, ∅⟩

/-- The leaf of an identifier, which is made where the text names it first. -/
def leaf (b : Builder) (name : String) : Place × Builder :=
  match b.leaves[name]? with
  | some place => (place, b)
  | none =>
    (b.cells.size, ⟨b.cells.push (.leaf (.ofIdentifier name)), b.tip,
      b.leaves.insert name b.cells.size⟩)

/-- Puts an identifier below the tip. -/
def attach (b : Builder) (name : String) : Except Halt Builder := do
  let (place, b) := b.leaf name
  let cells ← update b.cells b.tip (·.setRight place)
  return ⟨cells, b.tip, b.leaves⟩

/-- Puts an operator in front of an operand below the tip, and makes it the tip. -/
def enter (b : Builder) (op : Operator) : Except Halt Builder := do
  let place := b.cells.size
  let cells ← update (b.cells.push (.ofOperator op)) b.tip (·.setRight place)
  let cells ← update cells place (·.setAbove b.tip)
  return ⟨cells, place, b.leaves⟩

/-- Closes the nearest open group if there is one. What is above it is the tip then. -/
def close? (b : Builder) : Except Halt (Option Builder) := do
  match ← openGroup? b.cells b.cells.size b.tip with
  | some place =>
    let cells ← update b.cells place Cell.close
    let cell ← fetch cells place
    return some ⟨cells, cell.above?.getD rootPlace, b.leaves⟩
  | none => return none

/-- Puts an operator behind the operands that bind at least as tightly. It takes their place below
    the cell where the climb stops, and they become its left operand. -/
def insert (b : Builder) (op : Operator) : Except Halt Builder := do
  let stop ← climb b.cells op.precedence b.cells.size b.tip
  let place := b.cells.size
  let cells := b.cells.push (.ofOperator op)
  let detached := (← fetch cells stop).right?
  let cells ← update cells stop (·.setRight place)
  let cells ← update cells place (·.setLeft detached)
  let cells ← update cells place (·.setAbove stop)
  match detached with
  | some child => return ⟨← update cells child (·.setAbove place), place, b.leaves⟩
  | none => return ⟨cells, place, b.leaves⟩

end Builder

/-- The state of reading a formula in place. -/
structure Reader where
  cursor : Cursor
  expected : Expectation
  builder : Builder

namespace Reader

variable {M : Type → Type} [PrefixMap M]

/-- The state at the start of a text. Only the cell above all others was made. -/
def start (text : List Char) : Reader :=
  ⟨Cursor.ofList text, .operand, Builder.start⟩

/-- Reads an identifier, or an operator in front of an operand. -/
def stepOperand (d : Dialect M) (cursor : Cursor) (b : Builder) : Except Halt Reader := do
  match cursor.peek? with
  | none => throw (.fault (.unexpectedEnd cursor.position))
  | some found =>
    match cursor.identifier? with
    | some (name, rest) => return ⟨rest, .operator, ← b.attach name⟩
    | none =>
      match cursor.symbol? d.unary with
      | some (op, rest) => return ⟨rest, .operand, ← b.enter op⟩
      | none =>
        if found = ')' then
          match ← openGroup? b.cells b.cells.size b.tip with
          | some _ => throw (.fault (.unknownUnaryOperator found cursor.position))
          | none => throw (.fault (.unmatchedRightParenthesis cursor.position))
        else throw (.fault (.unknownUnaryOperator found cursor.position))

/-- Reads a right parenthesis or an operator behind an operand. `found` is the next character. -/
def stepOperator (d : Dialect M) (found : Char) (cursor : Cursor) (b : Builder) :
    Except Halt Reader := do
  if found = ')' then
    match ← b.close? with
    | some b => return ⟨cursor.advance 1, .operator, b⟩
    | none => throw (.fault (.unmatchedRightParenthesis cursor.position))
  else
    match cursor.symbol? d.binary with
    | some (op, rest) => return ⟨rest, .operand, ← b.insert op⟩
    | none => throw (.fault (.unknownBinaryOperator found cursor.position))

/-- Reads the next token. There is none to read where the text ends behind an operand. -/
def step (d : Dialect M) (r : Reader) : Except Halt (Option Reader) :=
  let cursor := r.cursor.skipBlank
  match r.expected with
  | .operand => (stepOperand d cursor r.builder).map some
  | .operator =>
    match cursor.peek? with
    | none => .ok none
    | some found => (stepOperator d found cursor r.builder).map some

private theorem exists_token?_of_stepOperand {d : Dialect M} {cursor : Cursor} {b : Builder}
    {next : Reader} (h : stepOperand d cursor b = .ok next) :
    ∃ t, cursor.token? d .operand = some (t, next.cursor) := by
  unfold stepOperand at h
  unfold Cursor.token?
  cases hpeek : cursor.peek? with
  | none => simp [hpeek] at h
  | some found =>
    simp only [hpeek] at h ⊢
    cases hname : cursor.identifier? with
    | some taken =>
      obtain ⟨name, rest⟩ := taken
      simp only [hname] at h
      obtain ⟨b', -, hnext⟩ := exists_of_bind_eq_ok h
      obtain rfl := Except.ok.inj hnext
      exact ⟨_, rfl⟩
    | none =>
      simp only [hname] at h
      cases hsymbol : cursor.symbol? d.unary with
      | some taken =>
        obtain ⟨op, rest⟩ := taken
        simp only [hsymbol] at h
        obtain ⟨b', -, hnext⟩ := exists_of_bind_eq_ok h
        obtain rfl := Except.ok.inj hnext
        exact ⟨_, rfl⟩
      | none =>
        simp only [hsymbol] at h
        split at h
        · obtain ⟨place, -, hthrow⟩ := exists_of_bind_eq_ok h
          cases place <;> cases hthrow
        · cases h

private theorem exists_token?_of_stepOperator {d : Dialect M} {found : Char} {cursor : Cursor}
    {b : Builder} {next : Reader} (hpeek : cursor.peek? = some found)
    (h : stepOperator d found cursor b = .ok next) :
    ∃ t, cursor.token? d .operator = some (t, next.cursor) := by
  unfold stepOperator at h
  unfold Cursor.token?
  simp only [hpeek]
  split at h
  · rename_i hcloser
    obtain ⟨closed, -, hnext⟩ := exists_of_bind_eq_ok h
    cases closed with
    | none => cases hnext
    | some b' =>
      obtain rfl := Except.ok.inj hnext
      exact ⟨_, if_pos hcloser⟩
  · rename_i hcloser
    cases hsymbol : cursor.symbol? d.binary with
    | none => simp [hsymbol] at h
    | some taken =>
      obtain ⟨op, rest⟩ := taken
      simp only [hsymbol] at h
      obtain ⟨b', -, hnext⟩ := exists_of_bind_eq_ok h
      obtain rfl := Except.ok.inj hnext
      exact ⟨_, if_neg hcloser⟩

/-- A step takes the token at the cursor, which it asks for with what it expects. It is stated as for
    the reader of formulas, so that the two can be compared. -/
theorem exists_token?_of_step {d : Dialect M} {r next : Reader} (h : r.step d = .ok (some next)) :
    ∃ t, r.cursor.skipBlank.token? d r.expected = some (t, next.cursor) := by
  obtain ⟨cursor, expected, b⟩ := r
  cases expected with
  | operand =>
    obtain ⟨behind, hstep, heq⟩ := exists_of_map_eq_ok h
    obtain rfl := Option.some.inj heq
    exact exists_token?_of_stepOperand hstep
  | operator =>
    simp only [step] at h
    cases hpeek : cursor.skipBlank.peek? with
    | none => simp [hpeek] at h
    | some found =>
      simp only [hpeek] at h
      obtain ⟨behind, hstep, heq⟩ := exists_of_map_eq_ok h
      obtain rfl := Option.some.inj heq
      exact exists_token?_of_stepOperator hpeek hstep

/-- Every step takes at least one character. Reading therefore comes to an end for any text and any
    operators. -/
theorem length_remaining_step {d : Dialect M} {r next : Reader} (h : r.step d = .ok (some next)) :
    next.cursor.remaining.length < r.cursor.remaining.length := by
  obtain ⟨t, htoken⟩ := exists_token?_of_step h
  exact Nat.lt_of_lt_of_le (Cursor.length_remaining_token? htoken)
    (Cursor.length_remaining_skipBlank_le r.cursor)

end Reader

end Sentential.Linked
