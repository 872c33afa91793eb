import Sentential.Proofs.Session.Environments

namespace Sentential.Linked

namespace Tree

/-- The proposition of a leaf. -/
def proposition? (t : Tree) (id : NodeId) : Option Proposition :=
  match t.vertices[id]? with
  | some (.leaf p) => some p
  | _ => none

/-- The first fault of a list of columns, of which each has to name a leaf with its atom. -/
def columnFault? (t : Tree) (seen : List NodeId) : List Symbol → Option TableError
  | [] => none
  | s :: rest =>
    if t.proposition? s.id ≠ some (.atom s.name) then some (.foreignSymbol s.name)
    else if s.id ∈ seen then some (.duplicateProposition s.name)
    else t.columnFault? (s.id :: seen) rest

/-- Why a list of columns is refused: for its length, or for its first fault. -/
def refusal? (t : Tree) (columns : List Symbol) : Option TableError :=
  if maxColumns < columns.length then some (.tooManyPropositions columns.length)
  else t.columnFault? [] columns

/-- The text behind which the formula below a node is written. -/
def renderOnto (t : Tree) (out : String) (id : NodeId) (n : Notation) : Except Halt String :=
  render t.vertices n t.renderingRounds [.visit id] out

end Tree

/-- The values that are kept at the leaves. All occurrences of an atom share one leaf. -/
abbrev Store := Array Bool

namespace Store

/-- The value of a leaf. Constants have their own. -/
def value (store : Store) (id : NodeId) : Proposition → Bool
  | .constant fixed => fixed
  | .atom _ => store[id]?.getD false

/-- Sets the value of a leaf. It has no effect on constants. -/
def setValue (store : Store) (id : NodeId) (p : Proposition) (value : Bool) : Store :=
  match p with
  | .constant _ => store
  | .atom _ => store.setIfInBounds id value

/-- Gives leaves the bits of a row index, the least significant bit to the last one. -/
def setRow (store : Store) (ids : List NodeId) (index : UInt32) : Store :=
  (ids.reverse.foldl
    (fun (store, index) id => (store.setIfInBounds id (index &&& 1 == 1), index >>> 1))
    (store, index)).1

end Store

/-- A tree with the values at its leaves. -/
structure Slot where
  tree : Tree
  store : Store

namespace Slot

/-- A tree just read: all leaves are false. -/
def ofTree (t : Tree) : Slot :=
  ⟨t, Array.replicate t.vertices.size false⟩

/-- The value of the formula below a node, and what its evaluation costs. -/
def evaluateAt (slot : Slot) (id : NodeId) : Except Halt (Bool × Nat) :=
  evaluate slot.tree.vertices Parsed.meter slot.store.value slot.tree.evaluationRounds [(id, false)] []
    0

/-- Visits the rows from a position on. Each row is written to the leaves before the formula is
    evaluated, and stays there until the next row is. -/
def visit (ids : List NodeId) (direction : Direction) (rows : UInt32) (flag : Flag) :
    (remaining : Nat) → (position : UInt32) → (spent : Nat) → (values : Array Bool) → Slot →
      Except Halt (Except TableError (Array Bool) × Slot)
  | 0, _, _, values, slot => .ok (.ok values, slot)
  | remaining + 1, position, spent, values, slot => do
    if flag values.size spent then return (.error (.cancelled values.size), slot)
    else
      let slot := { slot with store := slot.store.setRow ids (direction.index position rows) }
      let (value, cost) ← slot.evaluateAt slot.tree.root
      visit ids direction rows flag remaining (position + 1) (spent + cost) (values.push value) slot

/-- Evaluates the formula under every assignment of the columns. -/
def enumerate (slot : Slot) (columns : List Symbol) (direction : Direction) (flag : Flag) :
    Except Halt (Except TableError TruthTable × Slot) :=
  match slot.tree.refusal? columns with
  | some e => .ok (.error e, slot)
  | none => do
    let rows : UInt32 := 1 <<< columns.length.toUInt32
    let (result, slot) ← visit (columns.map Symbol.id) direction rows flag rows.toNat 0 0 #[] slot
    let formula ← slot.tree.renderOnto "" slot.tree.root .algebraic
    return (result.map fun values => ⟨columns.map Symbol.name, formula, direction, values⟩, slot)

end Slot

/-- Slots with trees in the order in which they came. -/
abbrev Slots := Array (Option Slot)

namespace Slots

/-- The trees that were read. A text that is no formula leaves its slot empty. -/
def start (results : List (Except Halt Tree)) : Slots :=
  (results.map fun result => result.toOption.map Slot.ofTree).toArray

/-- The tree and the values of a slot. -/
def slot? (slots : Slots) (index : Nat) : Option Slot :=
  slots[index]?.join

/-- The columns that are meant, unless they are those of an empty slot. -/
def columns? (slots : Slots) : Columns → Option (List Symbol)
  | .listed symbols => some symbols
  | .ordered index order => (slots.slot? index).map (·.tree.symbols.ordered order)

/-- Replies to an action on a slot by walking its tree and writing to its leaves. -/
def answer (slots : Slots) (index : Nat) (slot : Slot) : Action Flag → Except Halt (Reply × Slots)
  | .assign name value =>
    match slot.tree.symbols.get? name with
    | none => return (.truth false, slots)
    | some id =>
      match slot.tree.proposition? id with
      | none => return (.truth false, slots)
      | some p =>
        let slot := { slot with store := slot.store.setValue id p value }
        return (.truth true, slots.setIfInBounds index (some slot))
  | .setAt id value =>
    match slot.tree.proposition? id with
    | none => return (.leafValue none, slots)
    | some p =>
      let slot := { slot with store := slot.store.setValue id p value }
      return (.leafValue (some (slot.store.value id p)), slots.setIfInBounds index (some slot))
  | .evaluate => do
    let (value, _) ← slot.evaluateAt slot.tree.root
    return (.truth value, slots)
  | .evaluateAt id => do
    if id < slot.tree.vertices.size then
      let (value, _) ← slot.evaluateAt id
      return (.truth value, slots)
    else return (.noSuchNode, slots)
  | .render n => return (.text (← slot.tree.renderOnto "" slot.tree.root n), slots)
  | .renderAt id n => do
    if id < slot.tree.vertices.size then return (.text (← slot.tree.renderOnto "" id n), slots)
    else return (.noSuchNode, slots)
  | .renderOnto out id n => do
    if id < slot.tree.vertices.size then return (.text (← slot.tree.renderOnto out id n), slots)
    else return (.noSuchNode, slots)
  | .enumerate columns direction flag =>
    match slots.columns? columns with
    | none => return (.noFormula, slots)
    | some columns => do
      let (result, slot) ← slot.enumerate columns direction flag
      return (.table result, slots.setIfInBounds index (some slot))
  | .clone => return (.slot slots.size, slots.push (some slot))

/-- Replies to an action. An empty slot gives the same reply to all of them. -/
def step (slots : Slots) (index : Nat) (action : Action Flag) : Except Halt (Reply × Slots) :=
  match slots.slot? index with
  | some slot => slots.answer index slot action
  | none => return (.noFormula, slots)

/-- Replies to one action after the other. -/
def run (slots : Slots) : List (Nat × Action Flag) → Except Halt (List Reply × Slots)
  | [] => return ([], slots)
  | (index, action) :: rest => do
    let (reply, slots) ← slots.step index action
    let (replies, slots) ← run slots rest
    return (reply :: replies, slots)

end Slots

end Sentential.Linked
