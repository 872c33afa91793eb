import Sentential.TruthTable.Enumeration

namespace Sentential

/-- A formula with the current values of its atoms. -/
structure Slot where
  parsed : Parsed
  valuation : Valuation

/-- A node with the current value of its proposition, if it has one. -/
structure NodeReport where
  node : Node
  value : Option Bool

namespace Slot

/-- A formula just read: all atoms are false. -/
def ofParsed (p : Parsed) : Slot :=
  ⟨p, Valuation.allFalse⟩

/-- The node and its current value. -/
def report (slot : Slot) (node : Node) : NodeReport :=
  ⟨node, node.proposition?.map (·.value slot.valuation)⟩

/-- Gives an atom of the formula a value. Another name changes nothing and is answered by `false`. -/
def assign (slot : Slot) (name : String) (value : Bool) : Bool × Slot :=
  match slot.parsed.symbols.get? name with
  | some _ => (true, { slot with valuation := slot.valuation.set name value })
  | none => (false, slot)

/-- Gives the atom of a leaf a value and answers the value that the leaf has then. Constants keep
    theirs, and nodes that are no leaf have none. -/
def setAt (slot : Slot) (id : NodeId) (value : Bool) : Option Bool × Slot :=
  match slot.parsed.nodes[id]?.bind Node.proposition? with
  | none => (none, slot)
  | some (.constant fixed) => (some fixed, slot)
  | some (.atom name) => (some value, { slot with valuation := slot.valuation.set name value })

/-- The atoms by name with their values. -/
def values (slot : Slot) : List (String × Bool) :=
  (slot.parsed.symbols.ordered .name).map fun s => (s.name, slot.valuation s.name)

end Slot

/-- The columns of a table: listed one by one, or the symbols of some slot in some order. -/
inductive Columns where
  | listed (symbols : List Symbol)
  | ordered (slot : Nat) (order : SymbolOrder)

/-- What can be asked of one slot of a session. -/
inductive Command where
  | nodes
  | node (id : NodeId)
  | parent (id : NodeId)
  | assign (name : String) (value : Bool)
  | setAt (id : NodeId) (value : Bool)
  | values
  | evaluate
  | evaluateAt (id : NodeId)
  | render (n : Notation)
  | renderAt (id : NodeId) (n : Notation)
  | renderOnto (out : String) (id : NodeId) (n : Notation)
  | lookup (name : String)
  | symbols (order : SymbolOrder)
  | sameSymbols (slot : Nat)
  | enumerate (columns : Columns) (direction : Direction) (limit : Option Nat)
  | clone

/-- The answers to commands. -/
inductive Reply where
  | nodes (reports : List NodeReport)
  | node (report : Option NodeReport)
  | id (id : Option NodeId)
  | truth (value : Bool)
  | leafValue (value : Option Bool)
  | values (list : List (String × Bool))
  | text (text : String)
  | symbols (table : SymbolTable) (listed : List Symbol)
  | table (result : Except TableError TruthTable)
  | slot (index : Nat)
  /-- There is no node of this number to start from. -/
  | noSuchNode
  /-- The slot does not exist or holds no formula. -/
  | noFormula

/-- Slots in the order in which they came. A text that is no formula leaves its slot empty. -/
abbrev Session := Array (Option Slot)

namespace Session

/-- The slot of a number if it holds a formula. -/
def slot? (session : Session) (index : Nat) : Option Slot :=
  session[index]?.join

/-- The subformula below a node. -/
def subformula? (slot : Slot) (id : NodeId) : Option (Formula NodeId) :=
  slot.parsed.nodes[id]?.map Node.formula

/-- The symbols that are meant by a choice of columns, unless they are those of an empty slot. -/
def columns? (session : Session) : Columns → Option (List Symbol)
  | .listed symbols => some symbols
  | .ordered index order => (session.slot? index).map (·.parsed.symbols.ordered order)

/-- Answers a command to a slot, which holds `slot`. -/
def answer (session : Session) (index : Nat) (slot : Slot) : Command → Reply × Session
  | .nodes => (.nodes (slot.parsed.nodes.toList.map slot.report), session)
  | .node id => (.node (slot.parsed.nodes[id]?.map slot.report), session)
  | .parent id => (.id (slot.parsed.nodes[id]?.bind Node.parent), session)
  | .assign name value =>
    let (found, slot) := slot.assign name value
    (.truth found, session.setIfInBounds index (some slot))
  | .setAt id value =>
    let (value, slot) := slot.setAt id value
    (.leafValue value, session.setIfInBounds index (some slot))
  | .values => (.values slot.values, session)
  | .evaluate => (.truth (slot.parsed.formula.evaluate slot.valuation), session)
  | .evaluateAt id =>
    match subformula? slot id with
    | some f => (.truth (f.evaluate slot.valuation), session)
    | none => (.noSuchNode, session)
  | .render n => (.text (slot.parsed.formula.render n), session)
  | .renderAt id n =>
    match subformula? slot id with
    | some f => (.text (f.render n), session)
    | none => (.noSuchNode, session)
  | .renderOnto out id n =>
    match subformula? slot id with
    | some f => (.text (f.renderOnto out n), session)
    | none => (.noSuchNode, session)
  | .lookup name => (.id (slot.parsed.symbols.get? name), session)
  | .symbols order => (.symbols slot.parsed.symbols (slot.parsed.symbols.ordered order), session)
  | .sameSymbols other =>
    match session.slot? other with
    | some other => (.truth (slot.parsed.symbols = other.parsed.symbols), session)
    | none => (.noFormula, session)
  | .enumerate columns direction limit =>
    match session.columns? columns with
    | some columns =>
      let (result, v) := slot.parsed.enumerate columns direction limit slot.valuation
      (.table result, session.setIfInBounds index (some { slot with valuation := v }))
    | none => (.noFormula, session)
  | .clone => (.slot session.size, session.push (some slot))

/-- Carries out a command on a slot. -/
def step (session : Session) (index : Nat) (command : Command) : Reply × Session :=
  match session.slot? index with
  | some slot => session.answer index slot command
  | none => (.noFormula, session)

/-- The session that starts with the results of reading some texts. -/
def start (results : List (Except SyntaxError Parsed)) : Session :=
  (results.map fun result => result.toOption.map Slot.ofParsed).toArray

/-- Carries out commands one after the other. -/
def run (session : Session) : List (Nat × Command) → List Reply × Session
  | [] => ([], session)
  | (index, command) :: rest =>
    let (reply, session) := session.step index command
    let (replies, session) := session.run rest
    (reply :: replies, session)

end Session

end Sentential
