import Sentential.Proofs.Linked.Reader

namespace Sentential.Linked

/-- A finished node, linked to others by their numbers. -/
inductive Vertex where
  | leaf (proposition : Proposition)
  | unary (connective : Connective) (right : NodeId) (parent : Option NodeId)
  | binary (connective : Connective) (left right : NodeId) (parent : Option NodeId)
  | group (opener : Opener) (closed : Bool) (right : NodeId) (parent : Option NodeId)
  deriving DecidableEq, Repr

/-- All nodes of a formula, each at its number, with the number of the outermost one. -/
structure Tree where
  vertices : Array Vertex
  root : NodeId
  symbols : SymbolTable

namespace Vertex

/-- The numbers of the operands, the left one first. -/
def operands : Vertex → List NodeId
  | leaf _ => []
  | unary _ right _ => [right]
  | binary _ left right _ => [left, right]
  | group _ _ right _ => [right]

/-- The symbol of a leaf that holds an atom. -/
def symbol? (id : NodeId) : Vertex → Option Symbol
  | leaf (.atom name) => some ⟨name, id⟩
  | _ => none

/-- The node with numbers in place of what is below it. -/
def ofNode (node : Node) : Vertex :=
  match node.formula with
  | .leaf _ p => leaf p
  | .unary _ c operand => unary c operand.label node.parent
  | .binary _ c left right => binary c left.label right.label node.parent
  | .group _ o closed body => group o closed body.label node.parent
  | .regroup _ o closed _ body => group o closed body.label node.parent

end Vertex

/-- The atoms of the leaves, each with the number of its leaf. -/
def symbolTable (vertices : List Vertex) : SymbolTable :=
  ⟨vertices.zipIdx.filterMap fun (vertex, id) => vertex.symbol? id⟩

/-- A formula as a tree of links. -/
def Tree.ofParsed (p : Parsed) : Tree :=
  ⟨p.nodes.map Vertex.ofNode, p.root, p.symbols⟩

/-- The number of the node at a place. The cell above all others has none. -/
def nodeId : Place → Except Halt NodeId
  | 0 => .error .stuck
  | place + 1 => .ok place

/-- The number that a link leads to. What is linked to the cell above all others is linked to no
    node. -/
def link (place : Option Place) : Except Halt (Option NodeId) :=
  match place.filter (· ≠ rootPlace) with
  | some place => (nodeId place).map some
  | none => .ok none

/-- The number of an operand, which has to be there. -/
def demand (e : SyntaxError) (place : Option Place) : Except Halt NodeId := do
  match ← link place with
  | some id => return id
  | none => throw (.fault e)

/-- Turns a cell into a node. A cell without its right operand is the fault `e`. -/
def freezeCell (e : SyntaxError) : Cell → Except Halt Vertex
  | .operator c (some left) right above => do
    return .binary c (← nodeId left) (← demand e right) (← link above)
  | .operator c none right above => do
    return .unary c (← demand e right) (← link above)
  | .group o closed right above => do
    return .group o closed (← demand e right) (← link above)
  | .leaf p => return .leaf p

/-- Turns all cells below the first one into nodes. -/
def freeze (cells : Array Cell) (position : Nat) : Except Halt Tree := do
  match ← fetch cells rootPlace with
  | .operator _ _ right _ =>
    let root ← demand (.unexpectedEnd position) right
    let vertices ← (cells.toList.drop 1).mapM (freezeCell (.unexpectedEnd position))
    return ⟨vertices.toArray, root, symbolTable vertices⟩
  | _ => throw (.fault (.unexpectedEnd position))

/-- Reads on to the end of the text. -/
def Reader.run {M : Type → Type} [PrefixMap M] (d : Dialect M) (r : Reader) : Except Halt Tree :=
  match _hstep : r.step d with
  | .error e => .error e
  | .ok none => freeze r.builder.cells r.cursor.skipBlank.position
  | .ok (some next) => next.run d
termination_by r.cursor.remaining.length
decreasing_by exact Reader.length_remaining_step _hstep

namespace Reader

variable {M : Type → Type} [PrefixMap M] {d : Dialect M} {r next : Reader}

/-- Where a step fails, reading fails. -/
theorem run_of_step_eq_error {e : Halt} (h : r.step d = .error e) : r.run d = .error e := by
  unfold run
  split <;> simp_all

/-- Where no token is left, the cells are made into a tree. -/
theorem run_of_step_eq_none (h : r.step d = .ok none) :
    r.run d = freeze r.builder.cells r.cursor.skipBlank.position := by
  unfold run
  split <;> simp_all

/-- Where a step goes on, reading goes on behind it. These three equations are used in place of the
    recursion. -/
theorem run_of_step_eq_some (h : r.step d = .ok (some next)) : r.run d = next.run d := by
  rw [run]
  split <;> simp_all

end Reader

/-- Reads a formula in some dialect by building its tree in place. -/
def read {M : Type → Type} [PrefixMap M] (d : Dialect M) (text : List Char) : Except Halt Tree :=
  (Reader.start text).run d

/-- Evaluates with a stack of nodes and a stack of values. A node waits on the first stack twice:
    until its operands are on the stack above it, and with the mark `true` until their values are
    there. `value` looks up the value of a leaf, and `spent` counts what the applications of connectives
    cost. A number out of range or a value that is missing is stuck, and so is an evaluation that takes
    more rounds. -/
def evaluate (vertices : Array Vertex) (price : NodeId → Connective → Nat)
    (value : NodeId → Proposition → Bool) :
    (rounds : Nat) → List (NodeId × Bool) → List Bool → (spent : Nat) → Except Halt (Bool × Nat)
  | 0, _, _, _ => .error .stuck
  | _ + 1, [], [], _ => .error .stuck
  | _ + 1, [], result :: _, spent => .ok (result, spent)
  | rounds + 1, (id, expanded) :: pending, values, spent =>
    match vertices[id]?, expanded, values with
    | none, _, _ => .error .stuck
    | some (.leaf p), _, values =>
      evaluate vertices price value rounds pending (value id p :: values) spent
    | some vertex, false, values =>
      evaluate vertices price value rounds (vertex.operands.map (·, false) ++ (id, true) :: pending)
        values spent
    | some (.binary c ..), true, right :: left :: values =>
      evaluate vertices price value rounds pending (c.rule.apply (some left) right :: values)
        (spent + price id c)
    | some (.unary c ..), true, right :: values =>
      evaluate vertices price value rounds pending (c.rule.apply none right :: values)
        (spent + price id c)
    | some (.group ..), true, values => evaluate vertices price value rounds pending values spent
    | some _, true, _ => .error .stuck

/-- A piece of a rendering that is still to be written. -/
inductive Task where
  | visit (id : NodeId)
  | emit (text : String)

/-- The pieces of a node in the order of the notation. -/
def Vertex.tasks : Notation → Vertex → List Task
  | _, leaf p => [.emit p.name]
  | .algebraic, unary c right _ => [.emit c.symbol, .visit right]
  | .polish, unary c right _ => [.emit c.symbol, .visit right]
  | .reversePolish, unary c right _ => [.visit right, .emit c.symbol]
  | .algebraic, binary c left right _ => [.visit left, .emit c.symbol, .visit right]
  | .polish, binary c left right _ => [.emit c.symbol, .visit left, .visit right]
  | .reversePolish, binary c left right _ => [.visit left, .visit right, .emit c.symbol]
  | .algebraic, group o _ right _ => [.emit o.symbol, .visit right, .emit ")"]
  | .polish, group _ _ right _ => [.visit right]
  | .reversePolish, group _ _ right _ => [.visit right]

/-- Writes the pieces behind a text, with a stack of pieces. A number out of range is stuck, and so is
    a rendering that takes more rounds. -/
def render (vertices : Array Vertex) (n : Notation) :
    (rounds : Nat) → List Task → String → Except Halt String
  | 0, _, _ => .error .stuck
  | _ + 1, [], out => .ok out
  | rounds + 1, .emit text :: pending, out => render vertices n rounds pending (out ++ text)
  | rounds + 1, .visit id :: pending, out =>
    match vertices[id]? with
    | none => .error .stuck
    | some vertex => render vertices n rounds (vertex.tasks n ++ pending) out

end Sentential.Linked
