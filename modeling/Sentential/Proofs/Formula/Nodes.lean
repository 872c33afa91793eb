import Sentential.Proofs.Formula.Tokens
import Sentential.SymbolTable

namespace Sentential.Formula

/-- The token that the outermost node is written as. -/
def token {ι : Type} : Formula ι → Token
  | leaf _ p => .operand p
  | unary _ c _ => .connective c
  | binary _ c _ _ => .connective c
  | group _ o _ _ => .opener o
  | regroup _ o _ _ _ => .opener o

/-- The nodes of a formula in reading order, where every occurrence of a leaf counts. -/
def walk (parent : Option NodeId) (f : Formula NodeId) : List Node :=
  match f with
  | leaf .. => [⟨f, none⟩]
  | unary id _ operand => ⟨f, parent⟩ :: operand.walk (some id)
  | binary id _ left right => left.walk (some id) ++ ⟨f, parent⟩ :: right.walk (some id)
  | group id _ _ body => ⟨f, parent⟩ :: body.walk (some id)
  | regroup id _ _ discarded body => discarded.walk (some id) ++ ⟨f, parent⟩ :: body.walk (some id)

/-- What is written for a node, with its number. -/
def labelledToken (node : Node) : Option NodeId × Token :=
  (some node.formula.label, node.formula.token)

private theorem filter_labelledTokens_closing (closed : Bool) :
    ((closing closed).map ((none : Option NodeId), ·)).filter (·.1.isSome) = [] := by
  cases closed <;> rfl

/-- The nodes in reading order are the tokens in reading order, less the right parentheses. Only these
    belong to no node. -/
theorem map_walk (parent : Option NodeId) (f : Formula NodeId) :
    (f.walk parent).map labelledToken = f.labelledTokens.filter (·.1.isSome) := by
  induction f generalizing parent with
  | leaf id p => rfl
  | unary id c operand ih =>
    rw [walk, List.map_cons, ih]
    rfl
  | binary id c left right ihl ihr =>
    rw [walk, List.map_append, List.map_cons, ihl, ihr, labelledTokens, List.filter_append]
    rfl
  | group id o closed body ih =>
    rw [walk, List.map_cons, ih, labelledTokens, List.filter_cons_of_pos rfl, List.filter_append,
      filter_labelledTokens_closing, List.append_nil]
    rfl
  | regroup id o closed discarded body ihd ih =>
    rw [walk, List.map_append, List.map_cons, ihd, ih, labelledTokens, List.filter_append,
      List.filter_cons_of_pos rfl, List.filter_append, filter_labelledTokens_closing,
      List.append_nil]
    rfl

/-- Every node is written as one of the tokens, with its number. Facts about numbers of tokens are facts
    about numbers of nodes. -/
theorem labelledToken_mem_of_mem_walk {parent : Option NodeId} {f : Formula NodeId} {node : Node}
    (h : node ∈ f.walk parent) : labelledToken node ∈ f.labelledTokens := by
  have hmem := List.mem_map_of_mem (f := labelledToken) h
  rw [map_walk] at hmem
  exact (List.mem_filter.1 hmem).1

/-- The nodes that a task of a walk goes through. -/
def Visit.walk : Visit → List Node
  | through parent f => f.walk parent
  | record node => [node]

private theorem flatMap_walk_visits (parent : Option NodeId) (f : Formula NodeId) :
    (f.visits parent).flatMap Visit.walk = f.walk parent := by
  cases f <;> simp [visits, Visit.walk, Formula.walk]

/-- Puts a node behind those that are at their places, if its number is the next one. -/
def record (nodes : Array Node) (node : Node) : Array Node :=
  if node.formula.label = nodes.size then nodes.push node else nodes

/-- Collecting nodes from a stack of tasks is recording, one by one, the nodes that the tasks go
    through. The order is the reading order. -/
theorem collect_eq_foldl (tasks : List Visit) (nodes : Array Node) :
    collect tasks nodes = (tasks.flatMap Visit.walk).foldl record nodes := by
  induction tasks, nodes using collect.induct with
  | case1 nodes => simp [collect]
  | case2 node rest nodes ih =>
    rw [collect]
    exact ih
  | case3 parent f rest nodes ih =>
    rw [collect, ih, List.flatMap_append, flatMap_walk_visits]
    rfl

/-- Every node stands at its number, and all nodes in the array are nodes of the formula. It takes no
    assumption on how the formula was numbered. -/
theorem mem_walk_of_getElem?_nodes {f : Formula NodeId} {id : NodeId} {node : Node}
    (h : f.nodes[id]? = some node) : node ∈ f.walk none ∧ node.formula.label = id := by
  have hfold : ∀ (walked : List Node) (nodes : Array Node),
      (∀ id node, nodes[id]? = some node → node ∈ f.walk none ∧ node.formula.label = id) →
      (∀ node ∈ walked, node ∈ f.walk none) →
      ∀ id node, (walked.foldl record nodes)[id]? = some node →
        node ∈ f.walk none ∧ node.formula.label = id := by
    intro walked
    induction walked with
    | nil => exact fun nodes hnodes _ => hnodes
    | cons first rest ih =>
      intro nodes hnodes hwalked
      refine ih _ ?_ (fun node hnode => hwalked node (List.mem_cons_of_mem first hnode))
      intro id node hnode
      unfold record at hnode
      split at hnode
      · rename_i hnext
        rw [Array.getElem?_push] at hnode
        split at hnode
        · rename_i hlast
          obtain rfl := Option.some.inj hnode
          exact ⟨hwalked first List.mem_cons_self, hnext.trans hlast.symm⟩
        · exact hnodes id node hnode
      · exact hnodes id node hnode
  rw [nodes, collect_eq_foldl] at h
  exact hfold _ #[] (by simp) (by simp [Visit.walk]) id node h

end Sentential.Formula

namespace Sentential

/-- The node with its formula changed. -/
def Node.over (F : Formula NodeId → Formula NodeId) (node : Node) : Node :=
  ⟨F node.formula, node.parent⟩

/-- A change of formulas, node by node, that keeps the numbers, the links and the symbols. -/
structure Formula.KeepsLinks (F : Formula NodeId → Formula NodeId) : Prop where
  label_eq (f : Formula NodeId) : (F f).label = f.label
  left?_eq (f : Formula NodeId) : (F f).left? = f.left?.map F
  right?_eq (f : Formula NodeId) : (F f).right? = f.right?.map F
  symbol?_eq (node : Node) : (node.over F).symbol? = node.symbol?
  walk_eq (parent : Option NodeId) (f : Formula NodeId) :
    (F f).walk parent = (f.walk parent).map (Node.over F)

namespace Formula.KeepsLinks

variable {F : Formula NodeId → Formula NodeId}

/-- A change that keeps links leaves the left link of every node alone. -/
theorem left_over (h : KeepsLinks F) (node : Node) : (node.over F).left = node.left := by
  rw [Node.left, Node.over, h.left?_eq, Option.map_map, Node.left]
  exact congrArg (fun label => node.formula.left?.map label) (funext h.label_eq)

/-- A change that keeps links leaves the right link of every node alone. -/
theorem right_over (h : KeepsLinks F) (node : Node) : (node.over F).right = node.right := by
  rw [Node.right, Node.over, h.right?_eq, Option.map_map, Node.right]
  exact congrArg (fun label => node.formula.right?.map label) (funext h.label_eq)

private theorem record_over (h : KeepsLinks F) (nodes : Array Node) (node : Node) :
    record (nodes.map (Node.over F)) (node.over F) = (record nodes node).map (Node.over F) := by
  unfold record
  rw [Node.over, h.label_eq, Array.size_map]
  split
  · rw [Array.map_push]
    rfl
  · rfl

/-- No node is added, and every one stays at its number. The array of the changed formula is the old one
    with the formula of each node changed. -/
theorem nodes_eq (h : KeepsLinks F) (f : Formula NodeId) :
    (F f).nodes = f.nodes.map (Node.over F) := by
  have hfold : ∀ (walked : List Node) (nodes : Array Node),
      (walked.map (Node.over F)).foldl record (nodes.map (Node.over F)) =
        (walked.foldl record nodes).map (Node.over F) := by
    intro walked
    induction walked with
    | nil => exact fun nodes => rfl
    | cons node rest ih =>
      intro nodes
      rw [List.map_cons, List.foldl_cons, h.record_over]
      exact ih _
  rw [nodes, nodes, collect_eq_foldl, collect_eq_foldl, List.flatMap_singleton, List.flatMap_singleton,
    Visit.walk, Visit.walk, h.walk_eq]
  have hwalk := hfold (f.walk none) #[]
  rwa [Array.map_empty] at hwalk

/-- A change that keeps links keeps the number of nodes. No number is given up or made anew. -/
theorem size_nodes (h : KeepsLinks F) (f : Formula NodeId) : (F f).nodes.size = f.nodes.size := by
  rw [h.nodes_eq, Array.size_map]

/-- The changed formula has the changed node at the same number. Its parent is the same. -/
theorem getElem?_nodes (h : KeepsLinks F) {f : Formula NodeId} {id : NodeId} {node : Node}
    (hnode : f.nodes[id]? = some node) : (F f).nodes[id]? = some (node.over F) := by
  rw [h.nodes_eq, Array.getElem?_map, hnode]
  rfl

/-- A change that keeps links leaves the symbol table alone, because that is made of the propositions
    and numbers of leaves. -/
theorem ofNodes_eq (h : KeepsLinks F) (f : Formula NodeId) :
    SymbolTable.ofNodes (F f).nodes = SymbolTable.ofNodes f.nodes := by
  rw [h.nodes_eq, SymbolTable.ofNodes, SymbolTable.ofNodes, Array.toList_map, List.filterMap_map]
  exact congrArg (fun symbol? => SymbolTable.mk (f.nodes.toList.filterMap symbol?))
    (funext h.symbol?_eq)

end Formula.KeepsLinks

end Sentential
