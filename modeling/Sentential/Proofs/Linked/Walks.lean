import Mathlib.Data.List.Perm.Subperm
import Sentential.Proofs.Linked.Reading
import Sentential.Proofs.Linked.Stacks

namespace Sentential

/-- Whether the node is no leaf. -/
def Node.isOperator (node : Node) : Bool :=
  node.proposition?.isNone

namespace Formula

/-- The nodes that are no leaves, each of which has at most two operands, bound the size. Leaves cannot
    be counted by their numbers, since occurrences share them. -/
theorem size_le_countP_walk (parent : Option NodeId) (f : Formula NodeId) :
    f.size ≤ 2 * (f.walk parent).countP Node.isOperator + 1 := by
  induction f generalizing parent with
  | leaf id p => exact Nat.le_add_left 1 _
  | unary id c operand ih | group id o closed operand ih =>
    have hoperand := ih (some id)
    simp only [walk, size, List.countP_cons, Node.isOperator, Node.proposition?, Option.isNone_none,
      if_true]
    omega
  | binary id c left right ihl ihr | regroup id o closed left right ihl ihr =>
    have hleft := ihl (some id)
    have hright := ihr (some id)
    simp only [walk, size, List.countP_append, List.countP_cons, Node.isOperator, Node.proposition?,
      Option.isNone_none, if_true]
    omega

/-- The numbers of the nodes that are no leaves, in reading order. -/
def operators (parent : Option NodeId) (f : Formula NodeId) : List NodeId :=
  ((f.walk parent).filter Node.isOperator).map fun node => node.formula.label

/-- Each operator has a number of its own. -/
theorem WellNumbered.nodup_operators {f : Formula NodeId} (h : f.WellNumbered) :
    (f.operators none).Nodup := by
  have hpairwise := h.pairwise.filter (·.1.isSome)
  rw [← f.map_walk none, List.pairwise_map] at hpairwise
  refine List.pairwise_map.2 ((hpairwise.filter _).imp_of_mem fun {m n} hm _ hmn hlabel => ?_)
  obtain ⟨p, q, hp, -⟩ := hmn _ rfl (congrArg some hlabel.symm)
  have hoperator := (List.mem_filter.1 hm).2
  obtain ⟨g, parent⟩ := m
  cases g with
  | leaf id p => cases hoperator
  | _ => cases hp

/-- There are no more operators than numbers, since no two of them share one. -/
private theorem WellNumbered.countP_walk_le {f : Formula NodeId} (h : f.WellNumbered) :
    (f.walk none).countP Node.isOperator ≤ f.nodes.size := by
  have hsubset : f.operators none ⊆ List.range f.nodes.size := by
    intro id hid
    obtain ⟨node, hnode, rfl⟩ := List.mem_map.1 hid
    exact List.mem_range.2 (h.lt_size_of_mem_walk (List.mem_filter.1 hnode).1)
  have hlength := (h.nodup_operators.subperm hsubset).length_le
  rwa [operators, List.length_map, List.length_range, ← List.countP_eq_length_filter] at hlength

/-- A part of a formula is not much larger than the array of all nodes, in which leaves are shared. The
    rounds that a walk may take are counted by the array. -/
theorem WellNumbered.size_le {f : Formula NodeId} (h : f.WellNumbered) {node : Node}
    (hnode : node ∈ f.walk none) : node.formula.size ≤ 2 * f.nodes.size + 1 := by
  have hpart := size_le_countP_walk node.parent node.formula
  have hwhole := (walk_sublist_of_mem_walk hnode).countP_le (p := Node.isOperator)
  have hall := h.countP_walk_le
  omega

end Formula

namespace Linked

variable {M : Type → Type} [PrefixMap M]

/-- The nodes of a formula are the vertices of its tree, each at its number. It holds under any
    registry, also of operators that were not validated. -/
theorem shows_of_parseWith {d : Dialect M} {text : List Char} {p : Parsed}
    (h : parseWith d text = .ok p) : Shows (Tree.ofParsed p).vertices none p.formula := by
  have hnumbered := Formula.wellNumbered_of_parseWith h
  have hrun := (Follows.start text).run d
  unfold parseWith at h
  cases houtcome : (ParseState.start text).run d with
  | error e => simp [houtcome, Except.map] at h
  | ok f =>
    obtain rfl := by simpa [houtcome, Except.map] using h
    simp only [houtcome] at hrun
    obtain ⟨cells, -, -, hstores⟩ := hrun
    intro node hnode
    have hcell := hstores.getElem?_succ hnode
    have hcells := congrArg (fun entries => entries[node.formula.label]?) (hstores.drop_one_eq hnumbered)
    simp only [List.getElem?_drop, List.getElem?_map, Array.getElem?_toList] at hcells
    rw [Nat.add_comm, hcell] at hcells
    obtain ⟨found, hfound, hsame⟩ := Option.map_eq_some_iff.1 hcells.symm
    have hvertex : Vertex.ofNode found = Vertex.ofNode node := by
      have hfrozen := freezeCell_cell (.unexpectedEnd 0) found
      rw [hsame, freezeCell_cell] at hfrozen
      exact (Except.ok.inj hfrozen).symm
    simp [Tree.ofParsed, Parsed.ofFormula, hfound, hvertex]

/-- The rounds that evaluating a part of a formula takes at most. -/
def Tree.evaluationRounds (t : Tree) : Nat :=
  4 * t.vertices.size + 3

/-- The rounds that writing a part of a formula takes at most. -/
def Tree.renderingRounds (t : Tree) : Nat :=
  6 * t.vertices.size + 4

/-- A walk from a node comes to an end, and the node stands for a formula: it has its truth value,
    whatever the leaves hold, and its text. -/
structure Tree.Walks (t : Tree) (id : NodeId) (f : Formula NodeId) : Prop where
  evaluate : ∀ price value, evaluate t.vertices price value t.evaluationRounds [(id, false)] [] 0 =
    .ok (f.truthAt value, f.cost price)
  render : ∀ n out, render t.vertices n t.renderingRounds [.visit id] out = .ok (f.renderOnto out n)

/-- A formula that is not too large can be walked through where all its nodes are in the tree. Both
    walks end within the rounds that the tree allows them. -/
theorem Shows.walks {t : Tree} {f : Formula NodeId} {parent : Option NodeId}
    (h : Shows t.vertices parent f) (hsize : f.size ≤ 2 * t.vertices.size + 1) :
    t.Walks f.label f := by
  refine ⟨fun price value => ?_, fun n out => ?_⟩
  · obtain ⟨rounds, hrounds, hevaluate⟩ := h.exists_evaluate price value
    obtain ⟨more, hmore⟩ : ∃ more, t.evaluationRounds = more + 1 + rounds :=
      ⟨t.evaluationRounds - 1 - rounds, by unfold Tree.evaluationRounds; omega⟩
    rw [hmore, hevaluate, Nat.zero_add]
    rfl
  · obtain ⟨rounds, hrounds, hrender⟩ := h.exists_render n
    obtain ⟨more, hmore⟩ : ∃ more, t.renderingRounds = more + 1 + rounds :=
      ⟨t.renderingRounds - 1 - rounds, by unfold Tree.renderingRounds; omega⟩
    rw [hmore, hrender]
    rfl

/-- A tree can be walked from each of its nodes, which stand for the parts of a formula. -/
structure Tree.Walkable (t : Tree) (p : Parsed) : Prop where
  exists_node : ∀ {id : NodeId}, id < t.vertices.size → ∃ node, p.nodes[id]? = some node
  walks : ∀ {id : NodeId} {node : Node}, p.nodes[id]? = some node → t.Walks id node.formula
  walks_root : t.Walks t.root p.formula

/-- A tree that was read can be walked from each of its nodes, by evaluations and by renderings. No walk
    is stuck, and none needs more rounds than there are. -/
theorem walkable_of_parseWith {d : Dialect M} {text : List Char} {p : Parsed}
    (h : parseWith d text = .ok p) : (Tree.ofParsed p).Walkable p := by
  have hshows := shows_of_parseWith h
  have hsize : ∀ {node : Node}, node ∈ p.formula.walk none →
      node.formula.size ≤ 2 * (Tree.ofParsed p).vertices.size + 1 := by
    intro node hmem
    have hle := (Formula.wellNumbered_of_parseWith h).size_le hmem
    rwa [← p.nodes_eq, ← Array.size_map] at hle
  refine ⟨fun {id} hid => ?_, fun {id node} hnode => ?_, ?_⟩
  · have hlt : id < p.nodes.size := by simpa [Tree.ofParsed] using hid
    exact ⟨_, Array.getElem?_eq_getElem hlt⟩
  · rw [p.nodes_eq] at hnode
    obtain ⟨hmem, rfl⟩ := Formula.mem_walk_of_getElem?_nodes hnode
    have hbelow : Shows (Tree.ofParsed p).vertices node.parent node.formula := fun below hmemBelow =>
      hshows below ((Formula.walk_sublist_of_mem_walk hmem).subset hmemBelow)
    exact hbelow.walks (hsize hmem)
  · have hroot := hsize (p.formula.outermost_mem_walk none)
    rw [Formula.formula_outermost] at hroot
    exact hshows.walks hroot

end Linked

end Sentential
