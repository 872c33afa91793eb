import Sentential.Proofs.Linked.Walks

namespace Sentential

namespace Formula

/-- The names of the atoms in reading order. -/
def atoms {ι : Type} : Formula ι → List String
  | leaf _ (.constant _) => []
  | leaf _ (.atom name) => [name]
  | unary _ _ operand => operand.atoms
  | binary _ _ left right => left.atoms ++ right.atoms
  | group _ _ _ body => body.atoms
  | regroup _ _ _ discarded body => discarded.atoms ++ body.atoms

/-- The atoms of a formula are those of the leaves on the way through it. It holds of any formula,
    whether or not it is well numbered. -/
theorem mem_atoms_iff {f : Formula NodeId} {name : String} (parent : Option NodeId) :
    name ∈ f.atoms ↔ ∃ id, (⟨leaf id (.atom name), none⟩ : Node) ∈ f.walk parent := by
  induction f generalizing parent with
  | leaf id p => cases p <;> simp [atoms, walk, eq_comm]
  | unary id c operand ih => simp [atoms, walk, ih (some id)]
  | binary id c left right ihl ihr => simp [atoms, walk, ihl (some id), ihr (some id), exists_or]
  | group id o closed body ih => simp [atoms, walk, ih (some id)]
  | regroup id o closed discarded body ihd ihb =>
    simp [atoms, walk, ihd (some id), ihb (some id), exists_or]

end Formula

namespace Node

/-- A node has a proposition exactly if it is a leaf. -/
theorem proposition?_eq_some_iff {node : Node} {q : Proposition} :
    node.proposition? = some q ↔ node.formula = .leaf node.formula.label q := by
  obtain ⟨f, parent⟩ := node
  cases f <;> simp [proposition?, Formula.label]

private theorem ofNode_eq_leaf_iff {node : Node} {q : Proposition} :
    Linked.Vertex.ofNode node = .leaf q ↔ node.proposition? = some q := by
  obtain ⟨f, parent⟩ := node
  cases f <;> simp [Linked.Vertex.ofNode, proposition?]

private theorem symbol?_eq_some_iff {node : Node} {s : Symbol} :
    node.symbol? = some s ↔ node.formula = .leaf s.id (.atom s.name) := by
  obtain ⟨f, parent⟩ := node
  obtain ⟨name, id⟩ := s
  cases f with
  | leaf label q => cases q <;> simp [symbol?, and_comm]
  | _ => simp [symbol?]

end Node

namespace Parsed

variable {M : Type → Type} [PrefixMap M] {d : Dialect M} {text : List Char} {p : Parsed}

/-- Every node stands at its number. -/
theorem label_of_getElem?_nodes {id : NodeId} {node : Node} (h : p.nodes[id]? = some node) :
    node.formula.label = id :=
  (Formula.mem_walk_of_getElem?_nodes (p.nodes_eq ▸ h)).2

/-- A number is that of an atom exactly if the leaf of the atom stands there. The leaf has the number as
    its label. -/
theorem atom?_eq_some_iff {id : NodeId} {name : String} :
    p.atom? id = some name ↔
      ∃ node, p.nodes[id]? = some node ∧ node.formula = .leaf id (.atom name) := by
  unfold atom?
  constructor
  · intro h
    obtain ⟨node, hnode, hrest⟩ := Option.bind_eq_some_iff.1 h
    obtain ⟨proposition, hproposition, hname⟩ := Option.bind_eq_some_iff.1 hrest
    have hatom : proposition = .atom name := by
      cases proposition <;> simp_all
    have hformula := Node.proposition?_eq_some_iff.1 hproposition
    rw [label_of_getElem?_nodes hnode, hatom] at hformula
    exact ⟨node, hnode, hformula⟩
  · rintro ⟨⟨f, parent⟩, hnode, rfl⟩
    simp [hnode, Node.proposition?]

/-- An atom that is walked through is that of the leaf with its number. The leaf was read from a text,
    so it stands there. -/
theorem atom?_of_mem_walk (hp : parseWith d text = .ok p) {id : NodeId} {name : String}
    (h : (⟨.leaf id (.atom name), none⟩ : Node) ∈ p.formula.walk none) : p.atom? id = some name := by
  have hvertex : (p.nodes.map Linked.Vertex.ofNode)[id]? = some (.leaf (.atom name)) :=
    Linked.shows_of_parseWith hp _ h
  rw [Array.getElem?_map] at hvertex
  obtain ⟨node, hnode, hleaf⟩ := Option.map_eq_some_iff.1 hvertex
  have hformula := Node.proposition?_eq_some_iff.1 (Node.ofNode_eq_leaf_iff.1 hleaf)
  rw [label_of_getElem?_nodes hnode] at hformula
  exact atom?_eq_some_iff.2 ⟨node, hnode, hformula⟩

/-- The atoms of the formula are those of its leaves. For what was read from a text, leaves can be taken
    from the array. -/
theorem mem_atoms_iff (hp : parseWith d text = .ok p) {name : String} :
    name ∈ p.formula.atoms ↔ ∃ id, p.atom? id = some name := by
  rw [Formula.mem_atoms_iff none]
  refine exists_congr fun id => ⟨atom?_of_mem_walk hp, fun h => ?_⟩
  obtain ⟨⟨f, parent⟩, hnode, rfl⟩ := atom?_eq_some_iff.1 h
  obtain ⟨hmem, -⟩ := Formula.mem_walk_of_getElem?_nodes (p.nodes_eq ▸ hnode)
  have hnode := Formula.eq_outermost_of_mem_walk hmem
  rwa [hnode] at hmem

/-- Every symbol of the table names an atom by the number of its leaf. Constants are not in the table. -/
theorem atom?_of_mem_symbols {s : Symbol} (h : s ∈ p.symbols.symbols) : p.atom? s.id = some s.name := by
  rw [p.symbols_eq] at h
  obtain ⟨node, hmem, hsymbol⟩ := List.mem_filterMap.1 h
  have hformula := Node.symbol?_eq_some_iff.1 hsymbol
  obtain ⟨id, hid⟩ := List.mem_iff_getElem?.1 hmem
  have hnode : p.nodes[id]? = some node := by rw [← Array.getElem?_toList, hid]
  have hlabel := label_of_getElem?_nodes hnode
  rw [hformula] at hlabel
  obtain rfl : s.id = id := hlabel
  exact atom?_eq_some_iff.2 ⟨node, hnode, hformula⟩

/-- Every atom is in the table, with the number of its leaf. -/
theorem mem_symbols_of_atom? {id : NodeId} {name : String} (h : p.atom? id = some name) :
    (⟨name, id⟩ : Symbol) ∈ p.symbols.symbols := by
  obtain ⟨node, hnode, hformula⟩ := atom?_eq_some_iff.1 h
  rw [p.symbols_eq]
  exact List.mem_filterMap.2 ⟨node, Array.mem_toList_iff.2 (Array.mem_of_getElem? hnode),
    Node.symbol?_eq_some_iff.2 hformula⟩

/-- No leaf is listed twice in a symbol table. Its entries come from different places of the array. -/
theorem nodup_ids_symbols (p : Parsed) : (p.symbols.symbols.map Symbol.id).Nodup := by
  rw [p.symbols_eq]
  refine List.pairwise_map.2 (List.pairwise_filterMap.2 ?_)
  refine List.pairwise_iff_getElem.2 fun i j hi hj hlt s hs other hother hsame => ?_
  have hlabel : ∀ {k : Nat} (hk : k < p.nodes.toList.length) {s : Symbol},
      p.nodes.toList[k].symbol? = some s → s.id = k := by
    intro k hk s hs
    have hnode : p.nodes[k]? = some p.nodes.toList[k] := by
      rw [← Array.getElem?_toList, List.getElem?_eq_getElem hk]
    have hlabel := label_of_getElem?_nodes hnode
    rwa [Node.symbol?_eq_some_iff.1 hs] at hlabel
  rw [hlabel hi hs, hlabel hj hother] at hsame
  exact Nat.ne_of_lt hlt hsame

/-- No name is listed twice in the symbol table of a text. It takes more than the table for it, namely
    that an atom has one leaf. -/
theorem nodup_names_symbols (hp : parseWith d text = .ok p) :
    (p.symbols.symbols.map Symbol.name).Nodup := by
  have hids := List.pairwise_map.1 p.nodup_ids_symbols
  exact List.pairwise_map.2 (hids.imp_of_mem fun {s other} hs hother hne hname => hne <|
    eq_of_atom?_eq_atom? hp (atom?_of_mem_symbols hs) (hname ▸ atom?_of_mem_symbols hother))

/-- The symbol table finds the leaf of an atom, and nothing else. Constants and unknown names are not
    found. -/
theorem get?_symbols_eq_some_iff (hp : parseWith d text = .ok p) {name : String} {id : NodeId} :
    p.symbols.get? name = some id ↔ p.atom? id = some name := by
  constructor
  · intro h
    obtain ⟨s, hfind, rfl⟩ := Option.map_eq_some_iff.1 h
    have hname : s.name = name := by simpa using List.find?_some hfind
    rw [← hname]
    exact atom?_of_mem_symbols (List.mem_of_find?_eq_some hfind)
  · intro h
    have hlisted : (p.symbols.symbols.find? fun s => s.name = name).isSome :=
      List.find?_isSome.2 ⟨_, mem_symbols_of_atom? h, by simp⟩
    obtain ⟨s, hfind⟩ := Option.isSome_iff_exists.1 hlisted
    have hname : s.name = name := by simpa using List.find?_some hfind
    have hatom := atom?_of_mem_symbols (List.mem_of_find?_eq_some hfind)
    rw [hname] at hatom
    rw [SymbolTable.get?, hfind, Option.map_some, eq_of_atom?_eq_atom? hp hatom h]

/-- A name that is found in the table is an atom of the formula. -/
theorem mem_atoms_of_get?_symbols (hp : parseWith d text = .ok p) {name : String} {id : NodeId}
    (h : p.symbols.get? name = some id) : name ∈ p.formula.atoms :=
  (mem_atoms_iff hp).2 ⟨id, (get?_symbols_eq_some_iff hp).1 h⟩

/-- A name that is not found in the table is no atom of the formula, so its value makes no difference. -/
theorem not_mem_atoms_of_get?_symbols (hp : parseWith d text = .ok p) {name : String}
    (h : p.symbols.get? name = none) : name ∉ p.formula.atoms := by
  intro hmem
  obtain ⟨id, hatom⟩ := (mem_atoms_iff hp).1 hmem
  rw [(get?_symbols_eq_some_iff hp).2 hatom] at h
  cases h

end Parsed

end Sentential
