import Sentential.Proofs.Linked.Slots

namespace Sentential.Linked

section Columns

variable {p : Parsed}

/-- A vertex is a leaf exactly if the node at its number is one. It is then a leaf of the same
    proposition. -/
theorem proposition?_ofParsed (p : Parsed) (id : NodeId) :
    (Tree.ofParsed p).proposition? id = p.nodes[id]?.bind Node.proposition? := by
  simp only [Tree.proposition?, Tree.ofParsed, Array.getElem?_map]
  cases p.nodes[id]? with
  | none => rfl
  | some node =>
    obtain ⟨f, parent⟩ := node
    cases f <;> rfl

/-- The leaf of an atom can be found in the tree and in the formula alike. Values can therefore be kept
    at leaves or by names. -/
theorem proposition?_ofParsed_eq_atom_iff {id : NodeId} {name : String} :
    (Tree.ofParsed p).proposition? id = some (.atom name) ↔ p.atom? id = some name := by
  rw [proposition?_ofParsed, Parsed.atom?]
  cases p.nodes[id]? with
  | none => simp
  | some node =>
    cases hproposition : node.proposition? with
    | none => simp [hproposition]
    | some proposition => cases proposition <;> simp [hproposition]

private theorem columnFault?_ofParsed (seen : List NodeId) (columns : List Symbol) :
    (Tree.ofParsed p).columnFault? seen columns = p.columnFault? seen columns := by
  induction columns generalizing seen with
  | nil => rfl
  | cons s rest ih =>
    simp only [Tree.columnFault?, Parsed.columnFault?, ih, ne_eq, proposition?_ofParsed_eq_atom_iff]

private theorem refusal?_ofParsed (columns : List Symbol) :
    (Tree.ofParsed p).refusal? columns = p.refusal? columns := by
  rw [Tree.refusal?, Parsed.refusal?, columnFault?_ofParsed]

end Columns

/-- The leaves hold the values that the environment gives to their atoms. -/
structure Slot.Holds (linked : Slot) (slot : Sentential.Slot) : Prop where
  tree_eq : linked.tree = Tree.ofParsed slot.parsed
  size_eq : linked.store.size = linked.tree.vertices.size
  getElem?_eq : ∀ {id : NodeId} {name : String}, slot.parsed.atom? id = some name →
    linked.store[id]? = some (slot.valuation name)

namespace Slot.Holds

variable {M : Type → Type} [PrefixMap M] {d : Dialect M} {text : List Char} {linked : Slot}
  {p : Parsed} {v : Valuation}

/-- Where all leaves are false, every atom has the value that it has at first. Constants have their own
    values, which are not stored. -/
theorem ofTree (p : Parsed) : (Slot.ofTree (Tree.ofParsed p)).Holds (Sentential.Slot.ofParsed p) := by
  refine ⟨rfl, Array.size_replicate, fun {id name} hatom => ?_⟩
  have hatom : p.atom? id = some name := hatom
  obtain ⟨node, hnode, -⟩ := Parsed.atom?_eq_some_iff.1 hatom
  have hid : id < (Tree.ofParsed p).vertices.size := by
    simpa [Tree.ofParsed] using (Array.getElem?_eq_some_iff.1 hnode).1
  simp [Slot.ofTree, Sentential.Slot.ofParsed, hid, Valuation.allFalse]

/-- Writing to the leaf of an atom changes the value of this atom and of no other. All occurrences of
    the atom share that leaf, and no other atom has it. -/
theorem set (hp : parseWith d text = .ok p) (h : linked.Holds ⟨p, v⟩) {id : NodeId} {name : String}
    (hatom : p.atom? id = some name) (value : Bool) :
    Holds { linked with store := linked.store.setIfInBounds id value } ⟨p, v.set name value⟩ := by
  refine ⟨h.tree_eq, Array.size_setIfInBounds.trans h.size_eq, fun {other found} hother => ?_⟩
  simp only at hother ⊢
  rw [Array.getElem?_setIfInBounds]
  by_cases hsame : id = other
  · subst hsame
    obtain rfl := Option.some.inj (hatom.symm.trans hother)
    have hid := (Array.getElem?_eq_some_iff.1 (h.getElem?_eq hatom)).1
    rw [if_pos rfl, if_pos hid, Valuation.set_self]
  · have hname : found ≠ name := by
      rintro rfl
      exact hsame (Parsed.eq_of_atom?_eq_atom? hp hatom hother)
    rw [if_neg hsame, Valuation.set_of_ne _ _ hname, h.getElem?_eq hother]

/-- Writing a row to the leaves of some atoms gives these atoms the bits of its index. The last column
    gets the least significant bit. -/
theorem setRow (hp : parseWith d text = .ok p) (h : linked.Holds ⟨p, v⟩) {columns : List Symbol}
    (hcolumns : ∀ s ∈ columns, p.atom? s.id = some s.name) (index : UInt32) :
    Holds { linked with store := linked.store.setRow (columns.map Symbol.id) index }
      ⟨p, v.setRow (columns.map Symbol.name) index⟩ := by
  have hfold : ∀ listed : List Symbol, (∀ s ∈ listed, p.atom? s.id = some s.name) →
      ∀ (store : Store) (v : Valuation) (index : UInt32), Holds ⟨linked.tree, store⟩ ⟨p, v⟩ →
        Holds ⟨linked.tree, ((listed.map Symbol.id).foldl
            (fun (state : Store × UInt32) id =>
              (state.1.setIfInBounds id (state.2 &&& 1 == 1), state.2 >>> 1)) (store, index)).1⟩
          ⟨p, ((listed.map Symbol.name).foldl
            (fun (state : Valuation × UInt32) name =>
              (state.1.set name (state.2 &&& 1 == 1), state.2 >>> 1)) (v, index)).1⟩ := by
    intro listed
    induction listed with
    | nil => exact fun _ store v index hstore => hstore
    | cons s rest ih =>
      intro hlisted store v index hstore
      exact ih (fun other hother => hlisted other (List.mem_cons_of_mem s hother)) _ _ _
        (hstore.set hp (hlisted s List.mem_cons_self) _)
  have hreverse := hfold columns.reverse (fun s hs => hcolumns s (List.mem_reverse.1 hs))
    linked.store v index h
  rw [List.map_reverse, List.map_reverse] at hreverse
  exact hreverse

/-- Evaluating with the values at the leaves gives the truth value in the environment. It holds of every
    part of the formula, as long as its nodes are nodes of the whole. -/
theorem truthAt_eq (hp : parseWith d text = .ok p) (h : linked.Holds ⟨p, v⟩) {f : Formula NodeId}
    {parent : Option NodeId} (hf : f.walk parent ⊆ p.formula.walk none) :
    f.truthAt linked.store.value = f.truth v := by
  have hleaves : ∀ id q, (⟨.leaf id q, none⟩ : Node) ∈ f.walk parent →
      linked.store.value id q = q.value v := by
    intro id q hleaf
    cases q with
    | constant fixed => rfl
    | atom name =>
      have hstored : linked.store[id]? = some (v name) :=
        h.getElem?_eq (Parsed.atom?_of_mem_walk hp (hf hleaf))
      simp [Store.value, Proposition.value, hstored]
  exact Formula.truthAt_eq_truth hleaves

/-- Evaluating below a node gives the truth value of what stands there, and spends one unit for each
    application. The walk is not stuck. -/
theorem evaluateAt_eq (hp : parseWith d text = .ok p) (h : linked.Holds ⟨p, v⟩) {id : NodeId}
    {node : Node} (hnode : p.nodes[id]? = some node) :
    linked.evaluateAt id = .ok (node.formula.truth v, node.formula.cost Parsed.meter) := by
  have hmem := (Formula.mem_walk_of_getElem?_nodes (p.nodes_eq ▸ hnode)).1
  rw [evaluateAt, h.tree_eq, ((walkable_of_parseWith hp).walks hnode).evaluate,
    h.truthAt_eq hp (Formula.walk_sublist_of_mem_walk hmem).subset]

/-- Evaluating from the root gives the truth value of the whole formula. It spends what the recursion
    costs. -/
theorem evaluateAt_root (hp : parseWith d text = .ok p) (h : linked.Holds ⟨p, v⟩) :
    linked.evaluateAt linked.tree.root =
      .ok (p.formula.truth v, p.formula.cost Parsed.meter) := by
  rw [evaluateAt, h.tree_eq, (walkable_of_parseWith hp).walks_root.evaluate,
    h.truthAt_eq hp (List.Subset.refl _)]

/-- Visiting the rows by writing each to the leaves finds the values of the rows and leaves the last of
    them at the leaves. The induction is on the rows that remain, with the leaves in step with the row
    visited before. -/
theorem visit_eq (hp : parseWith d text = .ok p) {columns : List Symbol} (hcolumns : p.Admits columns)
    (direction : Direction) (flag : Flag) {base : Valuation} {k remaining : Nat}
    (hk : k + remaining = 2 ^ columns.length)
    (h : linked.Holds ⟨p, base.afterRows (columns.map Symbol.name) direction k⟩) :
    ∃ next, visit (columns.map Symbol.id) direction (2 ^ columns.length).toUInt32 flag remaining
        k.toUInt32 (k * p.formula.cost Parsed.meter)
        (p.firstValues (columns.map Symbol.name) direction base k) linked =
        .ok ((p.sweep (columns.map Symbol.name) direction flag base k remaining).1, next) ∧
      next.Holds ⟨p, (p.sweep (columns.map Symbol.name) direction flag base k remaining).2⟩ := by
  have hlength : (columns.map Symbol.name).length = columns.length := List.length_map _
  induction remaining generalizing k linked with
  | zero => exact ⟨linked, rfl, h⟩
  | succ remaining ih =>
    have hflag : flag (p.firstValues (columns.map Symbol.name) direction base k).size
        (k * p.formula.cost Parsed.meter) = flag.isUp (p.formula.cost Parsed.meter) k := by
      rw [Parsed.size_firstValues, Flag.isUp]
    rw [visit, hflag]
    cases hup : flag.isUp (p.formula.cost Parsed.meter) k with
    | true =>
      rw [Parsed.sweep_of_up hup, Parsed.size_firstValues]
      exact ⟨linked, rfl, h⟩
    | false =>
      have hlt : k < 2 ^ (columns.map Symbol.name).length := by rw [hlength]; omega
      have hrow := h.setRow hp hcolumns.atom?_eq
        (direction.index k.toUInt32 (2 ^ columns.length).toUInt32)
      rw [← hlength, Valuation.setRow_index (hlength ▸ hcolumns.length_le) direction _ hlt,
        Valuation.afterRows_afterRows, hlength] at hrow
      obtain ⟨next, hnext, hholds⟩ := ih (by omega) hrow
      refine ⟨next, ?_, by rwa [Parsed.sweep_of_down hup]⟩
      have hspent : k * p.formula.cost Parsed.meter + p.formula.cost Parsed.meter =
          (k + 1) * p.formula.cost Parsed.meter := (Nat.succ_mul _ _).symm
      rw [Parsed.sweep_of_down hup, ← hnext, if_neg Bool.false_ne_true]
      simp only [hrow.evaluateAt_root hp, toUInt32_succ, hspent, Parsed.firstValues_succ, bind, Except.bind]

/-- Writing out below a node puts the text of what stands there behind the text before it. The walk is
    not stuck. -/
theorem renderOnto_eq (hp : parseWith d text = .ok p) (h : linked.Holds ⟨p, v⟩) {id : NodeId}
    {node : Node} (hnode : p.nodes[id]? = some node) (out : String) (n : Notation) :
    linked.tree.renderOnto out id n = .ok (node.formula.renderOnto out n) := by
  rw [Tree.renderOnto, h.tree_eq, ((walkable_of_parseWith hp).walks hnode).render]

/-- Writing out from the root gives the rendering of the whole formula. -/
theorem renderOnto_root (hp : parseWith d text = .ok p) (h : linked.Holds ⟨p, v⟩) (n : Notation) :
    linked.tree.renderOnto "" linked.tree.root n = .ok (p.formula.render n) := by
  rw [Tree.renderOnto, h.tree_eq, (walkable_of_parseWith hp).walks_root.render]
  rfl

/-- Enumerating in place answers what the enumeration does in the environment, and leaves the values
    that it leaves, also where it is refused or cancelled. No walk is stuck on the way. -/
theorem enumerate_eq (hp : parseWith d text = .ok p) (h : linked.Holds ⟨p, v⟩)
    (columns : List Symbol) (direction : Direction) (flag : Flag) :
    ∃ next, linked.enumerate columns direction flag =
        .ok ((p.outcome columns direction flag v).1, next) ∧
      next.Holds ⟨p, (p.outcome columns direction flag v).2⟩ := by
  have hrefused : linked.tree.refusal? columns = p.refusal? columns := by
    rw [h.tree_eq]
    exact refusal?_ofParsed columns
  cases hrefusal : p.refusal? columns with
  | some e =>
    rw [hrefusal] at hrefused
    simp only [enumerate, hrefused, Parsed.outcome, hrefusal]
    exact ⟨linked, rfl, h⟩
  | none =>
    have hadmits := Parsed.refusal?_eq_none_iff.1 hrefusal
    have hcount : (2 ^ columns.length).toUInt32.toNat = 2 ^ columns.length :=
      toNat_toUInt32_of_le_two_pow hadmits.length_le (Nat.le_refl _)
    obtain ⟨next, hvisit, hnext⟩ := visit_eq hp hadmits direction flag (Nat.zero_add _) h
    have hposition : Nat.toUInt32 0 = 0 := rfl
    have hvalues : p.firstValues (columns.map Symbol.name) direction v 0 = #[] := rfl
    rw [hposition, Nat.zero_mul, hvalues] at hvisit
    rw [Parsed.outcome_of_admits hadmits]
    refine ⟨next, ?_, hnext⟩
    rw [hrefusal] at hrefused
    simp only [enumerate, hrefused, one_shiftLeft_eq hadmits.length_le, hcount]
    rw [hvisit]
    simp only [bind, Except.bind, hnext.renderOnto_root hp]
    rfl

end Slot.Holds

end Sentential.Linked
