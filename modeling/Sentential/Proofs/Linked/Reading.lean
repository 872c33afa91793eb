import Mathlib.Data.List.Basic
import Sentential.Proofs.Linked.Mirror
import Sentential.Proofs.Linked.Tree
import Sentential.Proofs.Parsing.Arena

namespace Sentential

open Linked

namespace Spine

private theorem find?_isGroup_eq_none_iff (spine : Spine) :
    spine.find? Frame.isGroup = none ↔ spine.hasGroup = false := by
  simp [hasGroup]

/-- When the text ends, all cells are those of the whole formula. Nothing is written to the array for
    it, and groups that are open stay so. -/
theorem cellsWith_complete (operand : Formula NodeId) (spine : Spine) :
    cellsWith (spine.complete operand) [] = cellsWith operand spine := by
  induction spine generalizing operand with
  | nil => rfl
  | cons frame rest ih => exact (ih _).trans (cellsWith_cons operand frame rest).symm

end Spine

namespace Linked

variable {M : Type → Type} [PrefixMap M] {d : Dialect M}

/-- The reader in place is at the same character, expects the same and has built the same. -/
structure Follows (s : ParseState) (r : Reader) : Prop where
  cursor_eq : r.cursor = s.cursor
  expected_eq : r.expected = s.due.expectation
  mirrors : Mirrors s.assembly r.builder

namespace Follows

/-- Before any token the two readers agree. Both stand at the start of the text and have built nothing. -/
theorem start (text : List Char) : Follows (ParseState.start text) (Reader.start text) :=
  ⟨rfl, rfl, Mirrors.start⟩

/-- Where an operand is expected, the reader in place does what the reader of formulas does: it fails
    with the same fault, or takes the same token. -/
theorem stepOperand {numbering : Numbering} {spine : Spine} {b : Builder}
    (h : Mirrors ⟨numbering, spine, .operand⟩ b) (d : Dialect M) (cursor : Cursor) :
    match ParseState.stepOperand d cursor numbering spine with
    | .error e => Reader.stepOperand d cursor b = .error (.fault e)
    | .ok next => ∃ r, Reader.stepOperand d cursor b = .ok r ∧ Follows next r := by
  unfold ParseState.stepOperand Reader.stepOperand
  cases hpeek : cursor.peek? with
  | none => rfl
  | some found =>
    cases hname : cursor.identifier? with
    | some taken =>
      obtain ⟨name, rest⟩ := taken
      obtain ⟨next, hattach, hnext⟩ := h.attach name
      simp only [hattach]
      exact ⟨_, rfl, rfl, rfl, hnext⟩
    | none =>
      cases hsymbol : cursor.symbol? d.unary with
      | some taken =>
        obtain ⟨op, rest⟩ := taken
        obtain ⟨next, henter, hnext⟩ := h.enter op
        simp only [henter]
        exact ⟨_, rfl, rfl, rfl, hnext⟩
      | none =>
        simp only
        by_cases hcloser : found = ')'
        · have hopen := h.openGroup?_eq
          cases hgroup : spine.hasGroup with
          | true =>
            have hfind : spine.find? Frame.isGroup ≠ none := by
              rw [Ne, spine.find?_isGroup_eq_none_iff, hgroup]
              decide
            obtain ⟨frame, hframe⟩ := Option.ne_none_iff_exists'.1 hfind
            simp only [hframe, Option.map_some] at hopen
            simp only [hcloser, hopen]
            rfl
          | false =>
            have hfind := spine.find?_isGroup_eq_none_iff.2 hgroup
            simp only [hfind, Option.map_none] at hopen
            simp only [hcloser, hopen]
            rfl
        · simp only [hcloser]
          rfl

/-- Where an operator is expected, the reader in place does what the reader of formulas does: it fails
    with the same fault, or takes the same token. -/
theorem stepOperator {numbering : Numbering} {spine : Spine} {left : Formula NodeId} {b : Builder}
    (h : Mirrors ⟨numbering, spine, .operator left⟩ b) (d : Dialect M) (found : Char)
    (cursor : Cursor) :
    match ParseState.stepOperator d found cursor numbering spine left with
    | .error e => Reader.stepOperator d found cursor b = .error (.fault e)
    | .ok next => ∃ r, Reader.stepOperator d found cursor b = .ok r ∧ Follows next r := by
  unfold ParseState.stepOperator Reader.stepOperator
  by_cases hcloser : found = ')'
  · simp only [hcloser, if_true]
    cases hclose : spine.close? left with
    | none =>
      rw [h.close?_eq_none hclose]
      rfl
    | some closed =>
      obtain ⟨group, rest⟩ := closed
      obtain ⟨next, hnextClose, hnext⟩ := h.close? hclose
      rw [hnextClose]
      exact ⟨_, rfl, rfl, rfl, hnext⟩
  · simp only [hcloser, if_false]
    cases hsymbol : cursor.symbol? d.binary with
    | none => rfl
    | some taken =>
      obtain ⟨op, rest⟩ := taken
      obtain ⟨next, hinsert, hnext⟩ := h.insert op
      simp only [hinsert]
      exact ⟨_, rfl, rfl, rfl, hnext⟩

/-- Both readers take the same step. At the end of the text the array holds the cells of the whole
    formula. -/
theorem step {s : ParseState} {r : Reader} (h : Follows s r) (d : Dialect M) :
    match ParseState.step d s with
    | .error e => r.step d = .error (.fault e)
    | .ok (.inl f) => r.step d = .ok none ∧ Stores r.builder.cells (Spine.cellsWith f [])
    | .ok (.inr next) => ∃ r', r.step d = .ok (some r') ∧ Follows next r' := by
  obtain ⟨_, numbering, spine, due⟩ := s
  obtain ⟨cursor, _, b⟩ := r
  obtain ⟨hcursor, hexpected, hmirrors⟩ := h
  simp only at hcursor hexpected
  subst hcursor hexpected
  unfold ParseState.step Reader.step
  cases due with
  | operand =>
    have hstep := stepOperand hmirrors d cursor.skipBlank
    simp only [Due.expectation]
    cases hnext : ParseState.stepOperand d cursor.skipBlank numbering spine with
    | error e =>
      simp only [hnext] at hstep
      simp only [Except.map, hstep]
    | ok next =>
      simp only [hnext] at hstep
      obtain ⟨r', hr', hfollows⟩ := hstep
      exact ⟨r', by simp only [Except.map, hr'], hfollows⟩
  | operator left =>
    simp only [Due.expectation]
    cases hpeek : cursor.skipBlank.peek? with
    | none =>
      refine ⟨rfl, ?_⟩
      rw [Spine.cellsWith_complete]
      exact hmirrors.stores
    | some found =>
      have hstep := stepOperator hmirrors d found cursor.skipBlank
      simp only
      cases hnext : ParseState.stepOperator d found cursor.skipBlank numbering spine left with
      | error e =>
        simp only [hnext] at hstep
        simp only [Except.map, hstep]
      | ok next =>
        simp only [hnext] at hstep
        obtain ⟨r', hr', hfollows⟩ := hstep
        exact ⟨r', by simp only [Except.map, hr'], hfollows⟩

/-- Both readers fail alike, or are at the end of the text, or go on alike. This is the step as the
    later proofs use it, one case for each way it can go. -/
theorem step_cases {s : ParseState} {r : Reader} (h : Follows s r) (d : Dialect M) :
    (∃ e, ParseState.step d s = .error e ∧ r.step d = .error (.fault e)) ∨
      (∃ f, ParseState.step d s = .ok (.inl f) ∧ r.step d = .ok none ∧
        Stores r.builder.cells (Spine.cellsWith f [])) ∨
      ∃ s' r', ParseState.step d s = .ok (.inr s') ∧ r.step d = .ok (some r') ∧ Follows s' r' := by
  have hstep := h.step d
  cases hnext : ParseState.step d s with
  | error e =>
    simp only [hnext] at hstep
    exact .inl ⟨e, rfl, hstep⟩
  | ok outcome =>
    cases outcome with
    | inl f =>
      simp only [hnext] at hstep
      exact .inr (.inl ⟨f, rfl, hstep⟩)
    | inr next =>
      simp only [hnext] at hstep
      obtain ⟨r', hr', hfollows⟩ := hstep
      exact .inr (.inr ⟨next, r', rfl, hr', hfollows⟩)

/-- Both readers come to the same end: the same fault, or the cells of the formula. The induction is on
    the characters ahead, of which every step takes one. -/
theorem run {s : ParseState} {r : Reader} (h : Follows s r) (d : Dialect M) :
    match s.run d with
    | .error e => r.run d = .error (.fault e)
    | .ok f => ∃ cells position, r.run d = freeze cells position ∧
        Stores cells (Spine.cellsWith f []) := by
  rcases h.step_cases d with ⟨e, hs, hr⟩ | ⟨f, hs, hr, hstores⟩ | ⟨s', r', hs, hr, hfollows⟩
  · rw [ParseState.run_of_step_eq_error hs]
    exact Reader.run_of_step_eq_error hr
  · rw [ParseState.run_of_step_eq_inl hs]
    exact ⟨_, _, Reader.run_of_step_eq_none hr, hstores⟩
  · rw [ParseState.run_of_step_eq_inr hs, Reader.run_of_step_eq_some hr]
    exact run hfollows d
termination_by s.cursor.remaining.length
decreasing_by exact ParseState.length_remaining_step hs

end Follows

section Freeze

variable {f : Formula NodeId} {cells : Array Cell}

/-- Every node of the formula is in its place, one behind its number, since the root comes first.
    Nothing is asked of the numbers here. -/
theorem Stores.getElem?_succ (h : Stores cells (Spine.cellsWith f [])) {node : Node}
    (hnode : node ∈ f.walk none) : cells[node.formula.label + 1]? = some node.cell :=
  h.holds (List.mem_append_right _ (List.mem_map_of_mem (f := Node.entry) hnode))

/-- There is one cell for each number and the root. No cell was made that is not a node of the formula. -/
theorem Stores.size_eq (h : Stores cells (Spine.cellsWith f [])) (hf : f.WellNumbered) :
    cells.size = f.nodes.size + 1 := by
  have hfirst : 0 < cells.size := h.lt_size List.mem_cons_self
  refine Nat.le_antisymm (Nat.le_of_not_lt fun hlt => ?_) (Nat.le_of_not_lt fun hlt => ?_)
  · -- The cell behind the last node would belong to a node with a number out of range.
    obtain ⟨cell, hcell⟩ := h.covers hlt
    rcases List.mem_cons.1 hcell with hroot | hbelow
    · cases (Prod.mk.inj hroot).1
    · obtain ⟨node, hnode, hentry⟩ := List.mem_map.1 hbelow
      have hlabel := hf.lt_size_of_mem_walk hnode
      have hplace : node.formula.label + 1 = f.nodes.size + 1 := (Prod.mk.inj hentry).1
      exact absurd (Nat.succ.inj hplace) (Nat.ne_of_lt hlabel)
  · have hlast : cells.size - 1 < f.nodes.size := by omega
    obtain ⟨hmem, hlabel⟩ :=
      Formula.mem_walk_of_getElem?_nodes (Array.getElem?_eq_getElem hlast)
    have hplace := (Array.getElem?_eq_some_iff.1 (h.getElem?_succ hmem)).1
    rw [hlabel] at hplace
    omega

/-- Behind the root the array lists the nodes of the formula in the order of their numbers. This is
    where it is used that the numbers have no gaps. -/
theorem Stores.drop_one_eq (h : Stores cells (Spine.cellsWith f [])) (hf : f.WellNumbered) :
    cells.toList.drop 1 = f.nodes.toList.map Node.cell := by
  refine List.ext_getElem? fun id => ?_
  rw [List.getElem?_drop, Nat.add_comm, Array.getElem?_toList, List.getElem?_map,
    Array.getElem?_toList]
  cases hnode : f.nodes[id]? with
  | none =>
    have hout := Array.getElem?_eq_none_iff.1 hnode
    have hsize := h.size_eq hf
    rw [Array.getElem?_eq_none (by omega)]
    rfl
  | some node =>
    obtain ⟨hmem, rfl⟩ := Formula.mem_walk_of_getElem?_nodes hnode
    rw [h.getElem?_succ hmem]
    rfl

/-- The cell of a finished node freezes to that node. It has all the links it needs. -/
theorem freezeCell_cell (e : SyntaxError) (node : Node) :
    freezeCell e node.cell = .ok (Vertex.ofNode node) := by
  obtain ⟨f, parent⟩ := node
  cases f <;> cases parent <;> rfl

private theorem mapM_freezeCell (e : SyntaxError) (nodes : List Node) :
    (nodes.map Node.cell).mapM (freezeCell e) = .ok (nodes.map Vertex.ofNode) := by
  induction nodes with
  | nil => rfl
  | cons node rest ih =>
    rw [List.map_cons, List.mapM_cons, freezeCell_cell, ih]
    rfl

private theorem symbol?_ofNode (node : Node) :
    (Vertex.ofNode node).symbol? node.formula.label = node.symbol? := by
  obtain ⟨f, parent⟩ := node
  cases f with
  | leaf id p => cases p <;> rfl
  | _ => rfl

private theorem symbolTable_map_ofNode {nodes : List Node}
    (h : ∀ (id : NodeId) (node : Node), nodes[id]? = some node → node.formula.label = id) :
    symbolTable (nodes.map Vertex.ofNode) = ⟨nodes.filterMap Node.symbol?⟩ := by
  have hsymbols : nodes.filterMap Node.symbol? =
      nodes.zipIdx.filterMap fun e => (Vertex.ofNode e.1).symbol? e.2 := by
    conv => lhs; rw [← List.zipIdx_map_fst 0 nodes, List.filterMap_map]
    refine List.filterMap_congr fun e he => ?_
    obtain ⟨node, id⟩ := e
    have hlabel := h id node (List.mem_zipIdx_iff_getElem?.1 he)
    rw [Function.comp_apply, ← symbol?_ofNode, hlabel]
  rw [symbolTable, hsymbols, List.zipIdx_map, List.filterMap_map]
  rfl

/-- The cells of a finished formula freeze to the tree of that formula. No link is missing, so the fault
    for a missing operand never comes up. -/
theorem freeze_eq_ok (h : Stores cells (Spine.cellsWith f [])) (hf : f.WellNumbered)
    (position : Nat) : freeze cells position = .ok (Tree.ofParsed (Parsed.ofFormula f)) := by
  have hroot : fetch cells rootPlace =
      .ok (.operator rootConnective none (some (placeOf f.label)) none) :=
    fetch_eq_ok (h.holds List.mem_cons_self)
  have hlabels : ∀ (id : NodeId) (node : Node), f.nodes.toList[id]? = some node →
      node.formula.label = id := by
    intro id node hnode
    rw [Array.getElem?_toList] at hnode
    exact (Formula.mem_walk_of_getElem?_nodes hnode).2
  unfold freeze
  rw [hroot, h.drop_one_eq hf, mapM_freezeCell]
  simp only [bind, Except.bind, pure, Except.pure, symbolTable_map_ofNode hlabels]
  rw [← Array.toList_map]
  rfl

end Freeze

/-- Reading in place gives the same tree as reading, or the same fault. It is never stuck, whatever the
    operators are, so no link leads out of the array and every walk up ends. -/
theorem read_eq (d : Dialect M) (text : List Char) :
    read d text =
      match parseWith d text with
      | .ok p => .ok (Tree.ofParsed p)
      | .error e => .error (.fault e) := by
  have hrun := (Follows.start text).run d
  have hnumbered : ∀ {p : Parsed}, parseWith d text = .ok p → p.formula.WellNumbered :=
    Formula.wellNumbered_of_parseWith
  rw [read]
  unfold parseWith at hnumbered ⊢
  cases houtcome : (ParseState.start text).run d with
  | error e =>
    simp only [houtcome] at hrun
    exact hrun
  | ok f =>
    simp only [houtcome] at hrun
    obtain ⟨cells, position, hread, hstores⟩ := hrun
    rw [houtcome] at hnumbered
    rw [hread]
    exact freeze_eq_ok hstores (hnumbered rfl) position

end Linked

end Sentential
