import Sentential.Proofs.Linked.Chain
import Sentential.Proofs.Linked.Reachable

namespace Sentential

open Linked

/-- A right parenthesis closes an operator on the spine, and what is above it stays as it was. -/
private theorem Spine.exists_chain_of_close? {spine rest : Spine} {operand group : Formula NodeId}
    (h : spine.close? operand = some (group, rest)) : ∃ inner,
      spine.chain = inner ++ placeOf group.label :: rest.chain := by
  induction spine generalizing operand with
  | nil => cases h
  | cons frame outer ih =>
    rw [close?] at h
    split at h
    · obtain ⟨rfl, rfl⟩ := by simpa using h
      exact ⟨[], by rw [Frame.label_fill]; rfl⟩
    · obtain ⟨inner, hinner⟩ := ih h
      exact ⟨placeOf frame.label :: inner, congrArg (placeOf frame.label :: ·) hinner⟩

namespace Linked

/-- What entering an operator writes: its cell behind all others, with the old tip above it, and the
    link from the old tip to it. -/
private theorem Builder.enter_eq {b : Builder} (htip : b.tip < b.cells.size) (op : Operator) :
    b.enter op = .ok ⟨(b.cells.modify b.tip (·.setRight b.cells.size)).push
      ((Cell.ofOperator op).setAbove b.tip), b.cells.size, b.leaves⟩ := by
  obtain ⟨cells, tip, leaves⟩ := b
  simp only at htip
  have hcells : ((cells.push (.ofOperator op)).modify tip (·.setRight cells.size)).modify cells.size
      (·.setAbove tip) = (cells.modify tip (·.setRight cells.size)).push
        ((Cell.ofOperator op).setAbove tip) := by
    refine Array.ext_getElem? fun place => ?_
    simp only [Array.getElem?_modify, Array.getElem?_push, Array.size_modify]
    grind
  have hlinked : tip < (cells.push (.ofOperator op)).size := by
    rw [Array.size_push]
    exact Nat.lt_succ_of_lt htip
  have hplace : cells.size <
      ((cells.push (.ofOperator op)).modify tip (·.setRight cells.size)).size := by
    rw [Array.size_modify, Array.size_push]
    exact Nat.lt_succ_self _
  simp only [Builder.enter, update, hlinked, if_true, bind, Except.bind, hplace, hcells, pure,
    Except.pure]

variable {M : Type → Type} [PrefixMap M]

/-- What a reader in place looks like wherever it has come to, and what the next token does to it.
    `chain` leads from the tip to the cell above all others. -/
structure Reader.Shaped (d : Dialect M) (r : Reader) (chain : List Place) : Prop where
  /-- Every place on the chain is the right operand of the next one, which is above it. -/
  leads : Leads r.builder.cells r.builder.tip chain
  /-- What is nearer to the tip was made later. -/
  descending : chain.Pairwise (· > ·)
  /-- There are no leaves and no closed groups on the chain. -/
  operators : ∀ place ∈ chain, ∃ cell, r.builder.cells[place]? = some cell ∧ cell.isLeaf = false ∧
    cell.isClosed = false
  /-- All groups that are open are on the chain. -/
  groups : ∀ {place : Place} {cell : Cell}, r.builder.cells[place]? = some cell →
    cell.isOpen = true → place ∈ chain
  /-- While an operand is due, the tip is the only operator without a right operand. -/
  operand_due : r.expected = .operand → ∀ {place : Place} {cell : Cell},
    r.builder.cells[place]? = some cell → cell.isLeaf = false →
      (cell.right? = none ↔ place = r.builder.tip)
  /-- While an operator is due, every operator has a right operand. -/
  operator_due : r.expected = .operator → ∀ {place : Place} {cell : Cell},
    r.builder.cells[place]? = some cell → cell.isLeaf = false → cell.right? ≠ none
  /-- While an operator is due, the right operand of the tip is a leaf or a closed group. -/
  settled : r.expected = .operator → ∃ cell child below, r.builder.cells[r.builder.tip]? = some cell ∧
    cell.right? = some child ∧ r.builder.cells[child]? = some below ∧
      (below.isLeaf = true ∨ below.isClosed = true)
  /-- An identifier in place of an operand goes below the tip. The tip and the chain stay. -/
  naming : r.expected = .operand → ∀ {name : String} {rest : Cursor},
    r.cursor.skipBlank.identifier? = some (name, rest) → ∃ next : Builder,
      r.step d = .ok (some ⟨rest, .operator, next⟩) ∧ next.tip = r.builder.tip ∧
        Leads next.cells next.tip chain
  /-- An operator in front of an operand gets a cell behind all others and is the next tip, and the
      chain gets longer by its place. No other cell changes, but that the old tip gets its right operand.
      An opener makes the group that is opened last of all, which is open. -/
  opening : r.expected = .operand → r.cursor.skipBlank.identifier? = none →
    ∀ {op : Operator} {rest : Cursor}, r.cursor.skipBlank.symbol? d.unary = some (op, rest) →
    ∃ cells : Array Cell,
      r.step d = .ok (some ⟨rest, .operand, ⟨cells, r.builder.cells.size, r.builder.leaves⟩⟩) ∧
      cells = (r.builder.cells.modify r.builder.tip (·.setRight r.builder.cells.size)).push
        ((Cell.ofOperator op).setAbove r.builder.tip) ∧
      Leads cells r.builder.cells.size (r.builder.cells.size :: chain) ∧
      ∀ o, op = .opener o →
        LastOpened cells r.builder.cells.size (.group o false none (some r.builder.tip))
  /-- A right parenthesis behind an operand closes the group that was opened last and changes no other
      cell. The chain goes on above the group. It is a fault if no group is open. -/
  closer : r.expected = .operator → r.cursor.skipBlank.peek? = some ')' →
    NoneOpen r.builder.cells ∧
        r.step d = .error (.fault (.unmatchedRightParenthesis r.cursor.skipBlank.position)) ∨
      ∃ place cell above, LastOpened r.builder.cells place cell ∧ cell.above? = some above ∧
        r.step d = .ok (some ⟨r.cursor.skipBlank.advance 1, .operator,
          ⟨r.builder.cells.modify place Cell.close, above, r.builder.leaves⟩⟩) ∧
        ∃ inner outer, chain = inner ++ place :: outer ∧
          Leads (r.builder.cells.modify place Cell.close) above outer
  /-- A right parenthesis in place of an operand is a fault, which tells whether a group is open. -/
  misplaced : r.expected = .operand → r.cursor.skipBlank.peek? = some ')' →
    r.cursor.skipBlank.symbol? d.unary = none →
    NoneOpen r.builder.cells ∧
        r.step d = .error (.fault (.unmatchedRightParenthesis r.cursor.skipBlank.position)) ∨
      (∃ place cell, LastOpened r.builder.cells place cell) ∧
        r.step d = .error (.fault (.unknownUnaryOperator ')' r.cursor.skipBlank.position))
  /-- An operator behind an operand goes up past cells that bind at least as tightly, of which none is
      an open group, and stops at a cell that binds less tightly. It is the next tip, and the chain is
      its place on what was above the cells that it went past. -/
  insertion : r.expected = .operator → ∀ {op : Operator} {rest : Cursor},
    r.cursor.skipBlank.symbol? d.binary = some (op, rest) →
    ∃ passed stop outer, chain = passed ++ stop :: outer ∧
      climb r.builder.cells op.precedence r.builder.cells.size r.builder.tip = .ok stop ∧
      (∀ place ∈ passed, ∃ cell, r.builder.cells[place]? = some cell ∧
        op.precedence ≤ cell.precedence ∧ cell.isOpen = false) ∧
      (∃ cell, r.builder.cells[stop]? = some cell ∧ cell.precedence < op.precedence) ∧
      (r.cursor.skipBlank.peek? ≠ some ')' → ∃ next : Builder,
        r.step d = .ok (some ⟨rest, .operand, next⟩) ∧ next.tip = r.builder.cells.size ∧
          Leads next.cells next.tip (next.tip :: stop :: outer))

namespace Mirrors

variable {a : Assembly} {r : Reader}

private theorem step_naming (h : Mirrors a r.builder) (hdue : a.due = .operand) (d : Dialect M)
    (hexpected : r.expected = .operand) {name : String} {rest : Cursor}
    (hname : r.cursor.skipBlank.identifier? = some (name, rest)) : ∃ next : Builder,
      r.step d = .ok (some ⟨rest, .operator, next⟩) ∧ next.tip = r.builder.tip ∧
        Leads next.cells next.tip a.spine.chain := by
  obtain ⟨numbering, spine, _⟩ := a
  obtain ⟨cursor, _, b⟩ := r
  subst hdue hexpected
  simp only at h hname ⊢
  obtain ⟨found, hpeek⟩ := Cursor.exists_peek?_of_identifier? hname
  obtain ⟨next, hattach, hnext⟩ := h.attach name
  refine ⟨next, ?_, hnext.tip_eq.trans h.tip_eq.symm, hnext.leads_chain⟩
  simp only [Reader.step, Reader.stepOperand, hpeek, hname, hattach]
  rfl

private theorem step_opening (h : Mirrors a r.builder) (hdue : a.due = .operand) (d : Dialect M)
    (hexpected : r.expected = .operand) (hname : r.cursor.skipBlank.identifier? = none)
    {found : Char} (hpeek : r.cursor.skipBlank.peek? = some found) {op : Operator} {rest : Cursor}
    (hsymbol : r.cursor.skipBlank.symbol? d.unary = some (op, rest)) : ∃ cells : Array Cell,
      r.step d = .ok (some ⟨rest, .operand, ⟨cells, r.builder.cells.size, r.builder.leaves⟩⟩) ∧
      cells = (r.builder.cells.modify r.builder.tip (·.setRight r.builder.cells.size)).push
        ((Cell.ofOperator op).setAbove r.builder.tip) ∧
      Leads cells r.builder.cells.size (r.builder.cells.size :: a.spine.chain) ∧
      ∀ o, op = .opener o →
        LastOpened cells r.builder.cells.size (.group o false none (some r.builder.tip)) := by
  obtain ⟨numbering, spine, _⟩ := a
  obtain ⟨cursor, _, b⟩ := r
  subst hdue hexpected
  simp only at h hname hpeek hsymbol ⊢
  have htip : b.tip < b.cells.size := h.tip_eq ▸ h.tip_lt_size
  have henter := Builder.enter_eq htip op
  obtain ⟨next, hnext, hmirrors⟩ := h.enter op
  obtain rfl := Except.ok.inj (henter.symm.trans hnext)
  have hplace : b.cells.size = placeOf numbering.operator.1 := h.size_eq
  refine ⟨_, ?_, rfl, ?_, fun o ho => ?_⟩
  · simp only [Reader.step, Reader.stepOperand, hpeek, hname, hsymbol, henter]
    rfl
  · have hleads := hmirrors.leads_chain
    simp only [Spine.chain_cons, Frame.label_ofUnary, ← hplace] at hleads
    exact hleads
  · subst ho
    refine ⟨?_, rfl, fun {other found} hfound _ => ?_⟩
    · rw [Array.getElem?_push, Array.size_modify, if_pos rfl]
      rfl
    · have hlt := (Array.getElem?_eq_some_iff.1 hfound).1
      rw [Array.size_push, Array.size_modify] at hlt
      exact Nat.le_of_lt_succ hlt

private theorem step_closer (h : Mirrors a r.builder) (ha : a.Bound) {left : Formula NodeId}
    (hdue : a.due = .operator left) (d : Dialect M) (hexpected : r.expected = .operator)
    (hpeek : r.cursor.skipBlank.peek? = some ')') :
    NoneOpen r.builder.cells ∧
        r.step d = .error (.fault (.unmatchedRightParenthesis r.cursor.skipBlank.position)) ∨
      ∃ place cell above, LastOpened r.builder.cells place cell ∧ cell.above? = some above ∧
        r.step d = .ok (some ⟨r.cursor.skipBlank.advance 1, .operator,
          ⟨r.builder.cells.modify place Cell.close, above, r.builder.leaves⟩⟩) ∧
        ∃ inner outer, a.spine.chain = inner ++ place :: outer ∧
          Leads (r.builder.cells.modify place Cell.close) above outer := by
  have hopen := h.openGroup?_eq
  obtain ⟨numbering, spine, _⟩ := a
  obtain ⟨cursor, _, b⟩ := r
  subst hdue hexpected
  simp only at h hopen hpeek ⊢
  have hgroup := spine.map_label_find?_isGroup left
  cases hfind : spine.find? Frame.isGroup with
  | none =>
    refine .inl ⟨h.noneOpen ha hfind, ?_⟩
    simp only [Reader.step, hpeek, Reader.stepOperator, Builder.close?, hopen, hfind]
    rfl
  | some frame =>
    obtain ⟨cell, hlast, above, habove⟩ := h.lastOpened ha hfind
    rw [hfind, Option.map_some] at hgroup
    obtain ⟨⟨group, rest⟩, hclose, hlabel⟩ := Option.map_eq_some_iff.1 hgroup.symm
    obtain ⟨inner, hinner⟩ := Spine.exists_chain_of_close? hclose
    obtain ⟨next, hnext, hmirrors⟩ := h.close? hclose
    have hplace := (Array.getElem?_eq_some_iff.1 hlast.getElem?_eq).1
    have hclosed : fetch (b.cells.modify (placeOf frame.label) Cell.close) (placeOf frame.label) =
        .ok cell.close :=
      fetch_eq_ok (by rw [Array.getElem?_modify, if_pos rfl, hlast.getElem?_eq, Option.map_some])
    have hbuilder : b.close? =
        .ok (some ⟨b.cells.modify (placeOf frame.label) Cell.close, above, b.leaves⟩) := by
      simp only [Builder.close?, hopen, hfind, Option.map_some, update, hplace, if_true, bind,
        Except.bind, hclosed, pure, Except.pure, Cell.above?_close, habove, Option.getD_some]
    obtain rfl := Option.some.inj (Except.ok.inj (hbuilder.symm.trans hnext))
    refine .inr ⟨_, cell, above, hlast, habove, ?_, inner, rest.chain, ?_, hmirrors.leads_chain⟩
    · simp only [Reader.step, hpeek, Reader.stepOperator, if_true, hbuilder]
      rfl
    · rw [hinner, ← hlabel]

private theorem step_misplaced (h : Mirrors a r.builder) (ha : a.Bound) (d : Dialect M)
    (hexpected : r.expected = .operand) (hpeek : r.cursor.skipBlank.peek? = some ')')
    (hsymbol : r.cursor.skipBlank.symbol? d.unary = none) :
    NoneOpen r.builder.cells ∧
        r.step d = .error (.fault (.unmatchedRightParenthesis r.cursor.skipBlank.position)) ∨
      (∃ place cell, LastOpened r.builder.cells place cell) ∧
        r.step d = .error (.fault (.unknownUnaryOperator ')' r.cursor.skipBlank.position)) := by
  have hopen := h.openGroup?_eq
  obtain ⟨cursor, _, b⟩ := r
  subst hexpected
  simp only at h hopen hpeek hsymbol ⊢
  have hname : cursor.skipBlank.identifier? = none := by
    refine Cursor.identifier?_eq_none_iff.2 fun c hc => ?_
    obtain rfl := Option.some.inj (hpeek.symm.trans hc)
    decide
  simp only [Reader.step, hpeek, Reader.stepOperand, hname, hsymbol, hopen]
  cases hfind : a.spine.find? Frame.isGroup with
  | none => exact .inl ⟨h.noneOpen ha hfind, rfl⟩
  | some frame =>
    obtain ⟨cell, hlast, -⟩ := h.lastOpened ha hfind
    exact .inr ⟨⟨_, cell, hlast⟩, rfl⟩

private theorem step_insertion (h : Mirrors a r.builder) {left : Formula NodeId}
    (hdue : a.due = .operator left) (d : Dialect M) (hexpected : r.expected = .operator)
    {op : Operator} {rest : Cursor} (hsymbol : r.cursor.skipBlank.symbol? d.binary = some (op, rest))
    {found : Char} (hpeek : r.cursor.skipBlank.peek? = some found) (hfound : found ≠ ')') :
    ∃ next : Builder, r.step d = .ok (some ⟨rest, .operand, next⟩) ∧
      next.tip = r.builder.cells.size ∧
      Leads next.cells next.tip (next.tip :: (a.spine.climb op.precedence left).2.chain) := by
  obtain ⟨numbering, spine, _⟩ := a
  obtain ⟨cursor, _, b⟩ := r
  subst hdue hexpected
  simp only at h hsymbol hpeek ⊢
  obtain ⟨next, hinsert, hnext⟩ := h.insert op
  have hplace : b.cells.size = placeOf numbering.operator.1 := h.size_eq
  have htip : next.tip = placeOf numbering.operator.1 :=
    hnext.tip_eq.trans (congrArg placeOf (Frame.label_ofBinary _ _ op))
  refine ⟨next, ?_, htip.trans hplace.symm, ?_⟩
  · simp only [Reader.step, hpeek, Reader.stepOperator, hfound, if_false, hsymbol, hinsert]
    rfl
  · have hleads := hnext.leads_chain
    rw [Spine.chain_cons, Frame.label_ofBinary, ← htip] at hleads
    exact hleads

end Mirrors

/-- The chain from the tip to the root keeps its shape through all that is read with the operators of
    a validated registry: no text leads to a reader in place of another shape. A right parenthesis
    therefore always closes the group that was opened last, and no operator goes past an open group. -/
theorem Reaches.exists_shaped [LawfulPrefixMap M] {registry : Registry}
    (hregistry : registry.Validated) {text : List Char} {r : Reader}
    (h : Reaches (Dialect.ofRegistry registry : Dialect M) text r) :
    ∃ chain, r.Shaped (Dialect.ofRegistry registry : Dialect M) chain := by
  have hsound : (Dialect.ofRegistry registry : Dialect M).Sound := Dialect.sound_ofRegistry hregistry
  obtain ⟨s, ⟨-, hexpected, hmirrors⟩, hbound⟩ := h.exists_follows Assembly.bound_start
    fun ha htoken htakes => ha.takes (Cursor.stands_of_token? hsound htoken) htakes
  obtain ⟨right, hcells⟩ := hmirrors.exists_spine_cells
  have hoperand : r.expected = .operand → s.assembly.due = .operand := fun hdue =>
    Due.expectation_eq_operand_iff.1 (hexpected.symm.trans hdue)
  have hoperator : r.expected = .operator → ∃ left, s.assembly.due = .operator left := fun hdue =>
    Due.expectation_eq_operator_iff.1 (hexpected.symm.trans hdue)
  refine ⟨s.assembly.spine.chain,
    { leads := hmirrors.leads_chain
      descending := Spine.pairwise_chain hmirrors.descending
      operators := fun place hplace => ?_
      groups := fun {place cell} hcell hopen => ?_
      operand_due := fun hdue => hmirrors.right?_eq_none_iff (hoperand hdue)
      operator_due := fun hdue => ?_
      settled := fun hdue => ?_
      naming := fun hdue {name rest} hname => hmirrors.step_naming (hoperand hdue) _ hdue hname
      opening := fun hdue hname {op rest} hsymbol => ?_
      closer := fun hdue hpeek => ?_
      misplaced := hmirrors.step_misplaced hbound _
      insertion := fun hdue {op rest} hsymbol => ?_ }⟩
  · obtain ⟨cell, hmem, hcell⟩ := Spine.exists_cell_of_mem_chain hplace right
    exact ⟨cell, hcells hmem, hcell⟩
  · obtain ⟨frame, hframe, -, rfl⟩ := hmirrors.exists_isGroup hbound hcell hopen
    exact List.mem_append_left _
      (List.mem_map_of_mem (f := placeOf) (List.mem_map_of_mem (f := Frame.label) hframe))
  · obtain ⟨left, hleft⟩ := hoperator hdue
    exact hmirrors.right?_ne_none hleft
  · obtain ⟨left, hleft⟩ := hoperator hdue
    exact hmirrors.exists_settled hbound hleft
  · obtain ⟨found, hpeek⟩ := Cursor.exists_peek?_of_symbol? hsymbol
    exact hmirrors.step_opening (hoperand hdue) _ hdue hname hpeek hsymbol
  · obtain ⟨left, hleft⟩ := hoperator hdue
    exact hmirrors.step_closer hbound hleft _ hdue hpeek
  · obtain ⟨left, hleft⟩ := hoperator hdue
    obtain ⟨found, hpeek⟩ := Cursor.exists_peek?_of_symbol? hsymbol
    obtain ⟨c, rfl, hprecedence⟩ := hsound.connective_of_symbol? hsymbol
    obtain ⟨passed, stop, outer, hchain, hrest, hclimb, hpassed, hstop⟩ :=
      hmirrors.exists_climb hprecedence left
    refine ⟨passed, stop, outer, hchain, hclimb, hpassed, hstop, fun hcloser => ?_⟩
    have hfound : found ≠ ')' := fun heq => hcloser (heq ▸ hpeek)
    rw [← hrest]
    exact hmirrors.step_insertion hleft _ hdue hsymbol hpeek hfound

/-- Reading up to an end with a group still open comes to such a chain. No right parenthesis follows, so
    the group stays on it. -/
theorem Reaches.exists_shaped_openAtRight :
    Registry.standard.Validated ∧
      ∃ r, Reaches (Dialect.ofRegistry Registry.standard : Dialect PrefixMap.Trie)
          "a|!b&(c".toList r ∧
        r.step (Dialect.ofRegistry Registry.standard : Dialect PrefixMap.Trie) = .ok none ∧
        ∃ chain, r.Shaped (Dialect.ofRegistry Registry.standard : Dialect PrefixMap.Trie) chain := by
  have hread := read_eq (Dialect.ofRegistry Registry.standard : Dialect PrefixMap.Trie)
    "a|!b&(c".toList
  rw [parseWith_openAtRight] at hread
  obtain ⟨r, hr, hend, -⟩ := Reaches.start.exists_of_run_eq_ok hread
  exact ⟨.standard, r, hr, hend, hr.exists_shaped .standard⟩

end Linked

end Sentential
