import Sentential.Proofs.Linked.Mirror
import Sentential.Proofs.Parsing.Precedence

namespace Sentential

namespace Linked

/-- Whether the cell is a group that was closed. -/
def Cell.isClosed : Cell → Bool
  | operator .. => false
  | group _ closed .. => closed
  | leaf _ => false

/-- The places on the way from one place up to the cell above all others. Each is the right operand of
    the next one. -/
inductive Leads (cells : Array Cell) : Place → List Place → Prop where
  | root {cell : Cell} (hcell : cells[rootPlace]? = some cell) (habove : cell.above? = none) :
    Leads cells rootPlace [rootPlace]
  | link {place above : Place} {lower upper : Cell} {chain : List Place}
    (hlower : cells[place]? = some lower) (habove : lower.above? = some above)
    (hupper : cells[above]? = some upper) (hright : upper.right? = some place)
    (hchain : Leads cells above chain) : Leads cells place (place :: chain)

/-- No group is open. -/
def NoneOpen (cells : Array Cell) : Prop :=
  ∀ {place : Place} {cell : Cell}, cells[place]? = some cell → cell.isOpen = false

/-- The group that was opened last of all that are open. -/
structure LastOpened (cells : Array Cell) (place : Place) (cell : Cell) : Prop where
  getElem?_eq : cells[place]? = some cell
  isOpen : cell.isOpen = true
  last : ∀ {other : Place} {found : Cell}, cells[other]? = some found → found.isOpen = true →
    other ≤ place

end Linked

open Linked

namespace Formula

/-- Where every group is closed, no cell is open. The groups that are open in a formula that is being
    read are thus to be looked for on the spine. -/
theorem AllClosed.isOpen_of_mem_cells {f : Formula NodeId} (hf : f.AllClosed) {parent : Option NodeId}
    {e : Place × Cell} (he : e ∈ f.cells parent) : e.2.isOpen = false := by
  induction f generalizing parent with
  | leaf id p =>
    obtain rfl := List.mem_singleton.1 he
    rfl
  | unary id c operand ih =>
    rcases List.mem_cons.1 he with rfl | hbelow
    · rfl
    · exact ih hf hbelow
  | binary id c left right ihl ihr =>
    obtain ⟨hleft, hright⟩ := hf
    rw [cells, walk, List.map_append] at he
    rcases List.mem_append.1 he with hbefore | hrest
    · exact ihl hleft hbefore
    · rcases List.mem_cons.1 hrest with rfl | hbelow
      · rfl
      · exact ihr hright hbelow
  | group id o closed body ih =>
    obtain ⟨rfl, hbody⟩ := hf
    rcases List.mem_cons.1 he with rfl | hbelow
    · rfl
    · exact ih hbody hbelow
  | regroup id o closed discarded body ihd ihb =>
    obtain ⟨rfl, hdiscarded, hbody⟩ := hf
    rw [cells, walk, List.map_append] at he
    rcases List.mem_append.1 he with hbefore | hrest
    · exact ihd hdiscarded hbefore
    · rcases List.mem_cons.1 hrest with rfl | hbelow
      · rfl
      · exact ihb hbody hbelow

/-- An operand that is done is a leaf or a closed group. An operator cannot be done before the next
    token is known, which may bind more tightly. -/
theorem Settled.cell_outermost {f : Formula NodeId} (hf : f.Settled) (parent : Option NodeId) :
    (f.outermost parent).cell.isLeaf = true ∨ (f.outermost parent).cell.isClosed = true := by
  obtain ⟨-, hclosed, -, hright⟩ := hf
  cases f with
  | leaf id p => exact .inl rfl
  | unary id c operand => cases hright
  | binary id c left right => cases hright
  | group id o closed body => exact .inr hclosed.1
  | regroup id o closed discarded body => exact .inr hclosed.1

end Formula

/-- An operand is expected exactly while one is due. The reader in place keeps the expectation only. -/
theorem Due.expectation_eq_operand_iff {due : Due} : due.expectation = .operand ↔ due = .operand := by
  cases due <;> simp [expectation]

/-- An operator is expected exactly while there is an operand for it. In place that operand is found
    below the tip. -/
theorem Due.expectation_eq_operator_iff {due : Due} :
    due.expectation = .operator ↔ ∃ left, due = .operator left := by
  cases due <;> simp [expectation]

/-- No cell of the spine is a closed group. -/
@[simp] theorem Frame.isClosed_cell (right : Option Place) (above : Place) (frame : Frame) :
    (frame.cell right above).isClosed = false := by
  cases frame <;> rfl

namespace Spine

/-- The places of the operators from the innermost one outwards, and of the root. -/
def chain (spine : Spine) : List Place :=
  spine.labels.map placeOf ++ [rootPlace]

/-- The way up from the innermost operator leads along the spine. It is only asked of the cells of the
    spine that they are in the array, whatever else is stored there. -/
theorem leads_chain {cells : Array Cell} {spine : Spine} {right : Option Place}
    (hcells : ∀ {place : Place} {cell : Cell}, (place, cell) ∈ spine.cells right →
      cells[place]? = some cell) : Leads cells (placeAbove spine.tip) spine.chain := by
  induction spine generalizing right with
  | nil => exact .root (hcells List.mem_cons_self) rfl
  | cons frame rest ih =>
    have hbelow : ∀ {place : Place} {cell : Cell},
        (place, cell) ∈ Spine.cells (some (placeOf frame.label)) rest → cells[place]? = some cell :=
      fun hmem => hcells (by simp [Spine.cells_cons, hmem])
    have hframe : cells[placeOf frame.label]? = some (frame.cell right (placeAbove (tip rest))) :=
      hcells (by simp [cells_cons])
    have habove : cells[placeAbove (tip rest)]? = some (tipCell (some (placeOf frame.label)) rest) :=
      hbelow (by simp [Spine.cells])
    exact .link hframe (frame.above?_cell right _) habove (right?_tipCell _ rest) (ih hbelow)

/-- The innermost operator begins the chain, and the chain of the other ones follows. -/
theorem chain_cons (frame : Frame) (rest : Spine) :
    chain (frame :: rest) = placeOf frame.label :: rest.chain := rfl

private theorem chain_append (inner outer : Spine) :
    chain (inner ++ outer) = inner.labels.map placeOf ++ outer.chain := by
  simp [chain, labels]

/-- The innermost operator is where the way up begins, or else the root. The chain is never empty. -/
theorem exists_chain_eq_cons (spine : Spine) : ∃ outer, spine.chain = placeAbove spine.tip :: outer := by
  cases spine with
  | nil => exact ⟨[], rfl⟩
  | cons frame rest => exact ⟨chain rest, rfl⟩

/-- Operators on the spine were made one after the other, so the places on the chain decrease down to
    the root, which is the first of all. -/
theorem pairwise_chain {spine : Spine} (h : spine.labels.Pairwise (· > ·)) :
    spine.chain.Pairwise (· > ·) := by
  refine List.pairwise_append.2 ⟨?_, List.pairwise_singleton _ _, ?_⟩
  · exact h.map placeOf fun _ _ hlt => Nat.succ_lt_succ hlt
  · intro place hplace root hroot
    obtain ⟨id, -, rfl⟩ := List.mem_map.1 hplace
    obtain rfl := List.mem_singleton.1 hroot
    exact Nat.succ_pos id

/-- The outer part of a spine has its cells among those of the whole, whatever is below its own
    innermost operator. -/
private theorem exists_cells_subset (right : Option Place) (inner outer : Spine) : ∃ below,
    cells below outer ⊆ cells right (inner ++ outer) := by
  induction inner generalizing right with
  | nil => exact ⟨right, List.Subset.refl _⟩
  | cons frame rest ih =>
    obtain ⟨below, hbelow⟩ := ih (some (placeOf frame.label))
    refine ⟨below, fun e he => ?_⟩
    rw [List.cons_append, cells_cons]
    exact List.mem_append_left _ (List.mem_append_left _ (hbelow he))

private theorem exists_cell_of_mem {spine : Spine} {frame : Frame} (h : frame ∈ spine)
    (right : Option Place) : ∃ below above,
      (placeOf frame.label, frame.cell below above) ∈ spine.cells right := by
  obtain ⟨inner, outer, rfl⟩ := List.append_of_mem h
  obtain ⟨below, hsubset⟩ := exists_cells_subset right inner (frame :: outer)
  exact ⟨below, placeAbove (tip outer), hsubset (by simp [cells_cons])⟩

private theorem exists_root_mem_cells (spine : Spine) (right : Option Place) : ∃ below,
    (rootPlace, Cell.operator rootConnective none below none) ∈ spine.cells right := by
  obtain ⟨below, hsubset⟩ := exists_cells_subset right spine []
  rw [List.append_nil] at hsubset
  exact ⟨below, hsubset List.mem_cons_self⟩

/-- Along the spine there are operators and open groups only. Leaves and closed groups are never above
    the place where reading goes on. -/
theorem exists_cell_of_mem_chain {spine : Spine} {place : Place} (h : place ∈ spine.chain)
    (right : Option Place) : ∃ cell, (place, cell) ∈ spine.cells right ∧
      cell.isLeaf = false ∧ cell.isClosed = false := by
  rcases List.mem_append.1 h with hframe | hroot
  · obtain ⟨id, hid, rfl⟩ := List.mem_map.1 hframe
    obtain ⟨frame, hmem, rfl⟩ := List.mem_map.1 hid
    obtain ⟨below, above, hcell⟩ := exists_cell_of_mem hmem right
    exact ⟨_, hcell, frame.isLeaf_cell _ _, frame.isClosed_cell _ _⟩
  · obtain rfl := List.mem_singleton.1 hroot
    obtain ⟨below, hcell⟩ := spine.exists_root_mem_cells right
    exact ⟨_, hcell, rfl, rfl⟩

/-- The groups that are open are on the spine. What stands before an operator on the spine is whole, so
    none of its groups is open. -/
theorem exists_isGroup_of_isOpen {spine : Spine} (hspine : spine.Bound) {right : Option Place}
    {place : Place} {cell : Cell} (h : (place, cell) ∈ spine.cells right) (hopen : cell.isOpen = true) :
    ∃ frame ∈ spine, frame.isGroup = true ∧ place = placeOf frame.label := by
  induction spine generalizing right with
  | nil =>
    obtain ⟨-, rfl⟩ := Prod.mk.inj (List.mem_singleton.1 h)
    cases hopen
  | cons frame rest ih =>
    obtain ⟨hframe, -, hrest⟩ := hspine
    rw [cells_cons] at h
    rcases List.mem_append.1 h with hbefore | hlast
    · rcases List.mem_append.1 hbefore with houter | hleft
      · obtain ⟨found, hfound, hgroup⟩ := ih hrest houter
        exact ⟨found, List.mem_cons_of_mem frame hfound, hgroup⟩
      · -- What stands before an operator is whole.
        cases frame with
        | unary id c => cases hleft
        | binary id c left =>
          have hclosed := hframe.2.1.isOpen_of_mem_cells hleft
          simp [hclosed] at hopen
        | group id o => cases hleft
        | regroup id o discarded => exact hframe.elim
    · obtain ⟨rfl, rfl⟩ := Prod.mk.inj (List.mem_singleton.1 hlast)
      exact ⟨frame, List.mem_cons_self, by simpa using hopen, rfl⟩

/-- Only the innermost operator can be without a right operand, and only while nothing is below it. -/
private theorem eq_tip_of_right?_eq_none {spine : Spine} {right : Option Place} {place : Place}
    {cell : Cell} (h : (place, cell) ∈ spine.cells right) (hleaf : cell.isLeaf = false)
    (hright : cell.right? = none) : place = placeAbove spine.tip ∧ right = none := by
  induction spine generalizing right with
  | nil =>
    obtain ⟨rfl, rfl⟩ := Prod.mk.inj (List.mem_singleton.1 h)
    exact ⟨rfl, hright⟩
  | cons frame rest ih =>
    rw [cells_cons] at h
    rcases List.mem_append.1 h with hbefore | hlast
    · rcases List.mem_append.1 hbefore with houter | hleft
      · cases (ih houter).2
      · cases frame with
        | unary id c => cases hleft
        | binary id c left => exact absurd hright (Formula.right?_ne_none_of_mem_cells hleft hleaf)
        | group id o => cases hleft
        | regroup id o left => exact absurd hright (Formula.right?_ne_none_of_mem_cells hleft hleaf)
    · obtain ⟨rfl, rfl⟩ := Prod.mk.inj (List.mem_singleton.1 hlast)
      exact ⟨rfl, by simpa using hright⟩

/-- A climb goes past operators that bind at least as tightly, and leaves the rest of the spine as it
    is. -/
private theorem exists_passed_of_climb (precedence : Int) (operand : Formula NodeId) (spine : Spine) :
    ∃ passed, spine = passed ++ (spine.climb precedence operand).2 ∧
      ∀ frame ∈ passed, precedence ≤ frame.precedence := by
  induction spine generalizing operand with
  | nil => exact ⟨[], rfl, List.forall_mem_nil _⟩
  | cons frame rest ih =>
    rw [climb]
    split
    · rename_i hclimb
      obtain ⟨passed, hpassed, hle⟩ := ih (frame.fill false operand)
      exact ⟨frame :: passed, congrArg (frame :: ·) hpassed, List.forall_mem_cons.2 ⟨hclimb, hle⟩⟩
    · exact ⟨[], rfl, List.forall_mem_nil _⟩

private theorem precedence_tipCell (right : Option Place) (spine : Spine) :
    (spine.tipCell right).precedence = spine.floor := by
  cases spine with
  | nil => rfl
  | cons frame rest => exact frame.precedence_cell right _

end Spine

namespace Linked

namespace Mirrors

variable {a : Assembly} {b : Builder}

/-- The way up from the tip leads along the spine, whatever is expected next. What is below the tip
    plays no part in it. -/
theorem leads_chain (h : Mirrors a b) : Leads b.cells b.tip a.spine.chain := by
  obtain ⟨right, hcells⟩ := h.exists_spine_cells
  exact h.tip_eq ▸ Spine.leads_chain hcells

/-- An open group is on the spine, whatever is expected next. The array may hold many cells that are
    not, but none of them is open. -/
theorem exists_isGroup (h : Mirrors a b) (ha : a.Bound) {place : Place} {cell : Cell}
    (hcell : b.cells[place]? = some cell) (hopen : cell.isOpen = true) :
    ∃ frame ∈ a.spine, frame.isGroup = true ∧ place = placeOf frame.label := by
  have hmem := h.stores.mem_iff.2 hcell
  obtain ⟨numbering, spine, due⟩ := a
  cases due with
  | operand => exact Spine.exists_isGroup_of_isOpen ha.spine hmem hopen
  | operator left =>
    rcases List.mem_append.1 hmem with hspine | hleft
    · exact Spine.exists_isGroup_of_isOpen ha.spine hspine hopen
    · have hclosed := (ha.settled left rfl).allClosed.isOpen_of_mem_cells hleft
      simp [hclosed] at hopen

/-- No group is open if there is none on the spine. A right parenthesis is then unmatched. -/
theorem noneOpen (h : Mirrors a b) (ha : a.Bound) (hfind : a.spine.find? Frame.isGroup = none) :
    NoneOpen b.cells := by
  intro place cell hcell
  cases hopen : cell.isOpen with
  | false => rfl
  | true =>
    obtain ⟨frame, hframe, hgroup, -⟩ := h.exists_isGroup ha hcell hopen
    exact absurd hgroup (List.find?_eq_none.1 hfind frame hframe)

/-- The innermost group on the spine was opened last of all groups that are open, since the places along
    the spine decrease upwards. It has a link to what is above it. -/
theorem lastOpened (h : Mirrors a b) (ha : a.Bound) {frame : Frame}
    (hfind : a.spine.find? Frame.isGroup = some frame) :
    ∃ cell, LastOpened b.cells (placeOf frame.label) cell ∧ ∃ above, cell.above? = some above := by
  obtain ⟨hgroup, inner, outer, hspine, hinner⟩ := List.find?_eq_some_iff_append.1 hfind
  obtain ⟨right, hcells⟩ := h.exists_spine_cells
  have hmem : frame ∈ a.spine := hspine ▸ List.mem_append_right inner List.mem_cons_self
  obtain ⟨below, above, hcell⟩ := Spine.exists_cell_of_mem hmem right
  refine ⟨_, ⟨hcells hcell, ?_, fun {other found} hfound hopen => ?_⟩, above, frame.above?_cell _ _⟩
  · rwa [Frame.isOpen_cell]
  · obtain ⟨group, hmemGroup, hisGroup, rfl⟩ := h.exists_isGroup ha hfound hopen
    rw [hspine] at hmemGroup
    rcases List.mem_append.1 hmemGroup with hfront | hrest
    · have hfalse := hinner group hfront
      simp [hisGroup] at hfalse
    · rcases List.mem_cons.1 hrest with rfl | houter
      · exact Nat.le_refl _
      · have hdescending := h.descending
        rw [hspine, Spine.labels, List.map_append] at hdescending
        have hbehind := (List.pairwise_append.1 hdescending).2.1
        have hlt := (List.pairwise_cons.1 hbehind).1 _ (List.mem_map_of_mem (f := Frame.label) houter)
        exact Nat.succ_le_succ (Nat.le_of_lt hlt)

/-- While an operand is due, the tip is the only operator without a right operand. The next operand
    therefore has one place to go. -/
theorem right?_eq_none_iff (h : Mirrors a b) (hdue : a.due = .operand) {place : Place} {cell : Cell}
    (hcell : b.cells[place]? = some cell) (hleaf : cell.isLeaf = false) :
    cell.right? = none ↔ place = b.tip := by
  obtain ⟨numbering, spine, _⟩ := a
  subst hdue
  have hmem : (place, cell) ∈ spine.cells none := h.stores.mem_iff.2 hcell
  have htip : b.tip = placeAbove spine.tip := h.tip_eq
  constructor
  · exact fun hright => (Spine.eq_tip_of_right?_eq_none hmem hleaf hright).1.trans htip.symm
  · rintro rfl
    have hstored : b.cells[b.tip]? = some (spine.tipCell none) :=
      h.stores.holds (by simp [htip, Assembly.cells, Spine.cells])
    obtain rfl := Option.some.inj (hcell.symm.trans hstored)
    exact spine.right?_tipCell none

/-- While an operator is due, no operator is without a right operand. The text may end here. -/
theorem right?_ne_none (h : Mirrors a b) {left : Formula NodeId} (hdue : a.due = .operator left)
    {place : Place} {cell : Cell} (hcell : b.cells[place]? = some cell) (hleaf : cell.isLeaf = false) :
    cell.right? ≠ none := by
  obtain ⟨numbering, spine, _⟩ := a
  subst hdue
  rcases List.mem_append.1 (h.stores.mem_iff.2 hcell) with hspine | hleft
  · intro hright
    cases (Spine.eq_tip_of_right?_eq_none hspine hleaf hright).2
  · exact Formula.right?_ne_none_of_mem_cells hleft hleaf

/-- While an operator is due, there is a leaf or a closed group below the tip. An operator that is
    inserted moves it to its left. -/
theorem exists_settled (h : Mirrors a b) (ha : a.Bound) {left : Formula NodeId}
    (hdue : a.due = .operator left) : ∃ cell child below,
      b.cells[b.tip]? = some cell ∧ cell.right? = some child ∧ b.cells[child]? = some below ∧
        (below.isLeaf = true ∨ below.isClosed = true) := by
  obtain ⟨numbering, spine, _⟩ := a
  subst hdue
  have htip : b.tip = placeAbove spine.tip := h.tip_eq
  obtain ⟨front, back, hleft⟩ := left.exists_cells_eq_append
  refine ⟨spine.tipCell (some (placeOf left.label)), placeOf left.label,
    (left.outermost spine.tip).cell, h.stores.holds ?_, Spine.right?_tipCell _ spine,
    h.stores.holds ?_, (ha.settled left rfl).cell_outermost spine.tip⟩
  · simp [htip, Assembly.cells, Spine.cellsWith, Spine.cells]
  · simp [Assembly.cells, Spine.cellsWith, hleft]

/-- A climb goes past connectives that bind at least as tightly as an operator, but not past an open
    group, and stops at what binds less tightly. The spine above the stop is left as it was. -/
theorem exists_climb (h : Mirrors a b) {precedence : Int} (hprecedence : openPrecedence < precedence)
    (operand : Formula NodeId) : ∃ passed stop outer,
      a.spine.chain = passed ++ stop :: outer ∧
      (a.spine.climb precedence operand).2.chain = stop :: outer ∧
      climb b.cells precedence b.cells.size b.tip = .ok stop ∧
      (∀ place ∈ passed, ∃ cell, b.cells[place]? = some cell ∧ precedence ≤ cell.precedence ∧
        cell.isOpen = false) ∧
      ∃ cell, b.cells[stop]? = some cell ∧ cell.precedence < precedence := by
  obtain ⟨right, hcells⟩ := h.exists_spine_cells
  have hwhole : wholePrecedence < precedence := Int.lt_trans (by decide) hprecedence
  have hclimb := h.climb_eq precedence operand
  have hfloor := Spine.floor_climb_lt hwhole a.spine operand
  obtain ⟨passed, hspine, hpassed⟩ := Spine.exists_passed_of_climb precedence operand a.spine
  generalize (a.spine.climb precedence operand).2 = rest at hclimb hfloor hspine ⊢
  obtain ⟨outer, houter⟩ := rest.exists_chain_eq_cons
  refine ⟨(Spine.labels passed).map placeOf, placeAbove rest.tip, outer, ?_, houter, hclimb,
    fun place hplace => ?_, ?_⟩
  · rw [hspine, Spine.chain_append, houter]
  · obtain ⟨id, hid, rfl⟩ := List.mem_map.1 hplace
    obtain ⟨frame, hframe, rfl⟩ := List.mem_map.1 hid
    have hmem : frame ∈ a.spine := hspine ▸ List.mem_append_left rest hframe
    obtain ⟨below, above, hcell⟩ := Spine.exists_cell_of_mem hmem right
    refine ⟨_, hcells hcell, ?_, ?_⟩
    · rw [Frame.precedence_cell]
      exact hpassed frame hframe
    · rw [Frame.isOpen_cell]
      exact Frame.isGroup_of_openPrecedence_lt (Int.lt_of_lt_of_le hprecedence (hpassed frame hframe))
  · obtain ⟨below, hsubset⟩ := Spine.exists_cells_subset right passed rest
    rw [hspine] at hcells
    refine ⟨rest.tipCell below, hcells (hsubset (by simp [Spine.cells])), ?_⟩
    rwa [Spine.precedence_tipCell]

end Mirrors

end Linked

end Sentential
