import Sentential.Proofs.Formula.Links
import Sentential.Proofs.Linked.Reader

namespace Sentential

namespace Linked

/-- A change of links. Leaves have none and stay as they are. -/
structure Cell.Relinks (change : Cell → Cell) : Prop where
  leaf : ∀ p, change (.leaf p) = .leaf p
  isLeaf : ∀ cell, (change cell).isLeaf = cell.isLeaf

namespace Cell

/-- Changing the left link changes no leaf, and makes no cell a leaf. -/
theorem relinks_setLeft (left : Option Place) : Relinks (setLeft left) :=
  ⟨fun _ => rfl, fun cell => by cases cell <;> rfl⟩

/-- Changing the right link changes no leaf, and makes no cell a leaf. -/
theorem relinks_setRight (right : Place) : Relinks (setRight right) :=
  ⟨fun _ => rfl, fun cell => by cases cell <;> rfl⟩

/-- Changing the link upwards changes no leaf, and makes no cell a leaf. A leaf can therefore be given
    to many operators without recording any of them. -/
theorem relinks_setAbove (above : Place) : Relinks (setAbove above) :=
  ⟨fun _ => rfl, fun cell => by cases cell <;> rfl⟩

/-- Closing a group changes no leaf, and makes no cell a leaf. -/
theorem relinks_close : Relinks close :=
  ⟨fun _ => rfl, fun cell => by cases cell <;> rfl⟩

/-- A group keeps its link upwards when it is closed. The tip of what goes on behind the group is found
    by it. -/
@[simp] theorem above?_close (cell : Cell) : cell.close.above? = cell.above? := by
  cases cell <;> rfl

end Cell

/-- Another array of as many cells, with the same leaves at their places. -/
structure Relinked (cells next : Array Cell) : Prop where
  size_eq : next.size = cells.size
  leaf : ∀ {place : Place} {p : Proposition}, cells[place]? = some (.leaf p) →
    next[place]? = some (.leaf p)

/-- Relinking one array after the other is relinking. Several changes are taken as one. -/
theorem Relinked.trans {a b c : Array Cell} (hab : Relinked a b) (hbc : Relinked b c) :
    Relinked a c :=
  ⟨hbc.size_eq.trans hab.size_eq, fun h => hbc.leaf (hab.leaf h)⟩

private theorem relinked_modify {change : Cell → Cell} (hchange : Cell.Relinks change)
    (cells : Array Cell) (place : Place) : Relinked cells (cells.modify place change) where
  size_eq := Array.size_modify
  leaf := by
    intro other p h
    rw [Array.getElem?_modify]
    split
    · rw [h, Option.map_some, hchange.leaf]
    · exact h

/-- An array that holds the listed cells and no others. Only leaves are listed more than once. -/
structure Stores (cells : Array Cell) (entries : List (Place × Cell)) : Prop where
  holds : ∀ {place : Place} {cell : Cell}, (place, cell) ∈ entries → cells[place]? = some cell
  covers : ∀ {place : Place}, place < cells.size → ∃ cell, (place, cell) ∈ entries
  once : entries.Pairwise fun a b => a.1 = b.1 → a.2.isLeaf = true

namespace Stores

variable {cells : Array Cell} {entries : List (Place × Cell)}

/-- What is listed is in the array. A change of its cell is therefore never stuck. -/
theorem lt_size (h : Stores cells entries) {place : Place} {cell : Cell}
    (hmem : (place, cell) ∈ entries) : place < cells.size :=
  (Array.getElem?_eq_some_iff.1 (h.holds hmem)).1

/-- The list and the array say the same. This is where it is used that all cells of the array are
    listed. -/
theorem mem_iff (h : Stores cells entries) {place : Place} {cell : Cell} :
    (place, cell) ∈ entries ↔ cells[place]? = some cell := by
  refine ⟨h.holds, fun hcell => ?_⟩
  obtain ⟨other, hother⟩ := h.covers (Array.getElem?_eq_some_iff.1 hcell).1
  obtain rfl := Option.some.inj (hcell.symm.trans (h.holds hother))
  exact hother

/-- A new cell is put behind all others. Its place is the number of cells there were, so no place is
    listed twice by it. -/
theorem push (h : Stores cells entries) (cell : Cell) :
    Stores (cells.push cell) (entries ++ [(cells.size, cell)]) where
  holds := by
    intro place found hmem
    rcases List.mem_append.1 hmem with hold | hnew
    · have hlt := h.lt_size hold
      rw [Array.getElem?_push, if_neg (Nat.ne_of_lt hlt)]
      exact h.holds hold
    · obtain ⟨rfl, rfl⟩ := Prod.mk.inj (List.mem_singleton.1 hnew)
      rw [Array.getElem?_push, if_pos rfl]
  covers := by
    intro place hplace
    rw [Array.size_push] at hplace
    rcases Nat.lt_succ_iff_lt_or_eq.1 hplace with hlt | rfl
    · obtain ⟨found, hfound⟩ := h.covers hlt
      exact ⟨found, List.mem_append_left _ hfound⟩
    · exact ⟨cell, by simp⟩
  once := by
    refine List.pairwise_append.2 ⟨h.once, List.pairwise_singleton _ _, ?_⟩
    rintro ⟨place, found⟩ hold other hnew hplace
    obtain rfl := List.mem_singleton.1 hnew
    exact absurd hplace (Nat.ne_of_lt (h.lt_size hold))

/-- A leaf that is there already is listed once more. Only leaves may be listed more than once, because
    many occurrences share them. -/
theorem again (h : Stores cells entries) {place : Place} {p : Proposition}
    (hleaf : cells[place]? = some (.leaf p)) : Stores cells (entries ++ [(place, .leaf p)]) where
  holds := by
    intro other cell hmem
    rcases List.mem_append.1 hmem with hold | hnew
    · exact h.holds hold
    · obtain ⟨rfl, rfl⟩ := Prod.mk.inj (List.mem_singleton.1 hnew)
      exact hleaf
  covers := by
    intro other hother
    obtain ⟨cell, hcell⟩ := h.covers hother
    exact ⟨cell, List.mem_append_left _ hcell⟩
  once := by
    refine List.pairwise_append.2 ⟨h.once, List.pairwise_singleton _ _, ?_⟩
    rintro ⟨other, cell⟩ hold last hnew rfl
    obtain rfl := List.mem_singleton.1 hnew
    obtain rfl := Option.some.inj (hleaf.symm.trans (h.holds hold))
    rfl

/-- Changing one cell changes its entry. A change has no effect on leaves, so it does not matter whether
    these are listed elsewhere. -/
theorem modify {front back : List (Place × Cell)} {place : Place} {cell : Cell}
    (h : Stores cells (front ++ (place, cell) :: back)) {change : Cell → Cell}
    (hchange : Cell.Relinks change) :
    Stores (cells.modify place change) (front ++ (place, change cell) :: back) where
  holds := by
    have hcell : cells[place]? = some cell := h.holds (by simp)
    have hfixed : cell.isLeaf = true → change cell = cell := by
      cases cell with
      | leaf p => exact fun _ => hchange.leaf p
      | _ => exact fun hfalse => by cases hfalse
    -- A cell listed elsewhere under this place is the same leaf.
    have helsewhere : ∀ {other found}, (other, found) ∈ front ++ back →
        (cells.modify place change)[other]? = some found := by
      intro other found hmem
      have hfound : cells[other]? = some found := by
        refine h.holds ?_
        rcases List.mem_append.1 hmem with hfront | hback
        · exact List.mem_append_left _ hfront
        · exact List.mem_append_right _ (List.mem_cons_of_mem _ hback)
      rw [Array.getElem?_modify]
      split
      · rename_i hsame
        subst hsame
        obtain rfl := Option.some.inj (hcell.symm.trans hfound)
        have hisLeaf : cell.isLeaf = true := by
          obtain ⟨-, hback, hcross⟩ := List.pairwise_append.1 h.once
          rcases List.mem_append.1 hmem with hfront | hbehind
          · exact hcross _ hfront _ List.mem_cons_self rfl
          · exact (List.pairwise_cons.1 hback).1 _ hbehind rfl
        rw [hcell, Option.map_some, hfixed hisLeaf]
      · exact hfound
    intro other found hmem
    rcases List.mem_append.1 hmem with hfront | hrest
    · exact helsewhere (List.mem_append_left _ hfront)
    · rcases List.mem_cons.1 hrest with heq | hback
      · obtain ⟨rfl, rfl⟩ := Prod.mk.inj heq
        rw [Array.getElem?_modify, if_pos rfl, hcell, Option.map_some]
      · exact helsewhere (List.mem_append_right _ hback)
  covers := by
    intro other hother
    rw [Array.size_modify] at hother
    obtain ⟨found, hfound⟩ := h.covers hother
    rcases List.mem_append.1 hfound with hfront | hrest
    · exact ⟨found, List.mem_append_left _ hfront⟩
    · rcases List.mem_cons.1 hrest with heq | hback
      · obtain ⟨rfl, rfl⟩ := Prod.mk.inj heq
        exact ⟨change found, by simp⟩
      · exact ⟨found, List.mem_append_right _ (List.mem_cons_of_mem _ hback)⟩
  once := by
    have hmap : (front ++ (place, change cell) :: back).map (fun e => (e.1, e.2.isLeaf)) =
        (front ++ (place, cell) :: back).map fun e => (e.1, e.2.isLeaf) := by
      simp [hchange.isLeaf]
    have honce := h.once
    rw [← List.pairwise_map (f := fun e : Place × Cell => (e.1, e.2.isLeaf))
      (R := fun a b => a.1 = b.1 → a.2 = true)] at honce ⊢
    rwa [hmap]

/-- A cell that is listed can be changed. The change is never stuck, and the list has the changed cell
    in the same position. -/
theorem update {front back : List (Place × Cell)} {place : Place} {cell : Cell}
    (h : Stores cells (front ++ (place, cell) :: back)) {change : Cell → Cell}
    (hchange : Cell.Relinks change) : ∃ next, Linked.update cells place change = .ok next ∧
      Relinked cells next ∧ Stores next (front ++ (place, change cell) :: back) := by
  have hplace := h.lt_size (List.mem_append_right front List.mem_cons_self)
  exact ⟨_, if_pos hplace, relinked_modify hchange cells place, h.modify hchange⟩

end Stores

/-- The place of a numbered node. The root has the first place. -/
def placeOf (id : NodeId) : Place :=
  id + 1

/-- The place of what is above a node. Above the outermost node there is the root. -/
def placeAbove (parent : Option NodeId) : Place :=
  parent.elim rootPlace placeOf

end Linked

open Linked

/-- The cell of a finished node. An opener in place of a binary operator does not keep the operand
    before it. -/
def Node.cell (node : Node) : Cell :=
  let above := some (placeAbove node.parent)
  match node.formula with
  | .leaf _ p => .leaf p
  | .unary _ c operand => .operator c none (some (placeOf operand.label)) above
  | .binary _ c left right =>
    .operator c (some (placeOf left.label)) (some (placeOf right.label)) above
  | .group _ o closed body => .group o closed (some (placeOf body.label)) above
  | .regroup _ o closed _ body => .group o closed (some (placeOf body.label)) above

/-- The cell of a finished node with its place. -/
def Node.entry (node : Node) : Place × Cell :=
  (placeOf node.formula.label, node.cell)

namespace Formula

/-- The cells of a formula below some node, in reading order. -/
def cells (parent : Option NodeId) (f : Formula NodeId) : List (Place × Cell) :=
  (f.walk parent).map Node.entry

/-- What is above a formula is recorded in its outermost node only. Moving the formula below another
    operator therefore changes one cell. -/
theorem exists_cells_eq_append (f : Formula NodeId) : ∃ front back, ∀ parent,
    f.cells parent = front ++ (placeOf f.label, (f.outermost parent).cell) :: back := by
  cases f with
  | leaf id p => exact ⟨[], [], fun _ => rfl⟩
  | unary id c operand => exact ⟨[], operand.cells (some id), fun _ => rfl⟩
  | binary id c left right =>
    exact ⟨left.cells (some id), right.cells (some id), fun _ => by simp [cells, walk]; rfl⟩
  | group id o closed body => exact ⟨[], body.cells (some id), fun _ => rfl⟩
  | regroup id o closed discarded body =>
    exact ⟨discarded.cells (some id), body.cells (some id), fun _ => by simp [cells, walk]; rfl⟩

/-- The operators and groups of a formula have their right operands. Nothing is due inside of a formula
    that was read. -/
theorem right?_ne_none_of_mem_cells {f : Formula NodeId} {parent : Option NodeId} {e : Place × Cell}
    (he : e ∈ f.cells parent) (hleaf : e.2.isLeaf = false) : e.2.right? ≠ none := by
  obtain ⟨⟨g, above⟩, -, rfl⟩ := List.mem_map.1 he
  cases g with
  | leaf id p => cases hleaf
  | _ => exact Option.some_ne_none _

/-- Linking the outermost node of a formula to another operator gives the cell that it has below that
    operator. -/
theorem setAbove_cell_outermost (f : Formula NodeId) (parent : Option NodeId) (id : NodeId) :
    (f.outermost parent).cell.setAbove (placeOf id) = (f.outermost (some id)).cell := by
  cases f <;> rfl

end Formula

namespace Frame

/-- The number of the operator. -/
def label : Frame → NodeId
  | unary id _ => id
  | binary id _ _ => id
  | group id _ => id
  | regroup id _ _ => id

/-- The cells of what stands before an operator. -/
def before : Frame → List (Place × Cell)
  | unary .. => []
  | binary id _ left => left.cells (some id)
  | group .. => []
  | regroup id _ discarded => discarded.cells (some id)

/-- The cell of an operator that awaits its right operand or has it below it. -/
def cell (right : Option Place) (above : Place) : Frame → Cell
  | unary _ c => .operator c none right (some above)
  | binary _ c left => .operator c (some (placeOf left.label)) right (some above)
  | group _ o => .group o false right (some above)
  | regroup _ o _ => .group o false right (some above)

/-- An operator that gets its operand keeps its number. -/
@[simp] theorem label_fill (closed : Bool) (operand : Formula NodeId) (frame : Frame) :
    (frame.fill closed operand).label = frame.label := by
  cases frame <;> rfl

/-- The precedence of a cell is that of its operator. A group that is still to be closed has the
    precedence of an open one. -/
@[simp] theorem precedence_cell (right : Option Place) (above : Place) (frame : Frame) :
    (frame.cell right above).precedence = frame.precedence := by
  cases frame <;> rfl

/-- The cell of an operator that awaits its operand is open exactly if it is a group. Closing happens
    when the operand is there. -/
@[simp] theorem isOpen_cell (right : Option Place) (above : Place) (frame : Frame) :
    (frame.cell right above).isOpen = frame.isGroup := by
  cases frame <;> rfl

/-- A cell made for an operator on the spine records what is above it. -/
@[simp] theorem above?_cell (right : Option Place) (above : Place) (frame : Frame) :
    (frame.cell right above).above? = some above := by
  cases frame <;> rfl

/-- A cell made for an operator on the spine records what is below it. There is nothing below the
    innermost one while an operand is due. -/
@[simp] theorem right?_cell (right : Option Place) (above : Place) (frame : Frame) :
    (frame.cell right above).right? = right := by
  cases frame <;> rfl

/-- No operator on the spine is a leaf. -/
@[simp] theorem isLeaf_cell (right : Option Place) (above : Place) (frame : Frame) :
    (frame.cell right above).isLeaf = false := by
  cases frame <;> rfl

/-- An operator in front of an operand is put on the spine under the number that it gets. -/
theorem label_ofUnary (id : NodeId) (op : Operator) : (ofUnary id op).label = id := by
  cases op <;> rfl

/-- An operator behind an operand is put on the spine under the number that it gets. -/
theorem label_ofBinary (id : NodeId) (left : Formula NodeId) (op : Operator) :
    (ofBinary id left op).label = id := by
  cases op <;> rfl

/-- Nothing stands before an operator in front of an operand. -/
theorem before_ofUnary (id : NodeId) (op : Operator) : (ofUnary id op).before = [] := by
  cases op <;> rfl

/-- The cells of the left operand stand before an operator behind it, also if an opener drops that
    operand. -/
theorem before_ofBinary (id : NodeId) (left : Formula NodeId) (op : Operator) :
    (ofBinary id left op).before = left.cells (some id) := by
  cases op <;> rfl

/-- An operator in front of an operand has the cell that entering it writes. It has no left operand and
    awaits the right one. -/
theorem cell_ofUnary (id : NodeId) (op : Operator) (above : Place) :
    (ofUnary id op).cell none above = (Cell.ofOperator op).setAbove above := by
  cases op <;> rfl

/-- An operator behind an operand has the cell that inserting it writes. An opener has no left link, and
    setting it changes nothing. -/
theorem cell_ofBinary (id : NodeId) (left : Formula NodeId) (op : Operator) (above : Place) :
    (ofBinary id left op).cell none above =
      ((Cell.ofOperator op).setLeft (some (placeOf left.label))).setAbove above := by
  cases op <;> rfl

/-- Linking an operator to its operand gives the cell that it has with the operand below it. No other
    link is changed. -/
theorem setRight_cell (right : Option Place) (above below : Place) (frame : Frame) :
    (frame.cell right above).setRight below = frame.cell (some below) above := by
  cases frame <;> rfl

/-- An operator that gets its operand keeps its cell, which is closed if it is a group to be closed. The
    cells of the operand stand behind it, and what stood before it is left alone. -/
theorem cells_fill (closed : Bool) (operand : Formula NodeId) (frame : Frame)
    (parent : Option NodeId) :
    (frame.fill closed operand).cells parent =
      frame.before ++
        (placeOf frame.label,
          if closed then (frame.cell (some (placeOf operand.label)) (placeAbove parent)).close
          else frame.cell (some (placeOf operand.label)) (placeAbove parent)) ::
        operand.cells (some frame.label) := by
  cases frame <;> cases closed <;> simp [fill, Formula.cells, Formula.walk, before, label] <;> rfl

end Frame

namespace Spine

/-- The number of the innermost operator, if there is one. -/
def tip : Spine → Option NodeId
  | [] => none
  | frame :: _ => some frame.label

/-- The cell of the innermost operator, or else of the root. -/
def tipCell (right : Option Place) : Spine → Cell
  | [] => .operator rootConnective none right none
  | frame :: rest => frame.cell right (placeAbove (tip rest))

/-- The cells of all operators but the innermost one, and of what stands before operators. -/
def outer : Spine → List (Place × Cell)
  | [] => []
  | frame :: rest =>
    outer rest ++ (placeAbove (tip rest), tipCell (some (placeOf frame.label)) rest) :: frame.before

/-- The cells of a spine. `right` is what is below the innermost operator. -/
def cells (right : Option Place) (spine : Spine) : List (Place × Cell) :=
  spine.outer ++ [(placeAbove spine.tip, spine.tipCell right)]

/-- The cells of a spine are those of its outer part, then those before the innermost operator, and then
    that operator. In the outer part the innermost operator is the operand. -/
theorem cells_cons (right : Option Place) (frame : Frame) (rest : Spine) :
    cells right (frame :: rest) = cells (some (placeOf frame.label)) rest ++ frame.before ++
      [(placeOf frame.label, frame.cell right (placeAbove (tip rest)))] := by
  simp [cells, outer, tip, tipCell, placeAbove]

/-- The cells of a spine with an operand at its end. -/
def cellsWith (operand : Formula NodeId) (spine : Spine) : List (Place × Cell) :=
  spine.cells (some (placeOf operand.label)) ++ operand.cells spine.tip

/-- The innermost operator takes its operand without any change to the cells, unless a group is closed.
    Completing an operator is a matter of how the cells are looked at. -/
theorem cellsWith_cons (operand : Formula NodeId) (frame : Frame) (rest : Spine) :
    cellsWith operand (frame :: rest) = cellsWith (frame.fill false operand) rest := by
  simp [cellsWith, cells_cons, Frame.cells_fill, tip]

/-- A climb changes no cells. It only completes operators that have all their operands already. -/
theorem cellsWith_climb (precedence : Int) (operand : Formula NodeId) (spine : Spine) :
    cellsWith (spine.climb precedence operand).1 (spine.climb precedence operand).2 =
      cellsWith operand spine := by
  induction spine generalizing operand with
  | nil => rfl
  | cons frame rest ih =>
    rw [climb]
    split
    · rw [ih, cellsWith_cons]
    · rfl

/-- Closing a group changes its cell only. The cell was open before, and records what is above it, where
    reading goes on. -/
theorem exists_cellsWith_of_close? {spine rest : Spine} {operand group : Formula NodeId}
    (h : spine.close? operand = some (group, rest)) : ∃ front back cell,
      cellsWith operand spine = front ++ (placeOf group.label, cell) :: back ∧
      cellsWith group rest = front ++ (placeOf group.label, cell.close) :: back ∧
      cell.isOpen = true ∧ cell.above? = some (placeAbove (tip rest)) := by
  induction spine generalizing operand with
  | nil => cases h
  | cons frame inner ih =>
    rw [close?] at h
    split at h
    · rename_i hgroup
      obtain ⟨rfl, rfl⟩ := by simpa using h
      refine ⟨cells (some (placeOf frame.label)) inner ++ frame.before, operand.cells (some frame.label),
        frame.cell (some (placeOf operand.label)) (placeAbove (tip inner)), ?_, ?_, ?_, ?_⟩
      · simp [cellsWith, cells_cons, tip]
      · simp [cellsWith, Frame.cells_fill]
      · simpa using hgroup
      · simp
    · rw [cellsWith_cons]
      exact ih h

end Spine

/-- The cells of all that was read so far. -/
def Assembly.cells (a : Assembly) : List (Place × Cell) :=
  match a.due with
  | .operand => a.spine.cells none
  | .operator left => a.spine.cellsWith left

end Sentential
