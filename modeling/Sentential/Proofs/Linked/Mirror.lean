import Sentential.Proofs.Linked.Cells

namespace Sentential

open Linked

namespace Spine

/-- The group that is closed is the innermost one. Nothing is closed where there is no group. -/
theorem map_label_find?_isGroup (operand : Formula NodeId) (spine : Spine) :
    (spine.find? Frame.isGroup).map Frame.label =
      (spine.close? operand).map fun closed => closed.1.label := by
  induction spine generalizing operand with
  | nil => rfl
  | cons frame rest ih =>
    rw [close?]
    cases hgroup : frame.isGroup with
    | true => simp [hgroup]
    | false => simpa [hgroup] using ih (frame.fill false operand)

/-- The numbers of the operators from the innermost one outwards. -/
def labels (spine : Spine) : List NodeId :=
  spine.map Frame.label

private theorem placeAbove_tip_lt {frame : Frame} {rest : Spine}
    (h : (labels (frame :: rest)).Pairwise (· > ·)) : placeAbove (tip rest) < placeOf frame.label := by
  cases rest with
  | nil => exact Nat.succ_pos _
  | cons next outer =>
    have hlt : next.label < frame.label := (List.pairwise_cons.1 h).1 _ List.mem_cons_self
    exact Nat.succ_lt_succ hlt

private theorem setRight_tipCell (right : Option Place) (below : Place) (spine : Spine) :
    (spine.tipCell right).setRight below = spine.tipCell (some below) := by
  cases spine with
  | nil => rfl
  | cons frame rest => exact frame.setRight_cell right _ below

/-- The cell of the innermost operator records what is below it, and so does the root where there is no
    operator. -/
theorem right?_tipCell (right : Option Place) (spine : Spine) :
    (spine.tipCell right).right? = right := by
  cases spine with
  | nil => rfl
  | cons frame rest => exact frame.right?_cell right _

end Spine

namespace Linked

/-- A cell that is in the array is fetched. Being stuck is only for places outside of it. -/
theorem fetch_eq_ok {cells : Array Cell} {place : Place} {cell : Cell}
    (h : cells[place]? = some cell) : fetch cells place = .ok cell := by
  rw [fetch, h]

private theorem getElem?_push_of_some {cells : Array Cell} {place : Place} {cell : Cell}
    (h : cells[place]? = some cell) (last : Cell) : (cells.push last)[place]? = some cell := by
  have hlt := (Array.getElem?_eq_some_iff.1 h).1
  rw [Array.getElem?_push, if_neg (Nat.ne_of_lt hlt)]
  exact h

section Walks

variable {cells : Array Cell} {spine : Spine} {right : Option Place}

/-- The way up from the tip goes along the spine, and comes to the group that is found there. It never
    follows as many links as there are places below the tip, because the places decrease. -/
theorem openGroup?_tip
    (hcells : ∀ {place : Place} {cell : Cell}, (place, cell) ∈ spine.cells right → cells[place]? = some cell)
    (hspine : spine.labels.Pairwise (· > ·)) {links : Nat} (hlinks : placeAbove spine.tip < links) :
    openGroup? cells links (placeAbove spine.tip) =
      .ok ((spine.find? Frame.isGroup).map fun frame => placeOf frame.label) := by
  induction spine generalizing right links with
  | nil =>
    obtain ⟨more, rfl⟩ := Nat.exists_eq_succ_of_ne_zero (Nat.ne_of_gt hlinks)
    have htip := fetch_eq_ok (hcells List.mem_cons_self)
    simp only [openGroup?]
    rw [htip]
    rfl
  | cons frame rest ih =>
    obtain ⟨more, rfl⟩ := Nat.exists_eq_succ_of_ne_zero (Nat.ne_of_gt (Nat.zero_lt_of_lt hlinks))
    have htip : fetch cells (placeAbove (Spine.tip (frame :: rest))) =
        .ok (frame.cell right (placeAbove (Spine.tip rest))) :=
      fetch_eq_ok (hcells (by simp [Spine.cells, Spine.tipCell]))
    have habove : placeAbove (Spine.tip rest) < more :=
      Nat.lt_of_lt_of_le (Spine.placeAbove_tip_lt hspine) (Nat.le_of_lt_succ hlinks)
    have hbelow : ∀ {place : Place} {cell : Cell},
        (place, cell) ∈ Spine.cells (some (placeOf frame.label)) rest → cells[place]? = some cell :=
      fun hmem => hcells (by simp [Spine.cells_cons, hmem])
    have hrest := ih hbelow (List.pairwise_cons.1 hspine).2 habove
    simp only [openGroup?]
    rw [htip]
    cases hgroup : frame.isGroup with
    | true => simp [bind, Except.bind, hgroup, pure, Except.pure, Spine.tip, placeAbove]
    | false => simpa [bind, Except.bind, hgroup] using hrest

/-- A climb along links stops where a climb along the spine does. It never follows as many links as
    there are places below the tip, because the places decrease. -/
theorem climb_tip
    (hcells : ∀ {place : Place} {cell : Cell}, (place, cell) ∈ spine.cells right → cells[place]? = some cell)
    (hspine : spine.labels.Pairwise (· > ·)) {links : Nat} (hlinks : placeAbove spine.tip < links)
    (precedence : Int) (operand : Formula NodeId) :
    climb cells precedence links (placeAbove spine.tip) =
      .ok (placeAbove (spine.climb precedence operand).2.tip) := by
  induction spine generalizing right links operand with
  | nil =>
    obtain ⟨more, rfl⟩ := Nat.exists_eq_succ_of_ne_zero (Nat.ne_of_gt hlinks)
    have htip := fetch_eq_ok (hcells List.mem_cons_self)
    simp only [climb]
    rw [htip]
    simp only [bind, Except.bind, Cell.above?]
    split <;> rfl
  | cons frame rest ih =>
    obtain ⟨more, rfl⟩ := Nat.exists_eq_succ_of_ne_zero (Nat.ne_of_gt (Nat.zero_lt_of_lt hlinks))
    have htip : fetch cells (placeAbove (Spine.tip (frame :: rest))) =
        .ok (frame.cell right (placeAbove (Spine.tip rest))) :=
      fetch_eq_ok (hcells (by simp [Spine.cells, Spine.tipCell]))
    have habove : placeAbove (Spine.tip rest) < more :=
      Nat.lt_of_lt_of_le (Spine.placeAbove_tip_lt hspine) (Nat.le_of_lt_succ hlinks)
    have hbelow : ∀ {place : Place} {cell : Cell},
        (place, cell) ∈ Spine.cells (some (placeOf frame.label)) rest → cells[place]? = some cell :=
      fun hmem => hcells (by simp [Spine.cells_cons, hmem])
    have hrest := ih hbelow (List.pairwise_cons.1 hspine).2 habove (frame.fill false operand)
    simp only [climb, Spine.climb]
    rw [htip]
    simp only [bind, Except.bind, Frame.precedence_cell, Frame.above?_cell]
    split
    · exact hrest
    · rfl

end Walks

/-- The builder is the assembly in place: it stores the same cells, the tip is the innermost operator,
    and the leaves have the same identifiers. Operators on the spine were made one after the other,
    the outermost one first. -/
structure Mirrors (a : Assembly) (b : Builder) : Prop where
  stores : Stores b.cells a.cells
  size_eq : b.cells.size = a.numbering.next + 1
  tip_eq : b.tip = placeAbove a.spine.tip
  leaves : ∀ name : String, b.leaves[name]? = a.numbering.leaves[name]?.map placeOf
  leaf : ∀ {name : String} {place : Place}, b.leaves[name]? = some place →
    b.cells[place]? = some (.leaf (.ofIdentifier name))
  descending : a.spine.labels.Pairwise (· > ·)
  lt_next : ∀ id ∈ a.spine.labels, id < a.numbering.next

namespace Mirrors

/-- Before any token there is the root alone, and nothing is on the spine. An operand is due below the
    root. -/
theorem start : Mirrors Assembly.start Builder.start where
  stores :=
    { holds := fun hmem => by
        obtain ⟨rfl, rfl⟩ := Prod.mk.inj (List.mem_singleton.1 hmem)
        rfl
      covers := fun {place} hplace => by
        obtain rfl := Nat.lt_one_iff.1 hplace
        exact ⟨_, List.mem_singleton_self _⟩
      once := List.pairwise_singleton _ _ }
  size_eq := rfl
  tip_eq := rfl
  leaves name := by simp [Builder.start, Assembly.start, Numbering.empty]
  leaf h := by simp [Builder.start] at h
  descending := .nil
  lt_next id hid := by cases hid

variable {numbering : Numbering} {spine : Spine} {b : Builder}

/-- The cells of the spine are among all others, whatever is expected next. What is below the innermost
    operator depends on that. -/
theorem exists_spine_cells {a : Assembly} (h : Mirrors a b) : ∃ right, ∀ {place : Place} {cell : Cell},
    (place, cell) ∈ a.spine.cells right → b.cells[place]? = some cell := by
  obtain ⟨numbering, spine, due⟩ := a
  cases due with
  | operand => exact ⟨none, fun hmem => h.stores.holds hmem⟩
  | operator left =>
    exact ⟨some (placeOf left.label), fun hmem => h.stores.holds (List.mem_append_left _ hmem)⟩

/-- The tip is in the array, so a link from it can be changed. -/
theorem tip_lt_size {a : Assembly} (h : Mirrors a b) : placeAbove a.spine.tip < b.cells.size := by
  obtain ⟨right, hcells⟩ := h.exists_spine_cells
  have htip : (placeAbove a.spine.tip, a.spine.tipCell right) ∈ a.spine.cells right := by
    simp [Spine.cells]
  exact (Array.getElem?_eq_some_iff.1 (hcells htip)).1

/-- The nearest open group in the array is the innermost one on the spine. The search is never stuck. -/
theorem openGroup?_eq {a : Assembly} (h : Mirrors a b) :
    openGroup? b.cells b.cells.size b.tip =
      .ok ((a.spine.find? Frame.isGroup).map fun frame => placeOf frame.label) := by
  obtain ⟨right, hcells⟩ := h.exists_spine_cells
  rw [h.tip_eq]
  exact openGroup?_tip hcells h.descending h.tip_lt_size

/-- A climb in the array stops at the operator where a climb along the spine does. It is never stuck. -/
theorem climb_eq {a : Assembly} (h : Mirrors a b) (precedence : Int) (operand : Formula NodeId) :
    climb b.cells precedence b.cells.size b.tip =
      .ok (placeAbove (a.spine.climb precedence operand).2.tip) := by
  obtain ⟨right, hcells⟩ := h.exists_spine_cells
  rw [h.tip_eq]
  exact climb_tip hcells h.descending h.tip_lt_size precedence operand

/-- A link from the tip to what is below it can always be set. It turns the spine with nothing below it
    into the spine with that operand, and leaves all leaves alone. -/
theorem update_tip {cells : Array Cell} {right : Option Place} {back : List (Place × Cell)}
    (h : Stores cells (spine.cells right ++ back)) (below : Place) :
    ∃ next, update cells (placeAbove spine.tip) (·.setRight below) = .ok next ∧
      Relinked cells next ∧ Stores next (spine.cells (some below) ++ back) := by
  have hentries : ∀ right, spine.cells right ++ back =
      spine.outer ++ (placeAbove spine.tip, spine.tipCell right) :: back := by
    simp [Spine.cells]
  rw [hentries] at h ⊢
  rw [← Spine.setRight_tipCell right below spine]
  exact h.update (Cell.relinks_setRight below)

/-- An identifier goes below the tip, in place and in the assembly alike. The two cases are a leaf that
    is there already and a new one. -/
theorem attach (h : Mirrors ⟨numbering, spine, .operand⟩ b) (name : String) :
    ∃ next, b.attach name = .ok next ∧
      Mirrors ⟨(numbering.leaf name).2, spine,
        .operator (.leaf (numbering.leaf name).1 (.ofIdentifier name))⟩ next := by
  obtain ⟨hstores, hsize, htip, hleaves, hleaf, hdescending, hlt⟩ := h
  obtain ⟨cells, tip, leaves⟩ := b
  simp only at hstores hsize htip hleaves hleaf hdescending hlt
  subst htip
  unfold Builder.attach Builder.leaf Numbering.leaf
  have hname := hleaves name
  cases hfound : numbering.leaves[name]? with
  | some id =>
    rw [hfound, Option.map_some] at hname
    have hcell := hleaf hname
    obtain ⟨next, hupdate, hrelinked, hnext⟩ := update_tip (hstores.again hcell) (placeOf id)
    simp only [hname]
    rw [hupdate]
    exact ⟨_, rfl, hnext, hrelinked.size_eq.trans hsize, rfl, hleaves,
      fun h => hrelinked.leaf (hleaf h), hdescending, hlt⟩
  | none =>
    rw [hfound, Option.map_none] at hname
    obtain ⟨next, hupdate, hrelinked, hnext⟩ :=
      update_tip (hstores.push (.leaf (.ofIdentifier name))) cells.size
    have hplace : cells.size = placeOf numbering.next := hsize
    simp only [hname]
    rw [hupdate]
    refine ⟨_, rfl, hplace ▸ hnext, ?_, rfl, fun other => ?_, fun {other place} h => ?_, hdescending,
      fun id hid => Nat.lt_succ_of_lt (hlt id hid)⟩
    · rw [hrelinked.size_eq, Array.size_push, hsize]
    · simp only [Std.TreeMap.getElem?_insert]
      split
      · rw [hplace, Option.map_some]
      · exact hleaves other
    · simp only [Std.TreeMap.getElem?_insert] at h
      refine hrelinked.leaf ?_
      split at h
      · rename_i hsame
        obtain rfl := Std.LawfulEqCmp.eq_of_compare hsame
        obtain rfl := Option.some.inj h
        rw [Array.getElem?_push, if_pos rfl]
      · exact getElem?_push_of_some (hleaf h) _

/-- What a builder and an assembly share of a new innermost operator: only its cell is still to be
    linked. Both kinds of operator use it, in front of an operand and behind one. -/
theorem of_cons {frame : Frame} {rest : Spine} {cells next : Array Cell} {tip : Place}
    {leaves : Std.TreeMap String Place} {cell : Cell} {due : Due}
    (h : Mirrors ⟨numbering, spine, due⟩ ⟨cells, tip, leaves⟩) (hrest : rest <:+ spine)
    (hlabel : frame.label = numbering.next)
    (hrelinked : Relinked (cells.push cell) next)
    (hnext : Stores next (Spine.cells none (frame :: rest))) :
    Mirrors ⟨numbering.operator.2, frame :: rest, .operand⟩ ⟨next, cells.size, leaves⟩ := by
  have hlabels : rest.labels.Sublist spine.labels := hrest.sublist.map Frame.label
  have hlt : ∀ id ∈ Spine.labels rest, id < numbering.next :=
    fun id hid => h.lt_next id (hlabels.subset hid)
  refine ⟨hnext, ?_, ?_, h.leaves, fun hname => ?_, ?_, fun id hid => ?_⟩
  · rw [hrelinked.size_eq, Array.size_push, h.size_eq]
    rfl
  · rw [h.size_eq, Spine.tip, hlabel]
    rfl
  · exact hrelinked.leaf (getElem?_push_of_some (h.leaf hname) cell)
  · exact List.pairwise_cons.2 ⟨fun id hid => hlabel ▸ hlt id hid, h.descending.sublist hlabels⟩
  · rcases List.mem_cons.1 hid with rfl | hid
    · rw [hlabel]
      exact Nat.lt_succ_self _
    · exact Nat.lt_succ_of_lt (hlt id hid)

/-- An operator in front of an operand goes below the tip, in place and in the assembly alike. It is on
    top of the spine then, and an operand is due. -/
theorem enter (h : Mirrors ⟨numbering, spine, .operand⟩ b) (op : Operator) :
    ∃ next, b.enter op = .ok next ∧
      Mirrors ⟨numbering.operator.2, .ofUnary numbering.operator.1 op :: spine, .operand⟩ next := by
  obtain ⟨cells, tip, leaves⟩ := b
  obtain rfl : tip = placeAbove spine.tip := h.tip_eq
  have hplace : cells.size = placeOf numbering.operator.1 := h.size_eq
  obtain ⟨linked, hlink, hrelinked, hlinked⟩ := update_tip (h.stores.push (.ofOperator op)) cells.size
  obtain ⟨next, hupdate, hrelinkedNext, hnext⟩ :=
    hlinked.update (Cell.relinks_setAbove (placeAbove spine.tip))
  refine ⟨⟨next, cells.size, leaves⟩, ?_, ?_⟩
  · simp only [Builder.enter]
    rw [hlink]
    simp only [bind, Except.bind]
    rw [hupdate]
    rfl
  · refine of_cons h List.suffix_rfl (Frame.label_ofUnary _ op) (hrelinked.trans hrelinkedNext) ?_
    rw [Spine.cells_cons, Frame.label_ofUnary, Frame.before_ofUnary, Frame.cell_ofUnary, ← hplace,
      List.append_nil]
    exact hnext

/-- A right parenthesis closes the group that is closed on the spine. What is above the group becomes
    the tip, and the group is the operand that is done. -/
theorem close? {left : Formula NodeId} (h : Mirrors ⟨numbering, spine, .operator left⟩ b)
    {group : Formula NodeId} {rest : Spine} (hclose : spine.close? left = some (group, rest)) :
    ∃ next, b.close? = .ok (some next) ∧ Mirrors ⟨numbering, rest, .operator group⟩ next := by
  have hopen := h.openGroup?_eq
  have hgroup := spine.map_label_find?_isGroup left
  rw [hclose] at hgroup
  obtain ⟨frame, hframe, hlabel⟩ := Option.map_eq_some_iff.1 hgroup
  rw [hframe, Option.map_some, hlabel] at hopen
  obtain ⟨front, back, cell, hbefore, hbehind, -, habove⟩ := Spine.exists_cellsWith_of_close? hclose
  have hstores : Stores b.cells (front ++ (placeOf group.label, cell) :: back) := hbefore ▸ h.stores
  obtain ⟨next, hupdate, hrelinked, hnext⟩ := hstores.update Cell.relinks_close
  have hfetch : fetch next (placeOf group.label) = .ok cell.close :=
    fetch_eq_ok (hnext.holds (List.mem_append_right _ List.mem_cons_self))
  have hstored : Stores next (Spine.cellsWith group rest) := hbehind ▸ hnext
  have hlabels : rest.labels.Sublist spine.labels :=
    (Spine.suffix_of_close? hclose).sublist.map Frame.label
  refine ⟨⟨next, placeAbove rest.tip, b.leaves⟩, ?_, ?_⟩
  · unfold Builder.close?
    rw [hopen]
    simp only [bind, Except.bind]
    rw [hupdate]
    simp only
    rw [hfetch]
    simp [habove, pure, Except.pure]
  · exact ⟨hstored, hrelinked.size_eq.trans h.size_eq, rfl, h.leaves,
      fun hname => hrelinked.leaf (h.leaf hname), h.descending.sublist hlabels,
      fun id hid => h.lt_next id (hlabels.subset hid)⟩

/-- Where no group is open on the spine, none is found in the array. The search ends at the root then,
    and is not stuck. -/
theorem close?_eq_none {left : Formula NodeId} (h : Mirrors ⟨numbering, spine, .operator left⟩ b)
    (hclose : spine.close? left = none) : b.close? = .ok none := by
  have hopen := h.openGroup?_eq
  have hgroup := spine.map_label_find?_isGroup left
  rw [hclose, Option.map_none, Option.map_eq_none_iff] at hgroup
  rw [hgroup] at hopen
  unfold Builder.close?
  rw [hopen]
  rfl

/-- An operator behind an operand takes the place of what binds at least as tightly. The links that
    change are those at the stop of the climb, at the new cell and at the outermost node of the left
    operand. -/
theorem insert {left : Formula NodeId} (h : Mirrors ⟨numbering, spine, .operator left⟩ b)
    (op : Operator) : ∃ next, b.insert op = .ok next ∧
      Mirrors ⟨numbering.operator.2,
        .ofBinary numbering.operator.1 (spine.climb op.precedence left).1 op ::
          (spine.climb op.precedence left).2, .operand⟩ next := by
  have hclimb := h.climb_eq op.precedence left
  have hsuffix := spine.climb_suffix op.precedence left
  have hcells := spine.cellsWith_climb op.precedence left
  obtain ⟨cells, tip, leaves⟩ := b
  have hplace : cells.size = placeOf numbering.operator.1 := h.size_eq
  have hstores : Stores cells (Spine.cellsWith (spine.climb op.precedence left).1
      (spine.climb op.precedence left).2) := hcells ▸ h.stores
  generalize spine.climb op.precedence left = climbed at hclimb hsuffix hstores ⊢
  obtain ⟨operand, rest⟩ := climbed
  simp only at hclimb hsuffix hstores ⊢
  have hpushed := hstores.push (.ofOperator op)
  have hfetch : fetch (cells.push (.ofOperator op)) (placeAbove rest.tip) =
      .ok (rest.tipCell (some (placeOf operand.label))) :=
    fetch_eq_ok (hpushed.holds (by simp [Spine.cellsWith, Spine.cells]))
  rw [Spine.cellsWith, List.append_assoc] at hpushed
  obtain ⟨linked, hlink, hrelinked, hlinked⟩ := update_tip hpushed cells.size
  rw [← List.append_assoc] at hlinked
  obtain ⟨withLeft, hleft, hrelinkedLeft, hwithLeft⟩ :=
    hlinked.update (Cell.relinks_setLeft (some (placeOf operand.label)))
  obtain ⟨withAbove, habove, hrelinkedAbove, hwithAbove⟩ :=
    hwithLeft.update (Cell.relinks_setAbove (placeAbove rest.tip))
  -- Of the operand only the outermost node knows what is above it.
  obtain ⟨front, back, houtermost⟩ := operand.exists_cells_eq_append
  have hentries : ∀ (parent : Option NodeId) (last : Cell),
      rest.cells (some cells.size) ++ operand.cells parent ++ [(cells.size, last)] =
        (rest.cells (some cells.size) ++ front) ++
          (placeOf operand.label, (operand.outermost parent).cell) :: (back ++ [(cells.size, last)]) := by
    intro parent last
    rw [houtermost]
    simp
  rw [hentries] at hwithAbove
  obtain ⟨next, hupdate, hrelinkedNext, hnext⟩ :=
    hwithAbove.update (Cell.relinks_setAbove cells.size)
  refine ⟨⟨next, cells.size, leaves⟩, ?_, ?_⟩
  · simp only [Builder.insert]
    rw [hclimb]
    simp only [bind, Except.bind]
    rw [hfetch]
    simp only [Spine.right?_tipCell]
    rw [hlink]
    simp only
    rw [hleft]
    simp only
    rw [habove]
    simp only
    rw [hupdate]
    rfl
  · refine of_cons h hsuffix (Frame.label_ofBinary _ operand op)
      (((hrelinked.trans hrelinkedLeft).trans hrelinkedAbove).trans hrelinkedNext) ?_
    rw [Spine.cells_cons, Frame.label_ofBinary, Frame.before_ofBinary, Frame.cell_ofBinary, ← hplace,
      hentries, ← Formula.setAbove_cell_outermost operand rest.tip, ← hplace]
    exact hnext

end Mirrors

end Linked

end Sentential
