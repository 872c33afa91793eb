import Sentential.Proofs.Linked.Sharing

namespace Sentential

namespace Linked.Slots

/-- The slots hold the formulas as trees, the leaves of which hold the values of their environments. -/
structure Matches (slots : Slots) (e : Environments) : Prop where
  size_eq : slots.size = e.count
  holds : ∀ index, Option.Rel Slot.Holds (slots.slot? index) (e.slot? index)

namespace Matches

variable {M : Type → Type} [PrefixMap M] {d : Dialect M} {slots : Slots} {e : Environments}
  {index : Nat} {linked : Slot}

/-- At the start the leaves of every tree hold false, as the environments do. Texts that are no formulas
    leave empty slots in both. -/
theorem start (texts : List (List Char)) :
    Matches (Slots.start (texts.map (read d))) (Environments.start (texts.map (parseWith d))) := by
  refine ⟨by simp [Slots.start, Environments.start], fun index => ?_⟩
  rw [Environments.slot?_start, slot?, Slots.start]
  simp only [List.getElem?_toArray, List.getElem?_map]
  cases texts[index]? with
  | none => exact .none
  | some text =>
    simp only [Option.map_some, Option.bind_some, read_eq]
    cases parseWith d text with
    | error e => exact .none
    | ok p => exact .some (Slot.Holds.ofTree p)

/-- Where the same entry of both is replaced, the others stay related. -/
private theorem rel_ite {c : Prop} [Decidable c] {next : Slot} {slot : Sentential.Slot}
    {found : Option Slot} {expected : Option Sentential.Slot} (hnext : next.Holds slot)
    (hother : Option.Rel Slot.Holds found expected) :
    Option.Rel Slot.Holds (if c then some next else found) (if c then some slot else expected) := by
  split
  · exact .some hnext
  · exact hother

/-- Storing a slot that holds other values is giving its formula another environment. The tree of the
    slot stays. -/
theorem put (h : Matches slots e) (hslot : slots.slot? index = some linked) {next : Slot}
    {slot : Sentential.Slot} (hnext : next.Holds slot) :
    Matches (slots.setIfInBounds index (some next)) (e.put index slot) := by
  refine ⟨Array.size_setIfInBounds.trans h.size_eq, fun other => ?_⟩
  rw [slot?, join_getElem?_setIfInBounds hslot, Environments.slot?_put]
  exact rel_ite hnext (h.holds other)

/-- Storing what a slot holds already keeps the slots and the environments alike. -/
theorem keep (h : Matches slots e) (hlinked : slots.slot? index = some linked)
    {slot : Sentential.Slot} (hslot : e.slot? index = some slot) (hholds : linked.Holds slot) :
    Matches (slots.setIfInBounds index (some linked)) e := by
  have hput := h.put hlinked hholds
  rwa [Environments.put_self hslot] at hput

/-- Adding a slot to both keeps them alike. The copy has leaves of its own. -/
theorem push (h : Matches slots e) {slot : Sentential.Slot} (hlinked : linked.Holds slot) :
    Matches (slots.push (some linked)) (e.push slot) := by
  refine ⟨by simp [h.size_eq, Environments.push], fun other => ?_⟩
  rw [slot?, join_getElem?_push, Environments.slot?_push, h.size_eq]
  exact rel_ite hlinked (h.holds other)

/-- The columns that an action asks for are the same in both, since a tree has the symbols of its
    formula. -/
theorem columns?_eq (h : Matches slots e) (columns : Columns) :
    slots.columns? columns = e.columns? columns := by
  cases columns with
  | listed symbols => rfl
  | ordered index order =>
    have hholds := h.holds index
    rw [columns?, Environments.columns?]
    generalize slots.slot? index = found, e.slot? index = expected at hholds
    cases hholds with
    | none => rfl
    | some hslot =>
      rw [Option.map_some, Option.map_some, hslot.tree_eq]
      rfl

private theorem answer_assign (h : Matches slots e) {text : List Char} {slot : Sentential.Slot}
    (hparse : parseWith d text = .ok slot.parsed) (hlinked : slots.slot? index = some linked)
    (hholds : linked.Holds slot) (name : String) (value : Bool) :
    let action : Action Flag := .assign name value
    ∃ next, slots.answer index linked action = .ok ((e.answer index slot action).1, next) ∧
      Matches next (e.answer index slot action).2 := by
  have hsymbols : linked.tree.symbols = slot.parsed.symbols := by rw [hholds.tree_eq]; rfl
  simp only [Slots.answer, Environments.answer, hsymbols]
  cases hget : slot.parsed.symbols.get? name with
  | none =>
    simp only [Parsed.not_mem_atoms_of_get?_symbols hparse hget, if_false]
    exact ⟨slots, rfl, h⟩
  | some id =>
    have hatom := (Parsed.get?_symbols_eq_some_iff hparse).1 hget
    have hleaf : linked.tree.proposition? id = some (.atom name) := by
      rw [hholds.tree_eq, proposition?_ofParsed_eq_atom_iff, hatom]
    simp only [Parsed.mem_atoms_of_get?_symbols hparse hget, if_true, hleaf]
    exact ⟨_, rfl, h.put hlinked (hholds.set hparse hatom value)⟩

private theorem answer_setAt (h : Matches slots e) {text : List Char} {slot : Sentential.Slot}
    (hparse : parseWith d text = .ok slot.parsed) (hlinked : slots.slot? index = some linked)
    (hslot : e.slot? index = some slot) (hholds : linked.Holds slot) (id : NodeId) (value : Bool) :
    let action : Action Flag := .setAt id value
    ∃ next, slots.answer index linked action = .ok ((e.answer index slot action).1, next) ∧
      Matches next (e.answer index slot action).2 := by
  have hproposition : linked.tree.proposition? id =
      slot.parsed.nodes[id]?.bind Node.proposition? := by
    rw [hholds.tree_eq, proposition?_ofParsed]
  simp only [Slots.answer, Environments.answer, hproposition]
  cases hnode : slot.parsed.nodes[id]? with
  | none => exact ⟨slots, rfl, h⟩
  | some node =>
    obtain ⟨f, parent⟩ := node
    cases f with
    | leaf label p =>
      cases p with
      | constant fixed => exact ⟨_, rfl, h.keep hlinked hslot hholds⟩
      | atom name =>
        have hatom : slot.parsed.atom? id = some name := by
          simp [Parsed.atom?, hnode, Node.proposition?]
        have hset := hholds.set hparse hatom value
        have hstored : Store.value (linked.store.setIfInBounds id value) id (.atom name) = value := by
          simp [Store.value, hset.getElem?_eq hatom]
        refine ⟨_, ?_, h.put hlinked hset⟩
        simp only [Option.bind_some, Node.proposition?, Store.setValue, hstored]
        rfl
    | _ => exact ⟨slots, rfl, h⟩

/-- Each action on a slot is answered alike, without getting stuck. There is one case for each kind of
    action. -/
theorem answer (h : Matches slots e) {text : List Char} {slot : Sentential.Slot}
    (hparse : parseWith d text = .ok slot.parsed) (hlinked : slots.slot? index = some linked)
    (hslot : e.slot? index = some slot) (hholds : linked.Holds slot) (action : Action Flag) :
    ∃ next, slots.answer index linked action = .ok ((e.answer index slot action).1, next) ∧
      Matches next (e.answer index slot action).2 := by
  have hsize : linked.tree.vertices.size = slot.parsed.nodes.size := by
    simp [hholds.tree_eq, Tree.ofParsed]
  have hinside : ∀ {id : NodeId} {node : Node}, slot.parsed.nodes[id]? = some node →
      id < slot.parsed.nodes.size := fun hnode => (Array.getElem?_eq_some_iff.1 hnode).1
  have houtside : ∀ {id : NodeId}, slot.parsed.nodes[id]? = none →
      ¬ id < slot.parsed.nodes.size := fun hnode => Nat.not_lt.2 (Array.getElem?_eq_none_iff.1 hnode)
  cases action with
  | assign name value => exact h.answer_assign hparse hlinked hholds name value
  | setAt id value => exact h.answer_setAt hparse hlinked hslot hholds id value
  | evaluate =>
    simp only [Slots.answer, Environments.answer, hholds.evaluateAt_root hparse]
    exact ⟨slots, rfl, h⟩
  | evaluateAt id =>
    simp only [Slots.answer, Environments.answer, hsize]
    cases hnode : slot.parsed.nodes[id]? with
    | none =>
      simp only [houtside hnode, if_false]
      exact ⟨slots, rfl, h⟩
    | some node =>
      simp only [hinside hnode, if_true, hholds.evaluateAt_eq hparse hnode]
      exact ⟨slots, rfl, h⟩
  | render n =>
    simp only [Slots.answer, Environments.answer, hholds.renderOnto_root hparse]
    exact ⟨slots, rfl, h⟩
  | renderAt id n | renderOnto out id n =>
    simp only [Slots.answer, Environments.answer, hsize]
    cases hnode : slot.parsed.nodes[id]? with
    | none =>
      simp only [houtside hnode, if_false]
      exact ⟨slots, rfl, h⟩
    | some node =>
      simp only [hinside hnode, if_true, hholds.renderOnto_eq hparse hnode]
      exact ⟨slots, rfl, h⟩
  | enumerate columns direction flag =>
    simp only [Slots.answer, Environments.answer, h.columns?_eq]
    cases e.columns? columns with
    | none => exact ⟨slots, rfl, h⟩
    | some listed =>
      obtain ⟨next, hnext, hvalues⟩ := hholds.enumerate_eq hparse listed direction flag
      simp only [hnext]
      exact ⟨_, rfl, h.put hlinked hvalues⟩
  | clone =>
    simp only [Slots.answer, Environments.answer, h.size_eq]
    exact ⟨_, rfl, h.push hholds⟩

/-- Each action is answered alike, also one on an empty slot. Walks are never stuck, because all trees
    were read from texts. -/
theorem step (h : Matches slots e) (hreads : e.Reads d) (index : Nat) (action : Action Flag) :
    ∃ next, slots.step index action = .ok ((e.step index action).1, next) ∧
      Matches next (e.step index action).2 := by
  have hholds := h.holds index
  unfold Slots.step Environments.step
  generalize hlinked : slots.slot? index = found, hslot : e.slot? index = expected at hholds
  cases hholds with
  | none => exact ⟨slots, rfl, h⟩
  | some hholds =>
    obtain ⟨text, hparse⟩ := hreads.exists_text hslot
    exact h.answer hparse hlinked hslot hholds action

/-- A run is answered alike, whatever came before, without getting stuck. The induction is on the
    actions. -/
theorem run (h : Matches slots e) (hreads : e.Reads d) (actions : List (Nat × Action Flag)) :
    ∃ last, slots.run actions = .ok ((e.run actions).1, last) ∧ Matches last (e.run actions).2 := by
  induction actions generalizing slots e with
  | nil => exact ⟨slots, rfl, h⟩
  | cons first rest ih =>
    obtain ⟨index, action⟩ := first
    obtain ⟨next, hnext, hmatches⟩ := h.step hreads index action
    obtain ⟨last, hlast, hends⟩ := ih hmatches (hreads.step index action)
    refine ⟨last, ?_, hends⟩
    rw [Slots.run, hnext]
    simp only [bind, Except.bind, hlast]
    rfl

end Matches

end Linked.Slots

/-- A session is a map from slots to formulas that stay the same, each with an environment. Every run of
    actions is answered as this map answers it, where the values are kept by name as well as where they
    are kept at the leaves of trees that are walked in place, which never gets stuck. Clones, refusals
    and cancelled enumerations are actions like any other. -/
theorem Session.run_refines {M : Type → Type} [PrefixMap M] (d : Dialect M)
    (texts : List (List Char)) :
    let e := Environments.start (texts.map (parseWith d))
    (∀ actions : List (Nat × Action (Option Nat)),
      ∃ last, (Session.start (texts.map (parseWith d))).run (actions.map (Prod.map id Action.command)) =
          ((e.run (actions.map (Prod.map id Action.flagged))).1, last) ∧
        last.Matches (e.run (actions.map (Prod.map id Action.flagged))).2) ∧
    ∀ actions : List (Nat × Action Flag),
      (∃ last, (Linked.Slots.start (texts.map (Linked.read d))).run actions =
          .ok ((e.run actions).1, last) ∧
        last.Matches (e.run actions).2) ∧
      ∀ {index slot}, e.slot? index = some slot →
        ∃ v, (e.run actions).2.slot? index = some ⟨slot.parsed, v⟩ := by
  intro e
  have hreads : e.Reads d := Environments.Reads.start texts
  refine ⟨fun actions => ?_, fun actions => ⟨?_, fun hslot => hreads.exists_slot?_run hslot actions⟩⟩
  · obtain ⟨hreplies, hlast⟩ := (Session.Matches.start texts).run hreads actions
    exact ⟨_, Prod.ext hreplies rfl, hlast⟩
  · exact (Linked.Slots.Matches.start texts).run hreads actions

end Sentential
