import Sentential.Proofs.Parsing.Symbols
import Sentential.Proofs.TruthTable.Visits
import Sentential.Session

namespace Sentential

/-- What can be done with a formula of a session. `Stop` tells when an enumeration is cancelled. -/
inductive Action (Stop : Type) where
  | assign (name : String) (value : Bool)
  | setAt (id : NodeId) (value : Bool)
  | evaluate
  | evaluateAt (id : NodeId)
  | render (n : Notation)
  | renderAt (id : NodeId) (n : Notation)
  | renderOnto (out : String) (id : NodeId) (n : Notation)
  | enumerate (columns : Columns) (direction : Direction) (stop : Stop)
  | clone

namespace Action

/-- The command for an action that is cancelled when some units are spent, or never. -/
def command : Action (Option Nat) → Command
  | assign name value => .assign name value
  | setAt id value => .setAt id value
  | evaluate => .evaluate
  | evaluateAt id => .evaluateAt id
  | render n => .render n
  | renderAt id n => .renderAt id n
  | renderOnto out id n => .renderOnto out id n
  | enumerate columns direction limit => .enumerate columns direction limit
  | clone => .clone

/-- The action with a flag in place of a limit. -/
def flagged : Action (Option Nat) → Action Flag
  | assign name value => assign name value
  | setAt id value => setAt id value
  | evaluate => evaluate
  | evaluateAt id => evaluateAt id
  | render n => render n
  | renderAt id n => renderAt id n
  | renderOnto out id n => renderOnto out id n
  | enumerate columns direction limit => enumerate columns direction (Flag.ofLimit limit)
  | clone => clone

end Action

/-- A map from the numbers of slots to formulas that stay the same, each with an environment: the
    values of its variables. `count` is the number of the next slot. -/
structure Environments where
  count : Nat
  slot? : Nat → Option Slot

namespace Environments

/-- All variables are false at the start. A text that is no formula leaves its slot empty. -/
def start (results : List (Except SyntaxError Parsed)) : Environments :=
  ⟨results.length, fun index => (results[index]?.bind Except.toOption).map Slot.ofParsed⟩

/-- Gives the formula of a slot another environment. -/
def put (e : Environments) (index : Nat) (slot : Slot) : Environments :=
  ⟨e.count, fun other => if other = index then some slot else e.slot? other⟩

/-- Adds a slot behind all others. -/
def push (e : Environments) (slot : Slot) : Environments :=
  ⟨e.count + 1, fun other => if other = e.count then some slot else e.slot? other⟩

/-- The columns that are meant, unless they are those of an empty slot. -/
def columns? (e : Environments) : Columns → Option (List Symbol)
  | .listed symbols => some symbols
  | .ordered index order => (e.slot? index).map (·.parsed.symbols.ordered order)

/-- What an action on a slot answers, and what becomes of the environments. -/
def answer (e : Environments) (index : Nat) (slot : Slot) : Action Flag → Reply × Environments
  | .assign name value =>
    if name ∈ slot.parsed.formula.atoms then
      (.truth true, e.put index ⟨slot.parsed, slot.valuation.set name value⟩)
    else (.truth false, e)
  | .setAt id value =>
    match slot.parsed.nodes[id]?.map Node.formula with
    | some (.leaf _ (.atom name)) =>
      (.leafValue (some value), e.put index ⟨slot.parsed, slot.valuation.set name value⟩)
    | some (.leaf _ (.constant fixed)) => (.leafValue (some fixed), e)
    | _ => (.leafValue none, e)
  | .evaluate => (.truth (slot.parsed.formula.truth slot.valuation), e)
  | .evaluateAt id =>
    match slot.parsed.nodes[id]? with
    | some node => (.truth (node.formula.truth slot.valuation), e)
    | none => (.noSuchNode, e)
  | .render n => (.text (slot.parsed.formula.render n), e)
  | .renderAt id n =>
    match slot.parsed.nodes[id]? with
    | some node => (.text (node.formula.render n), e)
    | none => (.noSuchNode, e)
  | .renderOnto out id n =>
    match slot.parsed.nodes[id]? with
    | some node => (.text (node.formula.renderOnto out n), e)
    | none => (.noSuchNode, e)
  | .enumerate columns direction flag =>
    match e.columns? columns with
    | some columns =>
      let (result, v) := slot.parsed.outcome columns direction flag slot.valuation
      (.table result, e.put index ⟨slot.parsed, v⟩)
    | none => (.noFormula, e)
  | .clone => (.slot e.count, e.push slot)

/-- What an action answers. An empty slot answers every action in the same way and stays empty. -/
def step (e : Environments) (index : Nat) (action : Action Flag) : Reply × Environments :=
  match e.slot? index with
  | some slot => e.answer index slot action
  | none => (.noFormula, e)

/-- What a run of actions answers, in order, and the environments behind it. -/
def run (e : Environments) : List (Nat × Action Flag) → List Reply × Environments
  | [] => ([], e)
  | (index, action) :: rest =>
    let (reply, e) := e.step index action
    let (replies, e) := e.run rest
    (reply :: replies, e)

end Environments

/-- The formulas were read, and no other names but those of their variables are true. -/
structure Environments.Reads {M : Type → Type} [PrefixMap M] (e : Environments) (d : Dialect M) :
    Prop where
  exists_text : ∀ {index slot}, e.slot? index = some slot →
    ∃ text, parseWith d text = .ok slot.parsed
  outside : ∀ {index slot}, e.slot? index = some slot →
    ∀ {name : String}, name ∉ slot.parsed.formula.atoms → slot.valuation name = false
  lt_count : ∀ {index slot}, e.slot? index = some slot → index < e.count

namespace Environments

variable {M : Type → Type} [PrefixMap M] {d : Dialect M} {e : Environments} {index : Nat}
  {slot : Slot}

/-- At the start a slot holds the formula of its text with all variables false, or nothing if the text
    is no formula. Slots behind the last text hold nothing either. -/
theorem slot?_start (texts : List (List Char)) (index : Nat) :
    (start (texts.map (parseWith d))).slot? index =
      texts[index]?.bind fun text => (parseWith d text).toOption.map Slot.ofParsed := by
  simp only [start, List.getElem?_map]
  cases texts[index]? <;> rfl

/-- Giving a slot another environment changes no other slot. It is what keeps formulas apart from each
    other. -/
theorem slot?_put (e : Environments) (index : Nat) (slot : Slot) (other : Nat) :
    (e.put index slot).slot? other = if other = index then some slot else e.slot? other := rfl

/-- A new slot comes behind all others and changes none of them. It has the environment of the slot that
    was copied, as it is at that time. -/
theorem slot?_push (e : Environments) (slot : Slot) (other : Nat) :
    (e.push slot).slot? other = if other = e.count then some slot else e.slot? other := rfl

/-- Storing what a slot holds already changes nothing. Actions that leave all values alone are covered
    by it. -/
theorem put_self (hslot : e.slot? index = some slot) : e.put index slot = e := by
  unfold put
  congr
  funext other
  split
  · rename_i heq
    rw [heq, hslot]
  · rfl

namespace Reads

/-- At the start all formulas were read from texts, and no name is true. -/
theorem start (texts : List (List Char)) :
    (Environments.start (texts.map (parseWith d))).Reads d := by
  have hread : ∀ {index slot}, (Environments.start (texts.map (parseWith d))).slot? index = some slot →
      ∃ text p, texts[index]? = some text ∧ parseWith d text = .ok p ∧ Slot.ofParsed p = slot := by
    intro index slot h
    rw [slot?_start, Option.bind_eq_some_iff] at h
    obtain ⟨text, htext, h⟩ := h
    cases hparse : parseWith d text with
    | error e => simp [hparse, Except.toOption] at h
    | ok p => exact ⟨text, p, htext, hparse, by simpa [hparse, Except.toOption] using h⟩
  refine ⟨fun h => ?_, fun h _ _ => ?_, fun h => ?_⟩
  · obtain ⟨text, p, -, hparse, rfl⟩ := hread h
    exact ⟨text, hparse⟩
  · obtain ⟨text, p, -, -, rfl⟩ := hread h
    rfl
  · obtain ⟨text, p, htext, -⟩ := hread h
    simpa [Environments.start] using (List.getElem?_eq_some_iff.1 htext).1

/-- The variables of a formula may change, nothing else does. Names that are no variables of it keep
    their values, which are false. -/
theorem put (h : e.Reads d) (hslot : e.slot? index = some slot) {v : Valuation}
    (hv : ∀ name, name ∉ slot.parsed.formula.atoms → v name = slot.valuation name) :
    (e.put index ⟨slot.parsed, v⟩).Reads d := by
  have hnew : ∀ {other found}, (e.put index ⟨slot.parsed, v⟩).slot? other = some found →
      e.slot? other = some found ∨ other = index ∧ ⟨slot.parsed, v⟩ = found := by
    intro other found hfound
    rw [slot?_put] at hfound
    split at hfound
    · exact .inr ⟨‹_›, Option.some.inj hfound⟩
    · exact .inl hfound
  refine ⟨fun hfound => ?_, fun hfound name hname => ?_, fun hfound => ?_⟩
  · rcases hnew hfound with hsame | ⟨-, rfl⟩
    · exact h.exists_text hsame
    · obtain ⟨text, hparse⟩ := h.exists_text hslot
      exact ⟨text, hparse⟩
  · rcases hnew hfound with hsame | ⟨-, rfl⟩
    · exact h.outside hsame hname
    · exact (hv name hname).trans (h.outside hslot hname)
  · rcases hnew hfound with hsame | ⟨rfl, -⟩
    · exact h.lt_count hsame
    · exact h.lt_count hslot

/-- A copy of a slot has a formula that was read. It may be copied again. -/
theorem push (h : e.Reads d) (hslot : e.slot? index = some slot) : (e.push slot).Reads d := by
  have hnew : ∀ {other found}, (e.push slot).slot? other = some found →
      (∃ index, e.slot? index = some found) ∧ other ≤ e.count := by
    intro other found hfound
    rw [slot?_push] at hfound
    split at hfound
    · exact ⟨⟨index, hfound ▸ hslot⟩, Nat.le_of_eq ‹_›⟩
    · exact ⟨⟨other, hfound⟩, Nat.le_of_lt (h.lt_count hfound)⟩
  refine ⟨fun hfound => ?_, fun hfound => ?_, fun hfound => ?_⟩
  · obtain ⟨⟨index, hindex⟩, -⟩ := hnew hfound
    exact h.exists_text hindex
  · obtain ⟨⟨index, hindex⟩, -⟩ := hnew hfound
    exact h.outside hindex
  · exact Nat.lt_succ_of_le (hnew hfound).2

/-- An action changes nothing, or variables of one slot, or adds a copy of a slot. All that an action
    keeps is proved of these three cases. -/
theorem step_cases (h : e.Reads d) (index : Nat) (action : Action Flag) :
    (e.step index action).2 = e ∨ ∃ slot, e.slot? index = some slot ∧
      ((e.step index action).2 = e.push slot ∨
        ∃ v : Valuation, (∀ name, name ∉ slot.parsed.formula.atoms → v name = slot.valuation name) ∧
          (e.step index action).2 = e.put index ⟨slot.parsed, v⟩) := by
  unfold Environments.step
  cases hslot : e.slot? index with
  | none => exact .inl rfl
  | some slot =>
    obtain ⟨text, hparse⟩ := h.exists_text hslot
    have hset : ∀ {name : String}, name ∈ slot.parsed.formula.atoms → ∀ value other,
        other ∉ slot.parsed.formula.atoms → slot.valuation.set name value other = slot.valuation other := by
      intro name hname value other hother
      have hne : other ≠ name := by
        rintro rfl
        exact hother hname
      exact Valuation.set_of_ne _ _ hne
    cases action with
    | assign name value =>
      simp only [answer]
      split
      · rename_i hmem
        exact .inr ⟨slot, rfl, .inr ⟨_, hset hmem value, rfl⟩⟩
      · exact .inl rfl
    | setAt id value =>
      simp only [answer]
      split
      · rename_i name hleaf
        obtain ⟨node, hnode, hformula⟩ := Option.map_eq_some_iff.1 hleaf
        have hatom : slot.parsed.atom? id = some name := by
          simp [Parsed.atom?, hnode, Node.proposition?, hformula]
        have hmem := (Parsed.mem_atoms_iff hparse).2 ⟨id, hatom⟩
        exact .inr ⟨slot, rfl, .inr ⟨_, hset hmem value, rfl⟩⟩
      · exact .inl rfl
      · exact .inl rfl
    | evaluate | render n => exact .inl rfl
    | evaluateAt id | renderAt id n | renderOnto out id n =>
      simp only [answer]
      split <;> exact .inl rfl
    | enumerate columns direction flag =>
      simp only [answer]
      split
      · rename_i columns _
        refine .inr ⟨slot, rfl, .inr ⟨_, fun name hname => ?_, rfl⟩⟩
        -- columns that are not refused are variables
        have hcolumns : slot.parsed.refusal? columns = none → name ∉ columns.map Symbol.name := by
          intro hnone hmem
          obtain ⟨s, hs, rfl⟩ := List.mem_map.1 hmem
          have hatom := (Parsed.refusal?_eq_none_iff.1 hnone).atom?_eq s hs
          exact hname ((Parsed.mem_atoms_iff hparse).2 ⟨_, hatom⟩)
        exact Parsed.outcome_snd_of_not_mem hcolumns direction flag _
      · exact .inl rfl
    | clone => exact .inr ⟨slot, rfl, .inl rfl⟩

/-- Whatever the action is, the formulas stay those that were read, and no other names than their
    variables become true. This is the invariant of all runs. -/
theorem step (h : e.Reads d) (index : Nat) (action : Action Flag) :
    (e.step index action).2.Reads d := by
  rcases h.step_cases index action with hsame | ⟨slot, hslot, hpush | ⟨v, hv, hput⟩⟩
  · rwa [hsame]
  · rw [hpush]
    exact h.push hslot
  · rw [hput]
    exact h.put hslot hv

/-- An action changes no formula. Only the environment of the slot may be another one. -/
theorem exists_slot?_step (h : e.Reads d) (hslot : e.slot? index = some slot) (target : Nat)
    (action : Action Flag) :
    ∃ v, (e.step target action).2.slot? index = some ⟨slot.parsed, v⟩ := by
  rcases h.step_cases target action with hsame | ⟨changed, hchanged, hpush | ⟨v, -, hput⟩⟩
  · exact ⟨slot.valuation, by rw [hsame, hslot]⟩
  · have hne : index ≠ e.count := Nat.ne_of_lt (h.lt_count hslot)
    exact ⟨slot.valuation, by rw [hpush, slot?_push, if_neg hne, hslot]⟩
  · rw [hput, slot?_put]
    by_cases heq : index = target
    · subst heq
      obtain rfl := Option.some.inj (hslot.symm.trans hchanged)
      exact ⟨v, if_pos rfl⟩
    · exact ⟨slot.valuation, by rw [if_neg heq, hslot]⟩

/-- A run changes no formula, whatever the actions are. The induction is on the actions. -/
theorem exists_slot?_run (h : e.Reads d) (hslot : e.slot? index = some slot)
    (actions : List (Nat × Action Flag)) :
    ∃ v, (e.run actions).2.slot? index = some ⟨slot.parsed, v⟩ := by
  induction actions generalizing e slot with
  | nil => exact ⟨slot.valuation, hslot⟩
  | cons first rest ih =>
    obtain ⟨target, action⟩ := first
    obtain ⟨v, hnext⟩ := h.exists_slot?_step hslot target action
    have hlast := ih (h.step target action) hnext
    exact hlast

end Reads

end Environments

/-- An entry that is not empty is replaced by another. Such an entry is always in bounds. -/
theorem join_getElem?_setIfInBounds {α : Type} {entries : Array (Option α)} {index : Nat} {value : α}
    (h : entries[index]?.join = some value) (next : α) (other : Nat) :
    (entries.setIfInBounds index (some next))[other]?.join =
      if other = index then some next else entries[other]?.join := by
  have hindex : index < entries.size := by
    by_contra hout
    simp [Array.getElem?_eq_none (Nat.not_lt.1 hout)] at h
  rw [Array.getElem?_setIfInBounds]
  by_cases heq : index = other
  · subst heq
    simp [hindex]
  · simp [heq, Ne.symm heq]

/-- A new entry comes behind all others. -/
theorem join_getElem?_push {α : Type} (entries : Array (Option α)) (value : α) (other : Nat) :
    (entries.push (some value))[other]?.join =
      if other = entries.size then some value else entries[other]?.join := by
  rw [Array.getElem?_push]
  split <;> rfl

namespace Session

/-- The slots hold the formulas, each with its environment. -/
structure Matches (session : Session) (e : Environments) : Prop where
  size_eq : session.size = e.count
  slot?_eq : ∀ index, session.slot? index = e.slot? index

namespace Matches

variable {M : Type → Type} [PrefixMap M] {d : Dialect M} {session : Session} {e : Environments}
  {index : Nat} {slot : Slot}

/-- At the start the slots hold what the environments do. Texts that are no formulas leave empty slots
    in both. -/
theorem start (texts : List (List Char)) :
    Matches (Session.start (texts.map (parseWith d)))
      (Environments.start (texts.map (parseWith d))) := by
  refine ⟨by simp [Session.start, Environments.start], fun index => ?_⟩
  rw [Environments.slot?_start, slot?, Session.start]
  simp only [List.getElem?_toArray, List.getElem?_map]
  cases texts[index]? <;> rfl

/-- Replacing a slot that is there replaces what the environments have for it. An empty slot is never
    replaced. -/
theorem put (h : Matches session e) (hslot : e.slot? index = some slot) (next : Slot) :
    Matches (session.setIfInBounds index (some next)) (e.put index next) := by
  refine ⟨Array.size_setIfInBounds.trans h.size_eq, fun other => ?_⟩
  have hput := join_getElem?_setIfInBounds ((h.slot?_eq index).trans hslot) next other
  rw [slot?, hput, Environments.slot?_put, ← slot?, h.slot?_eq]

/-- Storing what a slot holds already keeps the slots and the environments alike. -/
theorem keep (h : Matches session e) (hslot : e.slot? index = some slot) :
    Matches (session.setIfInBounds index (some slot)) e := by
  have hput := h.put hslot slot
  rwa [Environments.put_self hslot] at hput

/-- Adding a slot to both keeps them alike. -/
theorem push (h : Matches session e) (slot : Slot) :
    Matches (session.push (some slot)) (e.push slot) := by
  refine ⟨by simp [h.size_eq, Environments.push], fun other => ?_⟩
  rw [slot?, join_getElem?_push, Environments.slot?_push, ← slot?, h.slot?_eq, h.size_eq]

/-- The columns that an action asks for are the same in both. They may be those of another slot. -/
theorem columns?_eq (h : Matches session e) (columns : Columns) :
    session.columns? columns = e.columns? columns := by
  cases columns with
  | listed symbols => rfl
  | ordered index order =>
    rw [columns?, h.slot?_eq]
    rfl

/-- Each action on a slot is answered alike, and leaves the slots and the environments alike. There is
    one case for each kind of action. -/
theorem answer (h : Matches session e) {text : List Char}
    (hparse : parseWith d text = .ok slot.parsed) (hslot : e.slot? index = some slot)
    (action : Action (Option Nat)) :
    (session.answer index slot action.command).1 = (e.answer index slot action.flagged).1 ∧
      Matches (session.answer index slot action.command).2
        (e.answer index slot action.flagged).2 := by
  cases action with
  | assign name value =>
    simp only [Action.command, Action.flagged, Session.answer, Environments.answer, Slot.assign]
    cases hget : slot.parsed.symbols.get? name with
    | some id =>
      simp only [Parsed.mem_atoms_of_get?_symbols hparse hget, if_true]
      exact ⟨trivial, h.put hslot _⟩
    | none =>
      simp only [Parsed.not_mem_atoms_of_get?_symbols hparse hget, if_false]
      exact ⟨trivial, h.keep hslot⟩
  | setAt id value =>
    simp only [Action.command, Action.flagged, Session.answer, Environments.answer, Slot.setAt]
    cases hnode : slot.parsed.nodes[id]? with
    | none => exact ⟨rfl, h.keep hslot⟩
    | some node =>
      obtain ⟨f, parent⟩ := node
      cases f with
      | leaf label p =>
        cases p with
        | constant fixed => exact ⟨rfl, h.keep hslot⟩
        | atom name => exact ⟨rfl, h.put hslot _⟩
      | _ => exact ⟨rfl, h.keep hslot⟩
  | evaluate =>
    simp only [Action.command, Action.flagged, Session.answer, Environments.answer,
      Formula.evaluate_eq_truth]
    exact ⟨trivial, h⟩
  | evaluateAt id =>
    simp only [Action.command, Action.flagged, Session.answer, Environments.answer, subformula?]
    cases slot.parsed.nodes[id]? with
    | some node => exact ⟨congrArg Reply.truth (Formula.evaluate_eq_truth _ _), h⟩
    | none => exact ⟨rfl, h⟩
  | render n => exact ⟨rfl, h⟩
  | renderAt id n | renderOnto out id n =>
    simp only [Action.command, Action.flagged, Session.answer, Environments.answer, subformula?]
    cases slot.parsed.nodes[id]? with
    | some node => exact ⟨rfl, h⟩
    | none => exact ⟨rfl, h⟩
  | enumerate columns direction limit =>
    simp only [Action.command, Action.flagged, Session.answer, Environments.answer, h.columns?_eq]
    cases e.columns? columns with
    | none => exact ⟨rfl, h⟩
    | some listed =>
      simp only [Parsed.enumerate_eq_outcome]
      exact ⟨trivial, h.put hslot _⟩
  | clone =>
    simp only [Action.command, Action.flagged, Session.answer, Environments.answer]
    exact ⟨congrArg Reply.slot h.size_eq, h.push slot⟩

/-- Each action is answered alike, also one on an empty slot. -/
theorem step (h : Matches session e) (hreads : e.Reads d) (index : Nat)
    (action : Action (Option Nat)) :
    (session.step index action.command).1 = (e.step index action.flagged).1 ∧
      Matches (session.step index action.command).2 (e.step index action.flagged).2 := by
  unfold Session.step Environments.step
  rw [h.slot?_eq]
  cases hslot : e.slot? index with
  | none => exact ⟨rfl, h⟩
  | some slot =>
    obtain ⟨text, hparse⟩ := hreads.exists_text hslot
    exact h.answer hparse hslot action

/-- A run is answered alike, whatever came before. The induction is on the actions, with the
    environments of the run so far. -/
theorem run (h : Matches session e) (hreads : e.Reads d)
    (actions : List (Nat × Action (Option Nat))) :
    (session.run (actions.map (Prod.map id Action.command))).1 =
        (e.run (actions.map (Prod.map id Action.flagged))).1 ∧
      Matches (session.run (actions.map (Prod.map id Action.command))).2
        (e.run (actions.map (Prod.map id Action.flagged))).2 := by
  induction actions generalizing session e with
  | nil => exact ⟨rfl, h⟩
  | cons first rest ih =>
    obtain ⟨index, action⟩ := first
    obtain ⟨hreply, hnext⟩ := h.step hreads index action
    obtain ⟨hreplies, hlast⟩ := ih hnext (hreads.step index action.flagged)
    refine ⟨?_, hlast⟩
    simp only [List.map_cons, Prod.map, id, Session.run, Environments.run, hreply]
    exact congrArg _ hreplies

end Matches

end Session

end Sentential
