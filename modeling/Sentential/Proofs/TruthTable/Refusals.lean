import Mathlib.Data.Finset.Card
import Sentential.Proofs.Parsing.Symbols
import Sentential.Proofs.TruthTable.Visits

namespace Sentential.Parsed

/-- The symbols of the variables: each names a leaf by its number and its atom. -/
def IsVariable (p : Parsed) (s : Symbol) : Prop :=
  ∃ node, p.nodes[s.id]? = some node ∧ node.formula = .leaf s.id (.atom s.name)

/-- All ways in which a symbol can fail to be that of a variable. -/
inductive IsForeign (p : Parsed) (s : Symbol) : Prop
  | outOfRange (hid : p.nodes.size ≤ s.id)
  | operator {node : Node} (hnode : p.nodes[s.id]? = some node) (hoperator : node.proposition? = none)
  | constant {node : Node} {value : Bool} (hnode : p.nodes[s.id]? = some node)
    (hconstant : node.proposition? = some (.constant value))
  | renamed {node : Node} {name : String} (hnode : p.nodes[s.id]? = some node)
    (hatom : node.proposition? = some (.atom name)) (hname : name ≠ s.name)

/-- Variables of the formula, none of them twice. -/
structure ListsVariables (p : Parsed) (columns : List Symbol) : Prop where
  isVariable : ∀ s ∈ columns, p.IsVariable s
  nodup : (columns.map Symbol.id).Nodup

/-- What is wrong with a list of columns. Only of a list that is not too long are the entries looked
    at, and the first one that is foreign or was listed before decides. -/
inductive Refuses (p : Parsed) (columns : List Symbol) : TableError → Prop
  | tooMany (hlength : 31 < columns.length) : Refuses p columns (.tooManyPropositions columns.length)
  | foreign {before after : List Symbol} {s : Symbol} (hlength : columns.length ≤ 31)
    (hcolumns : columns = before ++ s :: after) (hbefore : p.ListsVariables before)
    (hs : p.IsForeign s) : Refuses p columns (.foreignSymbol s.name)
  | duplicate {before after : List Symbol} {s : Symbol} (hlength : columns.length ≤ 31)
    (hcolumns : columns = before ++ s :: after) (hbefore : p.ListsVariables before)
    (hs : p.IsVariable s) (hseen : s.id ∈ before.map Symbol.id) :
    Refuses p columns (.duplicateProposition s.name)

variable {p : Parsed} {columns : List Symbol} {s : Symbol}

private theorem isVariable_iff : p.IsVariable s ↔ p.atom? s.id = some s.name :=
  atom?_eq_some_iff.symm

private theorem isForeign_iff : p.IsForeign s ↔ ¬ p.IsVariable s := by
  constructor
  · rintro hforeign ⟨node, hnode, hformula⟩
    have hproposition : node.proposition? = some (.atom s.name) := by
      simp [Node.proposition?, hformula]
    cases hforeign with
    | outOfRange hid => simp [Array.getElem?_eq_none hid] at hnode
    | operator hother hoperator => simp_all
    | constant hother hconstant => simp_all
    | renamed hother hatom hname => simp_all
  · intro hnot
    cases hnode : p.nodes[s.id]? with
    | none => exact .outOfRange (Array.getElem?_eq_none_iff.1 hnode)
    | some node =>
      cases hproposition : node.proposition? with
      | none => exact .operator hnode hproposition
      | some q =>
        cases q with
        | constant value => exact .constant hnode hproposition
        | atom name =>
          refine .renamed hnode hproposition fun hname => hnot ⟨node, hnode, ?_⟩
          have hformula := Node.proposition?_eq_some_iff.1 hproposition
          rwa [label_of_getElem?_nodes hnode, hname] at hformula

private theorem admits_iff : p.Admits columns ↔ columns.length ≤ 31 ∧ p.ListsVariables columns := by
  constructor
  · rintro ⟨hlength, hatom, hnodup⟩
    exact ⟨hlength, fun s hs => isVariable_iff.2 (hatom s hs), hnodup⟩
  · rintro ⟨hlength, hvariable, hnodup⟩
    exact ⟨hlength, fun s hs => isVariable_iff.1 (hvariable s hs), hnodup⟩

/-- Entries without a fault are remembered, and the search goes on behind them. -/
private theorem columnFault?_append {seen : List NodeId} {before : List Symbol}
    (h : p.columnFault? seen before = none) (rest : List Symbol) :
    p.columnFault? seen (before ++ rest) =
      p.columnFault? ((before.map Symbol.id).reverse ++ seen) rest := by
  induction before generalizing seen with
  | nil => rfl
  | cons first before ih =>
    rw [columnFault?] at h
    rw [List.cons_append, columnFault?]
    split at h
    · cases h
    · rename_i hatom
      split at h
      · cases h
      · rename_i hseen
        rw [if_neg hatom, if_neg hseen, ih h]
        simp

/-- The fault of a list is that of its first entry that has one. The entries before it are variables of
    the formula, none of them twice. -/
theorem exists_of_columnFault?_eq_some {seen : List NodeId} {e : TableError}
    (h : p.columnFault? seen columns = some e) : ∃ before s after, columns = before ++ s :: after ∧
      p.columnFault? seen before = none ∧
        p.columnFault? ((before.map Symbol.id).reverse ++ seen) [s] = some e := by
  induction columns generalizing seen with
  | nil => cases h
  | cons first rest ih =>
    rw [columnFault?] at h
    by_cases hatom : p.atom? first.id ≠ some first.name
    · rw [if_pos hatom] at h
      refine ⟨[], first, rest, rfl, rfl, ?_⟩
      simpa [columnFault?, hatom] using h
    · rw [if_neg hatom] at h
      by_cases hseen : first.id ∈ seen
      · rw [if_pos hseen] at h
        refine ⟨[], first, rest, rfl, rfl, ?_⟩
        simpa [columnFault?, hatom, hseen] using h
      · rw [if_neg hseen] at h
        obtain ⟨before, s, after, rfl, hnone, hfault⟩ := ih h
        refine ⟨first :: before, s, after, rfl, ?_, ?_⟩
        · rw [columnFault?, if_neg hatom, if_neg hseen, hnone]
        · simpa using hfault

private theorem columnFault?_nil_eq_none_iff :
    p.columnFault? [] columns = none ↔ p.ListsVariables columns := by
  rw [columnFault?_eq_none_iff]
  constructor
  · rintro ⟨hatom, -, hnodup⟩
    exact ⟨fun s hs => isVariable_iff.2 (hatom s hs), hnodup⟩
  · rintro ⟨hvariable, hnodup⟩
    exact ⟨fun s hs => isVariable_iff.1 (hvariable s hs), fun _ _ => List.not_mem_nil, hnodup⟩

/-- A list is refused for what is wrong with it, and for nothing else. Where several things are wrong,
    the length counts first and then the order of the entries. -/
theorem refusal?_eq_some_iff {e : TableError} : p.refusal? columns = some e ↔ p.Refuses columns e := by
  unfold refusal?
  constructor
  · intro h
    split at h
    · rename_i hlength
      obtain rfl := Option.some.inj h
      exact .tooMany hlength
    · rename_i hlength
      have hlength := Nat.not_lt.1 hlength
      obtain ⟨before, s, after, hcolumns, hnone, hfault⟩ := exists_of_columnFault?_eq_some h
      have hbefore := columnFault?_nil_eq_none_iff.1 hnone
      rw [columnFault?, List.append_nil] at hfault
      split at hfault
      · rename_i hatom
        obtain rfl := Option.some.inj hfault
        exact .foreign hlength hcolumns hbefore (isForeign_iff.2 fun hs => hatom (isVariable_iff.1 hs))
      · rename_i hatom
        split at hfault
        · rename_i hseen
          obtain rfl := Option.some.inj hfault
          exact .duplicate hlength hcolumns hbefore (isVariable_iff.2 (not_not.1 hatom))
            (List.mem_reverse.1 hseen)
        · cases hfault
  · intro h
    cases h with
    | tooMany hlength => exact if_pos hlength
    | foreign hlength hcolumns hbefore hs =>
      have hmax : ¬ maxColumns < columns.length := Nat.not_lt.2 hlength
      have hatom := mt isVariable_iff.2 (isForeign_iff.1 hs)
      rw [if_neg hmax, hcolumns, columnFault?_append (columnFault?_nil_eq_none_iff.2 hbefore),
        columnFault?, if_pos hatom]
    | duplicate hlength hcolumns hbefore hs hseen =>
      have hmax : ¬ maxColumns < columns.length := Nat.not_lt.2 hlength
      have hatom := not_not_intro (isVariable_iff.1 hs)
      rw [if_neg hmax, hcolumns, columnFault?_append (columnFault?_nil_eq_none_iff.2 hbefore),
        columnFault?, if_neg hatom, List.append_nil, if_pos (List.mem_reverse.2 hseen)]

/-- Being cancelled is no refusal. -/
private theorem Refuses.ne_cancelled {e : TableError} (h : p.Refuses columns e) (rows : Nat) :
    e ≠ .cancelled rows := by
  cases h <;> simp

/-- A refusal comes before the first look at the flag and before the first row is set. No value is
    changed by it. -/
theorem Refuses.enumerate_eq {e : TableError} (h : p.Refuses columns e) (direction : Direction)
    (limit : Option Nat) (v : Valuation) : p.enumerate columns direction limit v = (.error e, v) := by
  simp only [enumerate, refusal?_eq_some_iff.2 h]

/-- Columns that are not refused have a table, unless the enumeration is cancelled. There is no third
    outcome. -/
theorem Admits.enumerate_cases (h : p.Admits columns) (direction : Direction) (limit : Option Nat)
    (v : Valuation) : (∃ t, (p.enumerate columns direction limit v).1 = .ok t) ∨
      ∃ rows, (p.enumerate columns direction limit v).1 = .error (.cancelled rows) := by
  rw [enumerate_eq_outcome]
  simp only [outcome, refusal?_eq_none_iff.2 h]
  split
  · exact .inr ⟨_, rfl⟩
  · exact .inl ⟨_, rfl⟩

private theorem admits_or_refuses (p : Parsed) (columns : List Symbol) :
    p.Admits columns ∨ ∃ e, p.Refuses columns e := by
  cases h : p.refusal? columns with
  | none => exact .inl (refusal?_eq_none_iff.1 h)
  | some e => exact .inr ⟨e, refusal?_eq_some_iff.1 h⟩

/-- The symbols are as many as the names of the atoms that occur in the formula. An atom that occurs
    several times counts once. -/
theorem length_symbols {M : Type → Type} [PrefixMap M] {d : Dialect M} {text : List Char}
    (hp : parseWith d text = .ok p) : p.symbols.symbols.length = p.formula.atoms.toFinset.card := by
  have hsame : (p.symbols.symbols.map Symbol.name).toFinset = p.formula.atoms.toFinset := by
    ext name
    rw [List.mem_toFinset, List.mem_toFinset, mem_atoms_iff hp, List.mem_map]
    constructor
    · rintro ⟨s, hs, rfl⟩
      exact ⟨s.id, atom?_of_mem_symbols hs⟩
    · rintro ⟨id, hatom⟩
      exact ⟨_, mem_symbols_of_atom? hatom, rfl⟩
  rw [← hsame, List.toFinset_card_of_nodup (nodup_names_symbols hp), List.length_map]

/-- The symbols of a formula with no more variables than a table has columns can be listed in any order.
    What a formula lists itself is never refused for anything but its length. -/
theorem admits_of_perm {M : Type → Type} [PrefixMap M] {d : Dialect M} {text : List Char}
    (hp : parseWith d text = .ok p) (hcard : p.formula.atoms.toFinset.card ≤ 31)
    (hperm : columns.Perm p.symbols.symbols) : p.Admits columns where
  length_le := by
    rw [hperm.length_eq, length_symbols hp]
    exact hcard
  atom?_eq s hs := atom?_of_mem_symbols (hperm.mem_iff.1 hs)
  nodup := (hperm.map Symbol.id).nodup_iff.2 p.nodup_ids_symbols

/-- An enumeration refuses a list of columns for its length, or else for the first entry that is no
    variable or was listed before. A refusal depends on no flag and leaves all values as they are. All
    other lists are accepted, among them the symbols of the formula in whatever order. -/
theorem enumerate_refuses_first_fault (p : Parsed) (columns : List Symbol) (direction : Direction)
    (limit : Option Nat) (v : Valuation) :
    ((∀ e, (p.enumerate columns direction limit v).1 = .error e → ∃ rows, e = .cancelled rows) ↔
        columns.length ≤ 31 ∧ p.ListsVariables columns) ∧
      ((∃ t, (p.enumerate columns direction none v).1 = .ok t) ↔
        columns.length ≤ 31 ∧ p.ListsVariables columns) ∧
      (∀ e, p.Refuses columns e → p.enumerate columns direction limit v = (.error e, v)) ∧
      (∀ e, (p.enumerate columns direction limit v).1 = .error e →
        p.Refuses columns e ∨ ∃ rows, e = .cancelled rows) ∧
      ∀ (M : Type → Type) [PrefixMap M] (d : Dialect M) (text : List Char),
        parseWith d text = .ok p → p.formula.atoms.toFinset.card ≤ 31 →
          ∀ le : Symbol → Symbol → Bool,
            (∃ t, (p.enumerate (p.symbols.orderedBy le) direction none v).1 = .ok t) ∧
              ∀ e, (p.enumerate (p.symbols.orderedBy le) direction limit v).1 = .error e →
                ∃ rows, e = .cancelled rows := by
  have hcancelled : ∀ {columns}, p.Admits columns → ∀ e,
      (p.enumerate columns direction limit v).1 = .error e → ∃ rows, e = .cancelled rows := by
    intro columns hadmits e he
    rcases hadmits.enumerate_cases direction limit v with ⟨t, ht⟩ | ⟨rows, hrows⟩
    · cases ht.symm.trans he
    · exact ⟨rows, Except.error.inj (he.symm.trans hrows)⟩
  refine ⟨?_, ?_, fun e he => he.enumerate_eq direction limit v, fun e he => ?_, ?_⟩
  · rw [← admits_iff]
    refine ⟨fun hall => ?_, hcancelled⟩
    rcases p.admits_or_refuses columns with hadmits | ⟨e, hrefuses⟩
    · exact hadmits
    · obtain ⟨rows, hrows⟩ := hall e (by rw [hrefuses.enumerate_eq])
      exact absurd hrows (hrefuses.ne_cancelled rows)
  · rw [← admits_iff]
    refine ⟨fun ⟨t, ht⟩ => (enumerate_eq_ok_iff.1 ht).1, fun hadmits => ?_⟩
    exact ⟨_, enumerate_eq_ok_table hadmits direction v⟩
  · rcases p.admits_or_refuses columns with hadmits | ⟨other, hrefuses⟩
    · exact .inr (hcancelled hadmits e he)
    · rw [hrefuses.enumerate_eq] at he
      exact .inl (Except.error.inj he ▸ hrefuses)
  · intro M _ d text hp hcard le
    have hadmits := admits_of_perm hp hcard (p.symbols.symbols.mergeSort_perm le)
    exact ⟨⟨_, enumerate_eq_ok_table hadmits direction v⟩, hcancelled hadmits⟩

/-- The flag is up from the start. The third entry repeats the first one, which is found before the flag
    is looked at. -/
theorem enumerate_refuses_first_fault_openAtRight :
    (ofFormula Formula.openAtRight.numbered).Refuses [⟨"c", 6⟩, ⟨"a", 0⟩, ⟨"c", 6⟩, ⟨"a", 1⟩]
        (.duplicateProposition "c") ∧
      (ofFormula Formula.openAtRight.numbered).enumerate [⟨"c", 6⟩, ⟨"a", 0⟩, ⟨"c", 6⟩, ⟨"a", 1⟩]
          .descending (some 0) Valuation.allFalse =
        (.error (.duplicateProposition "c"), Valuation.allFalse) ∧
      (ofFormula Formula.openAtRight.numbered).formula.atoms.toFinset.card ≤ 31 ∧
      ∃ t, ((ofFormula Formula.openAtRight.numbered).enumerate
        ((ofFormula Formula.openAtRight.numbered).symbols.orderedBy SymbolOrder.nameDescending.le)
          .descending none Valuation.allFalse).1 = .ok t := by
  obtain ⟨-, -, hrefuses, -, hordered⟩ := enumerate_refuses_first_fault
    (ofFormula Formula.openAtRight.numbered) [⟨"c", 6⟩, ⟨"a", 0⟩, ⟨"c", 6⟩, ⟨"a", 1⟩] .descending
    (some 0) Valuation.allFalse
  have hfault : (ofFormula Formula.openAtRight.numbered).Refuses
      [⟨"c", 6⟩, ⟨"a", 0⟩, ⟨"c", 6⟩, ⟨"a", 1⟩] (.duplicateProposition "c") :=
    refusal?_eq_some_iff.1 (by decide +kernel)
  have hcard : (ofFormula Formula.openAtRight.numbered).formula.atoms.toFinset.card ≤ 31 := by
    decide +kernel
  exact ⟨hfault, hrefuses _ hfault, hcard,
    (hordered _ _ _ parseWith_openAtRight hcard SymbolOrder.nameDescending.le).1⟩

end Sentential.Parsed
