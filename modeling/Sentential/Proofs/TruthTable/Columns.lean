import Sentential.Proofs.Parsing.Atoms
import Sentential.TruthTable.Enumeration

namespace Sentential

namespace Parsed

/-- The lists of columns that there is a table for: each entry is an atom of the formula under its
    own name, and none is listed twice. -/
structure Admits (p : Parsed) (columns : List Symbol) : Prop where
  length_le : columns.length ≤ maxColumns
  atom?_eq : ∀ s ∈ columns, p.atom? s.id = some s.name
  nodup : (columns.map Symbol.id).Nodup

/-- No entry of a list is at fault if each is an atom under its own name and none repeats another one,
    nor one that was seen before the list. -/
theorem columnFault?_eq_none_iff {p : Parsed} {seen : List NodeId} {columns : List Symbol} :
    p.columnFault? seen columns = none ↔
      (∀ s ∈ columns, p.atom? s.id = some s.name) ∧ (∀ s ∈ columns, s.id ∉ seen) ∧
        (columns.map Symbol.id).Nodup := by
  induction columns generalizing seen with
  | nil => simp [columnFault?]
  | cons s rest ih =>
    rw [columnFault?]
    by_cases hatom : p.atom? s.id = some s.name
    · by_cases hseen : s.id ∈ seen
      · simp [hatom, hseen]
      · rw [if_neg (not_not_intro hatom), if_neg hseen, ih]
        simp only [List.mem_cons, List.map_cons, List.nodup_cons,
          List.mem_map, not_or, not_exists, not_and]
        grind
    · simp [hatom]

/-- A list of columns is not refused exactly if there is a table for it. It is at most as long as a
    table has columns and lists variables of the formula, each once. -/
theorem refusal?_eq_none_iff {p : Parsed} {columns : List Symbol} :
    p.refusal? columns = none ↔ p.Admits columns := by
  unfold refusal?
  by_cases hlength : maxColumns < columns.length
  · rw [if_pos hlength]
    constructor
    · intro hnone
      cases hnone
    · intro hadmits
      exact absurd hadmits.length_le (Nat.not_le.2 hlength)
  · rw [if_neg hlength, columnFault?_eq_none_iff]
    constructor
    · rintro ⟨hatom, -, hnodup⟩
      exact ⟨Nat.not_lt.1 hlength, hatom, hnodup⟩
    · rintro ⟨-, hatom, hnodup⟩
      exact ⟨hatom, fun s _ => List.not_mem_nil, hnodup⟩

/-- Distinct leaves have distinct names, because an atom has one leaf. Columns are checked by leaves and
    set by names. -/
theorem Admits.nodup_names {M : Type → Type} [PrefixMap M] {d : Dialect M} {text : List Char}
    {p : Parsed} (hp : parseWith d text = .ok p) {columns : List Symbol} (h : p.Admits columns) :
    (columns.map Symbol.name).Nodup := by
  have hids := List.pairwise_map.1 h.nodup
  refine List.pairwise_map.2 (hids.imp_of_mem fun {s other} hs hother hne hname => hne ?_)
  have hatom := h.atom?_eq other hother
  rw [← hname] at hatom
  exact eq_of_atom?_eq_atom? hp (h.atom?_eq s hs) hatom

end Parsed

namespace Valuation

/-- The valuation changed at some names, which take the values of a list in its order. -/
def assign (v : Valuation) : List String → List Bool → Valuation
  | name :: names, value :: values => (v.assign names values).set name value
  | _, _ => v

/-- A name that is not among the columns keeps its value. This includes names that do not occur in the
    formula. -/
theorem assign_of_not_mem {name : String} {names : List String} (h : name ∉ names) (v : Valuation)
    (values : List Bool) : v.assign names values name = v name := by
  induction names generalizing values with
  | nil => rfl
  | cons first rest ih =>
    obtain ⟨hne, hrest⟩ := by simpa only [List.mem_cons, not_or] using h
    cases values with
    | nil => rfl
    | cons value values => rw [assign, set_of_ne _ _ hne, ih hrest]

/-- Distinct names have the values that are assigned to them. Without distinct names a later value would
    replace an earlier one. -/
theorem map_assign {names : List String} (hnames : names.Nodup) {values : List Bool}
    (hlength : values.length = names.length) (v : Valuation) :
    names.map (v.assign names values) = values := by
  induction names generalizing values with
  | nil => exact (List.length_eq_zero_iff.1 hlength).symm
  | cons first rest ih =>
    obtain ⟨hfirst, hrest⟩ := List.nodup_cons.1 hnames
    cases values with
    | nil => cases hlength
    | cons value values =>
      have hothers : rest.map ((v.assign rest values).set first value) =
          rest.map (v.assign rest values) := by
        refine List.map_congr_left fun name hname => set_of_ne _ _ ?_
        rintro rfl
        exact hfirst hname
      rw [assign, List.map_cons, set_self, hothers, ih hrest (Nat.succ.inj hlength)]

/-- What the names were worth before has no effect on what they are worth afterwards. -/
theorem assign_congr {names : List String} {u v : Valuation}
    (h : ∀ name, name ∉ names → u name = v name) {values : List Bool}
    (hlength : values.length = names.length) : u.assign names values = v.assign names values := by
  funext name
  by_cases hmem : name ∈ names
  · clear h
    induction names generalizing values with
    | nil => cases hmem
    | cons first rest ih =>
      cases values with
      | nil => cases hlength
      | cons value values =>
        rw [assign, assign]
        by_cases heq : name = first
        · rw [heq, set_self, set_self]
        · have hrest : name ∈ rest := List.mem_of_ne_of_mem heq hmem
          rw [set_of_ne _ _ heq, set_of_ne _ _ heq, ih (Nat.succ.inj hlength) hrest]
  · rw [assign_of_not_mem hmem, assign_of_not_mem hmem, h name hmem]

/-- A valuation is its own values, assigned to any other that it differs from at those names only. Every
    assignment of the columns is thus that of some bits. -/
theorem assign_map {names : List String} {v w : Valuation}
    (h : ∀ name, name ∉ names → w name = v name) : v.assign names (names.map w) = w := by
  have hself : w.assign names (names.map w) = w := by
    clear h
    induction names with
    | nil => rfl
    | cons first rest ih =>
      rw [List.map_cons, assign, ih]
      funext name
      by_cases heq : name = first
      · rw [heq, set_self]
      · exact set_of_ne _ _ heq
  rw [← assign_congr h (List.length_map w), hself]

end Valuation

end Sentential
