import Sentential.Proofs.TruthTable.Rows

namespace Sentential

/-- Whether an enumeration is cancelled, which is asked before each row: after so many rows, for which so
    many units were spent. -/
abbrev Flag := Nat → Nat → Bool

/-- The flag that is up as soon as a number of units is spent, or never. -/
def Flag.ofLimit (limit : Option Nat) : Flag :=
  fun _ spent => limit.any (· ≤ spent)

/-- The flag before a row, where every row before it has cost the same. -/
def Flag.isUp (flag : Flag) (cost k : Nat) : Bool :=
  flag k (k * cost)

/-- All columns are false in the first row. -/
private theorem binary_zero (n : Nat) : binary n 0 = List.replicate n false := by
  simp [binary, List.map_const']

/-- All columns are true in the last row. -/
theorem binary_two_pow_sub_one (n : Nat) : binary n (2 ^ n - 1) = List.replicate n true := by
  have hlast := binary_complement (Nat.two_pow_pos n)
  rwa [binary_zero, List.map_replicate, Nat.sub_zero] at hlast

/-- The valuation that is left when some rows were visited: that of the last of them. -/
def Valuation.afterRows (v : Valuation) (names : List String) (direction : Direction) :
    Nat → Valuation
  | 0 => v
  | k + 1 => v.assign names (binary names.length (direction.place (2 ^ names.length) k))

/-- Visiting rows changes no other name than those of the columns. It does not matter how many rows were
    visited. -/
theorem Valuation.afterRows_of_not_mem {name : String} {names : List String} (h : name ∉ names)
    (v : Valuation) (direction : Direction) (k : Nat) :
    v.afterRows names direction k name = v name := by
  cases k with
  | zero => rfl
  | succ k => exact assign_of_not_mem h v _

/-- A row overwrites what the rows before it have left. An enumeration can thus be described without
    following its loop. -/
theorem Valuation.afterRows_afterRows (v : Valuation) (names : List String) (direction : Direction)
    (k next : Nat) :
    (v.afterRows names direction k).afterRows names direction (next + 1) =
      v.afterRows names direction (next + 1) :=
  assign_congr (fun _ hname => afterRows_of_not_mem hname v direction k) (length_binary _ _)

/-- Giving the names the bits of a row is visiting it. The words of the program are turned into numbers
    by it. -/
theorem Valuation.setRow_index {names : List String} (hnames : names.length ≤ maxColumns)
    (direction : Direction) (v : Valuation) {k : Nat} (hk : k < 2 ^ names.length) :
    v.setRow names (direction.index k.toUInt32 (2 ^ names.length).toUInt32) =
      v.afterRows names direction (k + 1) := by
  have hplace := direction.place_lt hk
  rw [direction.index_eq_place hk, setRow_eq_assign,
    toNat_toUInt32_of_le_two_pow hnames (Nat.le_of_lt hplace)]
  rfl

/-- Words count up as numbers do, also where they start over. -/
theorem toUInt32_succ (k : Nat) : k.toUInt32 + 1 = (k + 1).toUInt32 := by
  rw [Nat.toUInt32_eq, Nat.toUInt32_eq, UInt32.ofNat_add]
  rfl

/-- When all rows were visited, the names are true if the last row comes last, and false otherwise.
    Other names are as they were. -/
theorem Valuation.afterRows_two_pow (v : Valuation) (names : List String) (direction : Direction) :
    v.afterRows names direction (2 ^ names.length) =
      v.assign names (List.replicate names.length (direction = .ascending)) := by
  obtain ⟨last, hlast⟩ := Nat.exists_eq_succ_of_ne_zero (Nat.ne_of_gt (Nat.two_pow_pos names.length))
  have hplace : last = 2 ^ names.length - 1 := by omega
  rw [hlast, afterRows]
  cases direction with
  | ascending => simp only [Direction.place, hplace, binary_two_pow_sub_one, decide_true]
  | descending =>
    have hfirst : Direction.descending.place (2 ^ names.length) last = 0 := by
      simp only [Direction.place]
      omega
    simp [hfirst, binary_zero]

namespace Parsed

/-- The values of the first rows. -/
def firstValues (p : Parsed) (names : List String) (direction : Direction) (v : Valuation) (k : Nat) :
    Array Bool :=
  ((List.range k).map fun i =>
    p.rowValue names v (direction.place (2 ^ names.length) i)).toArray

/-- The value of one more row is found with the names set to that row. It is put behind the values found
    before. -/
theorem firstValues_succ (p : Parsed) (names : List String) (direction : Direction) (v : Valuation)
    (k : Nat) : p.firstValues names direction v (k + 1) =
      (p.firstValues names direction v k).push
        (p.formula.truth (v.afterRows names direction (k + 1))) := by
  rw [firstValues, List.range_succ, List.map_append, List.map_singleton, ← List.push_toArray]
  rfl

/-- There is one value for each row that was visited. -/
@[simp] theorem size_firstValues (p : Parsed) (names : List String) (direction : Direction)
    (v : Valuation) (k : Nat) : (p.firstValues names direction v k).size = k := by
  simp [firstValues]

/-- What visiting the rows from one position on comes to: it ends at the first of them for which the flag
    is up, or behind all. -/
def sweep (p : Parsed) (names : List String) (direction : Direction) (flag : Flag) (v : Valuation)
    (k remaining : Nat) : Except TableError (Array Bool) × Valuation :=
  match (List.range' k remaining).find? (flag.isUp (p.formula.cost meter)) with
  | some i => (.error (.cancelled i), v.afterRows names direction i)
  | none => (.ok (p.firstValues names direction v (k + remaining)),
      v.afterRows names direction (k + remaining))

section Sweep

variable {p : Parsed} {names : List String} {direction : Direction} {flag : Flag} {v : Valuation}
  {k : Nat}

private theorem sweep_zero : p.sweep names direction flag v k 0 =
    (.ok (p.firstValues names direction v k), v.afterRows names direction k) := rfl

/-- A flag that is up ends the visits before the row is set. What the rows before it left is kept. -/
theorem sweep_of_up (h : flag.isUp (p.formula.cost meter) k = true) (remaining : Nat) :
    p.sweep names direction flag v k (remaining + 1) =
      (.error (.cancelled k), v.afterRows names direction k) := by
  rw [sweep, List.range'_succ, List.find?_cons_of_pos h]

/-- If the flag is not up, the row is visited and the others follow. -/
theorem sweep_of_down (h : flag.isUp (p.formula.cost meter) k = false) (remaining : Nat) :
    p.sweep names direction flag v k (remaining + 1) =
      p.sweep names direction flag v (k + 1) remaining := by
  have hdown : ¬ flag.isUp (p.formula.cost meter) k = true := by simp [h]
  rw [sweep, sweep, List.range'_succ, List.find?_cons_of_neg hdown, Nat.add_right_comm]
  rfl

end Sweep

/-- What an enumeration answers and the valuation that it leaves. -/
def outcome (p : Parsed) (columns : List Symbol) (direction : Direction) (flag : Flag)
    (v : Valuation) : Except TableError TruthTable × Valuation :=
  match p.refusal? columns with
  | some e => (.error e, v)
  | none =>
    let names := columns.map Symbol.name
    match (List.range (2 ^ names.length)).find? (flag.isUp (p.formula.cost meter)) with
    | some k => (.error (.cancelled k), v.afterRows names direction k)
    | none => (.ok (p.table names direction v),
        v.assign names (List.replicate names.length (direction = .ascending)))

/-- Only columns that are not refused are set. A list that is refused changes nothing, whatever stands
    in it. -/
theorem outcome_snd_of_not_mem {p : Parsed} {columns : List Symbol} {name : String}
    (h : p.refusal? columns = none → name ∉ columns.map Symbol.name) (direction : Direction)
    (flag : Flag) (v : Valuation) : (p.outcome columns direction flag v).2 name = v name := by
  unfold outcome
  cases hrefusal : p.refusal? columns with
  | some e => rfl
  | none =>
    simp only
    split
    · exact Valuation.afterRows_of_not_mem (h hrefusal) v direction _
    · exact Valuation.assign_of_not_mem (h hrefusal) v _

/-- The outcome for columns that are not refused is that of visiting all rows. The table has their names
    and the formula as it is written. -/
theorem outcome_of_admits {p : Parsed} {columns : List Symbol} (h : p.Admits columns)
    (direction : Direction) (flag : Flag) (v : Valuation) :
    p.outcome columns direction flag v =
      ((p.sweep (columns.map Symbol.name) direction flag v 0 (2 ^ columns.length)).1.map fun values =>
        ⟨columns.map Symbol.name, p.formula.render .algebraic, direction, values⟩,
      (p.sweep (columns.map Symbol.name) direction flag v 0 (2 ^ columns.length)).2) := by
  have hlength : 2 ^ columns.length = 2 ^ (columns.map Symbol.name).length := by rw [List.length_map]
  simp only [outcome, refusal?_eq_none_iff.2 h, sweep, hlength, ← List.range_eq_range', Nat.zero_add,
    Valuation.afterRows_two_pow]
  split <;> rfl

/-- Visiting the rows one after the other sets the names anew for each, and leaves the last of them. The
    induction is on the rows that remain, and what was spent is the cost of those before. -/
theorem visit_eq_sweep {p : Parsed} {names : List String} (hnames : names.length ≤ maxColumns)
    (direction : Direction) (limit : Option Nat) (base : Valuation) {k remaining : Nat}
    (hk : k + remaining ≤ 2 ^ names.length) :
    p.visit ⟨names, direction, (2 ^ names.length).toUInt32, limit, base⟩ remaining k.toUInt32
        (k * p.formula.cost meter) (p.firstValues names direction base k)
        (base.afterRows names direction k) =
      p.sweep names direction (Flag.ofLimit limit) base k remaining := by
  induction remaining generalizing k with
  | zero => rw [visit, sweep_zero]
  | succ remaining ih =>
    have hflag : Survey.isSpent ⟨names, direction, (2 ^ names.length).toUInt32, limit, base⟩
        (k * p.formula.cost meter) = (Flag.ofLimit limit).isUp (p.formula.cost meter) k := rfl
    rw [visit, hflag]
    cases hup : (Flag.ofLimit limit).isUp (p.formula.cost meter) k with
    | true => rw [if_pos rfl, size_firstValues, sweep_of_up hup]
    | false =>
      have hlt : k < 2 ^ names.length := by omega
      have hrow : Survey.valuation ⟨names, direction, (2 ^ names.length).toUInt32, limit, base⟩
          k.toUInt32 = base.afterRows names direction (k + 1) :=
        Valuation.setRow_index hnames direction base hlt
      have hspent : k * p.formula.cost meter + p.formula.cost meter = (k + 1) * p.formula.cost meter :=
        (Nat.succ_mul _ _).symm
      rw [if_neg Bool.false_ne_true, sweep_of_down hup, ← ih (by omega)]
      simp only [hrow, toUInt32_succ, Formula.measure_eq, hspent, firstValues_succ]

/-- The answer of an enumeration, and the values that it leaves behind, also where it is refused or
    cancelled. All that is proved of enumerations goes by this description. -/
theorem enumerate_eq_outcome (p : Parsed) (columns : List Symbol) (direction : Direction)
    (limit : Option Nat) (v : Valuation) :
    p.enumerate columns direction limit v =
      p.outcome columns direction (Flag.ofLimit limit) v := by
  cases hrefusal : p.refusal? columns with
  | some e => simp only [enumerate, outcome, hrefusal]
  | none =>
    have hadmits := refusal?_eq_none_iff.1 hrefusal
    have hlength : (columns.map Symbol.name).length = columns.length := List.length_map _
    have hmax : (columns.map Symbol.name).length ≤ maxColumns := hlength ▸ hadmits.length_le
    have hcount : (2 ^ columns.length).toUInt32.toNat = 2 ^ columns.length :=
      toNat_toUInt32_of_le_two_pow hadmits.length_le (Nat.le_refl _)
    have hvisit := visit_eq_sweep (p := p) hmax direction limit v (Nat.le_of_eq (Nat.zero_add _))
    rw [hlength, Nat.zero_mul] at hvisit
    rw [outcome_of_admits hadmits, ← hvisit]
    simp only [enumerate, hrefusal, one_shiftLeft_eq hadmits.length_le, hcount]
    rfl

end Parsed

end Sentential
