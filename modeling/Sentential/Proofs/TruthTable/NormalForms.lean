import Mathlib.Data.List.Basic
import Sentential.Proofs.TruthTable.Rows

namespace Sentential

/-- A name as it is, or negated. -/
def literal (w : Valuation) (name : String) (positive : Bool) : Bool :=
  if positive then w name else !w name

private theorem literal_eq_true_iff {w : Valuation} {name : String} {positive : Bool} :
    literal w name positive = true ↔ w name = positive := by
  cases positive <;> simp [literal]

private theorem literal_eq_false_iff {w : Valuation} {name : String} {positive : Bool} :
    literal w name positive = false ↔ w name = !positive := by
  cases positive <;> simp [literal]

/-- The conjunction of all names, each negated where the number has no bit. -/
def minterm (names : List String) (k : UInt32) (w : Valuation) : Bool :=
  (List.zipWith (literal w) names (binary names.length k.toNat)).all id

/-- The disjunction of all names, each negated where the number has no bit. -/
def maxterm (names : List String) (k : UInt32) (w : Valuation) : Bool :=
  (List.zipWith (literal w) names (binary names.length k.toNat)).any id

private theorem all_zipWith_literal_iff {names : List String} {bits : List Bool} {w : Valuation}
    (h : bits.length = names.length) :
    (List.zipWith (literal w) names bits).all id = true ↔ names.map w = bits := by
  induction names generalizing bits with
  | nil => simp [List.length_eq_zero_iff.1 h]
  | cons name rest ih =>
    cases bits with
    | nil => cases h
    | cons bit bits =>
      rw [List.zipWith_cons_cons, List.all_cons, Bool.and_eq_true, id, literal_eq_true_iff,
        ih (Nat.succ.inj h), List.map_cons, List.cons.injEq]

private theorem any_zipWith_literal_eq_false_iff {names : List String} {bits : List Bool}
    {w : Valuation} (h : bits.length = names.length) :
    (List.zipWith (literal w) names bits).any id = false ↔ names.map w = bits.map not := by
  induction names generalizing bits with
  | nil => simp [List.length_eq_zero_iff.1 h]
  | cons name rest ih =>
    cases bits with
    | nil => cases h
    | cons bit bits =>
      rw [List.zipWith_cons_cons, List.any_cons, Bool.or_eq_false_iff, id, ih (Nat.succ.inj h),
        List.map_cons, List.map_cons, List.cons.injEq, literal_eq_false_iff]

/-- A minterm is true under one assignment of its names, that of its own bits. The values of other names
    play no part. -/
theorem minterm_eq_true_iff {names : List String} {k : UInt32} {w : Valuation} :
    minterm names k w = true ↔ names.map w = binary names.length k.toNat :=
  all_zipWith_literal_iff (length_binary _ _)

/-- A maxterm is false under one assignment of its names, where each bit is flipped. It is the
    assignment of the row that the maxterm counts from the last one. -/
theorem maxterm_eq_false_iff {names : List String} {k : UInt32} {w : Valuation} :
    maxterm names k w = false ↔ names.map w = (binary names.length k.toNat).map not :=
  any_zipWith_literal_eq_false_iff (length_binary _ _)

namespace Parsed

private theorem reverse_map_range {α : Type} (f : Nat → α) (n : Nat) :
    ((List.range n).map f).reverse = (List.range n).map fun i => f (n - 1 - i) := by
  rw [← List.map_reverse, List.range_eq_range', List.reverse_range', List.map_map]
  simp [Function.comp_def, List.range_eq_range']

/-- The indices of the rows in which the formula is true. -/
def trueIndices (p : Parsed) (names : List String) (v : Valuation) : List Nat :=
  (List.range (2 ^ names.length)).filter (p.rowValue names v)

/-- The indices of the rows in which the formula is false, counted from the last row. -/
def falseIndices (p : Parsed) (names : List String) (v : Valuation) : List Nat :=
  (List.range (2 ^ names.length)).filter fun i =>
    !p.rowValue names v (2 ^ names.length - 1 - i)

/-- Both directions visit the same rows, the one in the reverse order of the other. -/
theorem rows_table_eq_ascending (p : Parsed) (names : List String) (direction : Direction)
    (v : Valuation) :
    (p.table names direction v).rows = match direction with
      | .ascending => (List.range (2 ^ names.length)).map (p.row names v)
      | .descending => ((List.range (2 ^ names.length)).map (p.row names v)).reverse := by
  rw [rows_table]
  cases direction with
  | ascending => rfl
  | descending => rw [reverse_map_range]; rfl

/-- The minterms of a table are the indices of its true rows, whatever its direction. Both directions
    list them in ascending order. -/
theorem minterms_table (p : Parsed) (names : List String) (direction : Direction) (v : Valuation) :
    (p.table names direction v).minterms = (p.trueIndices names v).map Nat.toUInt32 := by
  have hforward : (((List.range (2 ^ names.length)).map (p.row names v)).filter Row.value).map
      Row.index = (p.trueIndices names v).map Nat.toUInt32 := by
    rw [List.filter_map, List.map_map]
    rfl
  rw [TruthTable.minterms, rows_table_eq_ascending]
  cases direction with
  | ascending => exact hforward
  | descending =>
    simp only [table]
    rw [List.filter_reverse, List.map_reverse, List.reverse_reverse, hforward]

/-- The maxterms of a table are the indices of its false rows, counted from the last one, whatever its
    direction. Both directions list them in ascending order. -/
theorem maxterms_table (p : Parsed) (names : List String) (direction : Direction) (v : Valuation) :
    (p.table names direction v).maxterms = (p.falseIndices names v).map Nat.toUInt32 := by
  have hcount : (p.table names direction v).rowCount = (2 ^ names.length).toUInt32 := by
    simp [TruthTable.rowCount, table]
  have hbackward : ((((List.range (2 ^ names.length)).map (p.row names v)).filter
      (!·.value)).map fun row => (2 ^ names.length).toUInt32 - 1 - row.index).reverse =
        (p.falseIndices names v).map Nat.toUInt32 := by
    rw [← List.map_reverse, ← List.filter_reverse, reverse_map_range, List.filter_map, List.map_map]
    refine List.map_congr_left fun i hi => ?_
    have hlt := List.mem_range.1 (List.mem_filter.1 hi).1
    have hplace := Direction.descending.index_eq_place (Direction.descending.place_lt hlt)
    rw [Direction.descending.place_place hlt] at hplace
    exact hplace
  rw [TruthTable.maxterms, rows_table_eq_ascending, hcount]
  cases direction with
  | ascending => exact hbackward
  | descending =>
    simp only [table]
    rw [List.filter_reverse, List.map_reverse, hbackward]

private theorem mem_trueIndices_iff {p : Parsed} {names : List String} {v : Valuation} {i : Nat} :
    i ∈ p.trueIndices names v ↔ i < 2 ^ names.length ∧ p.rowValue names v i = true := by
  simp [trueIndices]

private theorem mem_falseIndices_iff {p : Parsed} {names : List String} {v : Valuation} {i : Nat} :
    i ∈ p.falseIndices names v ↔
      i < 2 ^ names.length ∧ p.rowValue names v (2 ^ names.length - 1 - i) = false := by
  simp [falseIndices]

/-- Every row is true or false, so the two lists have as many entries as there are rows. -/
theorem length_trueIndices_add_length_falseIndices (p : Parsed) (names : List String)
    (v : Valuation) :
    (p.trueIndices names v).length + (p.falseIndices names v).length = 2 ^ names.length := by
  have hreverse : (List.range (2 ^ names.length)).map (2 ^ names.length - 1 - ·) =
      (List.range (2 ^ names.length)).reverse := by
    simpa using (reverse_map_range id (2 ^ names.length)).symm
  have hback : (p.falseIndices names v).length =
      (((List.range (2 ^ names.length)).map (2 ^ names.length - 1 - ·)).filter
        (!p.rowValue names v ·)).length := by
    rw [List.filter_map, List.length_map]
    rfl
  rw [hreverse, List.filter_reverse, List.length_reverse] at hback
  rw [hback, trueIndices, ← List.length_eq_length_filter_add, List.length_range]

private theorem pairwise_lt_map_toUInt32 {n : Nat} (hn : n ≤ maxColumns) (accepts : Nat → Bool) :
    (((List.range (2 ^ n)).filter accepts).map Nat.toUInt32).Pairwise (· < ·) := by
  refine List.pairwise_map.2 ((List.pairwise_lt_range.filter accepts).imp_of_mem ?_)
  intro i j hi hj hlt
  have hi := List.mem_range.1 (List.mem_filter.1 hi).1
  have hj := List.mem_range.1 (List.mem_filter.1 hj).1
  rw [UInt32.lt_iff_toNat_lt, toNat_toUInt32_of_le_two_pow hn (Nat.le_of_lt hi),
    toNat_toUInt32_of_le_two_pow hn (Nat.le_of_lt hj)]
  exact hlt

/-- An assignment of the names is that of one row, which tells the truth value under it. Names that are
    no columns have the values that they had in the table. -/
theorem exists_rowValue_eq_truth (p : Parsed) {names : List String} {v w : Valuation}
    (hw : ∀ name, name ∉ names → w name = v name) :
    ∃ i < 2 ^ names.length, names.map w = binary names.length i ∧
      p.rowValue names v i = p.formula.truth w := by
  obtain ⟨i, hi, hbits⟩ := exists_binary_eq (names.map w)
  rw [List.length_map] at hi hbits
  exact ⟨i, hi, hbits.symm, by rw [rowValue, hbits, Valuation.assign_map hw]⟩

/-- The disjunctive normal form denotes the formula. The other names may have any values, as long as
    they keep them. -/
theorem any_minterm_eq_truth {p : Parsed} {names : List String} (hmax : names.length ≤ maxColumns)
    {v w : Valuation} (hw : ∀ name, name ∉ names → w name = v name) :
    (((p.trueIndices names v).map Nat.toUInt32).any fun k => minterm names k w) =
      p.formula.truth w := by
  obtain ⟨i, hi, hbits, hvalue⟩ := p.exists_rowValue_eq_truth hw
  have hiff : ∀ j < 2 ^ names.length, minterm names j.toUInt32 w = true ↔ j = i := by
    intro j hj
    rw [minterm_eq_true_iff, hbits, toNat_toUInt32_of_le_two_pow hmax (Nat.le_of_lt hj)]
    exact ⟨fun h => (binary_injective hi hj h).symm, fun h => by rw [h]⟩
  rw [List.any_map, Bool.eq_iff_iff, List.any_eq_true, ← hvalue]
  constructor
  · rintro ⟨j, hmem, hj⟩
    obtain ⟨hlt, htrue⟩ := mem_trueIndices_iff.1 hmem
    rwa [(hiff j hlt).1 hj] at htrue
  · exact fun htrue => ⟨i, mem_trueIndices_iff.2 ⟨hi, htrue⟩, (hiff i hi).2 rfl⟩

/-- The conjunctive normal form denotes the formula: what counts the rows from the last one flips the
    bits that the maxterms are false under. -/
theorem all_maxterm_eq_truth {p : Parsed} {names : List String} (hmax : names.length ≤ maxColumns)
    {v w : Valuation} (hw : ∀ name, name ∉ names → w name = v name) :
    (((p.falseIndices names v).map Nat.toUInt32).all fun k => maxterm names k w) =
      p.formula.truth w := by
  obtain ⟨i, hi, hbits, hvalue⟩ := p.exists_rowValue_eq_truth hw
  have hiff : ∀ j < 2 ^ names.length,
      maxterm names j.toUInt32 w = false ↔ 2 ^ names.length - 1 - j = i := by
    intro j hj
    have hback : 2 ^ names.length - 1 - j < 2 ^ names.length := by omega
    rw [maxterm_eq_false_iff, hbits, toNat_toUInt32_of_le_two_pow hmax (Nat.le_of_lt hj),
      ← binary_complement hj]
    exact ⟨fun h => (binary_injective hi hback h).symm, fun h => by rw [h]⟩
  rw [List.all_map]
  cases hfalse : p.rowValue names v i with
  | false =>
    have hback : 2 ^ names.length - 1 - (2 ^ names.length - 1 - i) = i := by omega
    rw [← hvalue, hfalse, List.all_eq_false]
    refine ⟨2 ^ names.length - 1 - i, mem_falseIndices_iff.2 ⟨by omega, by rwa [hback]⟩, ?_⟩
    rw [Bool.not_eq_true]
    exact (hiff _ (by omega)).2 hback
  | true =>
    rw [← hvalue, hfalse, List.all_eq_true]
    intro j hmem
    obtain ⟨hlt, hrow⟩ := mem_falseIndices_iff.1 hmem
    by_contra hnot
    rw [Bool.not_eq_true] at hnot
    rw [(hiff j hlt).1 hnot, hfalse] at hrow
    cases hrow

/-- Both directions visit the rows of all indices. -/
private theorem mem_rows_table_iff {p : Parsed} {names : List String} {direction : Direction}
    {v : Valuation} {row : Row} :
    row ∈ (p.table names direction v).rows ↔ ∃ i < 2 ^ names.length, p.row names v i = row := by
  rw [rows_table_eq_ascending]
  cases direction <;> simp

private theorem mem_minterms_table_iff {p : Parsed} {names : List String} {direction : Direction}
    {v : Valuation} {k : UInt32} :
    k ∈ (p.table names direction v).minterms ↔
      ∃ row ∈ (p.table names direction v).rows, row.value = true ∧ row.index = k := by
  rw [minterms_table, List.mem_map]
  constructor
  · rintro ⟨i, hi, rfl⟩
    obtain ⟨hlt, htrue⟩ := mem_trueIndices_iff.1 hi
    exact ⟨p.row names v i, mem_rows_table_iff.2 ⟨i, hlt, rfl⟩, htrue, rfl⟩
  · rintro ⟨row, hrow, htrue, rfl⟩
    obtain ⟨i, hlt, rfl⟩ := mem_rows_table_iff.1 hrow
    exact ⟨i, mem_trueIndices_iff.2 ⟨hlt, htrue⟩, rfl⟩

private theorem mem_maxterms_table_iff {p : Parsed} {names : List String}
    (hmax : names.length ≤ maxColumns) {direction : Direction} {v : Valuation} {k : UInt32} :
    k ∈ (p.table names direction v).maxterms ↔
      ∃ row ∈ (p.table names direction v).rows, row.value = false ∧
        k.toNat = 2 ^ names.length - 1 - row.index.toNat := by
  rw [maxterms_table, List.mem_map]
  constructor
  · rintro ⟨j, hj, rfl⟩
    obtain ⟨hlt, hfalse⟩ := mem_falseIndices_iff.1 hj
    have hback : 2 ^ names.length - 1 - j < 2 ^ names.length := by omega
    refine ⟨p.row names v (2 ^ names.length - 1 - j), mem_rows_table_iff.2 ⟨_, hback, rfl⟩, hfalse, ?_⟩
    rw [toNat_index_row hmax p v hback, toNat_toUInt32_of_le_two_pow hmax (Nat.le_of_lt hlt)]
    omega
  · rintro ⟨row, hrow, hfalse, hk⟩
    obtain ⟨i, hlt, rfl⟩ := mem_rows_table_iff.1 hrow
    rw [toNat_index_row hmax p v hlt] at hk
    have hback : 2 ^ names.length - 1 - k.toNat = i := by omega
    refine ⟨k.toNat, mem_falseIndices_iff.2 ⟨by omega, ?_⟩, UInt32.ofNat_toNat⟩
    rw [hback]
    exact hfalse

/-- The normal forms of every table: the minterms are the indices of its true rows and the maxterms
    those of its false rows, counted from the last one, both ascending and the same for the two
    directions. Each of the two forms denotes the formula under every assignment of the columns. -/
theorem normalForms_of_enumerate {p : Parsed} {columns : List Symbol} {direction : Direction}
    {v : Valuation} {t : TruthTable} (h : (p.enumerate columns direction none v).1 = .ok t) :
    t.minterms.Pairwise (· < ·) ∧
      (∀ k, k ∈ t.minterms ↔ ∃ row ∈ t.rows, row.value = true ∧ row.index = k) ∧
      t.maxterms.Pairwise (· < ·) ∧
      (∀ k, k ∈ t.maxterms ↔ ∃ row ∈ t.rows, row.value = false ∧
        k.toNat = 2 ^ columns.length - 1 - row.index.toNat) ∧
      t.minterms.length + t.maxterms.length = 2 ^ columns.length ∧
      (∀ other u, (p.enumerate columns other none v).1 = .ok u →
        u.minterms = t.minterms ∧ u.maxterms = t.maxterms) ∧
      ∀ w : Valuation, (∀ name, name ∉ columns.map Symbol.name → w name = v name) →
        (t.minterms.any fun k => minterm (columns.map Symbol.name) k w) = p.formula.truth w ∧
          (t.maxterms.all fun k => maxterm (columns.map Symbol.name) k w) = p.formula.truth w := by
  obtain ⟨hadmits, rfl⟩ := enumerate_eq_ok_iff.1 h
  have hlength : columns.length = (columns.map Symbol.name).length := (List.length_map _).symm
  have hmax := hadmits.length_le
  rw [hlength] at hmax ⊢
  refine ⟨?_, fun k => mem_minterms_table_iff, ?_, fun k => mem_maxterms_table_iff hmax, ?_, ?_, ?_⟩
  · rw [minterms_table]
    exact pairwise_lt_map_toUInt32 hmax _
  · rw [maxterms_table]
    exact pairwise_lt_map_toUInt32 hmax _
  · rw [minterms_table, maxterms_table, List.length_map, List.length_map]
    exact p.length_trueIndices_add_length_falseIndices _ v
  · intro other u hu
    obtain ⟨-, rfl⟩ := enumerate_eq_ok_iff.1 hu
    rw [minterms_table, minterms_table, maxterms_table, maxterms_table]
    exact ⟨rfl, rfl⟩
  · intro w hw
    rw [minterms_table, maxterms_table]
    exact ⟨any_minterm_eq_truth hmax hw, all_maxterm_eq_truth hmax hw⟩

/-- Two of three variables are columns, in an order of their own. The third one keeps its value, which
    is false. -/
theorem normalForms_of_enumerate_openAtRight :
    ∃ t, ((Parsed.ofFormula Formula.openAtRight.numbered).enumerate [⟨"c", 6⟩, ⟨"a", 0⟩]
        .descending none Valuation.allFalse).1 = .ok t ∧
      t.minterms = [1, 2, 3] ∧ t.maxterms = [3] ∧
      ∀ w : Valuation, (∀ name, name ∉ ["c", "a"] → w name = false) →
        (t.minterms.any fun k => minterm ["c", "a"] k w) = Formula.openAtRight.numbered.truth w ∧
          (t.maxterms.all fun k => maxterm ["c", "a"] k w) =
            Formula.openAtRight.numbered.truth w := by
  have hcolumns : (Parsed.ofFormula Formula.openAtRight.numbered).refusal?
      [⟨"c", 6⟩, ⟨"a", 0⟩] = none := by decide +kernel
  have htable := enumerate_eq_ok_table (refusal?_eq_none_iff.1 hcolumns) .descending
    Valuation.allFalse
  obtain ⟨-, -, -, -, -, -, hdenotes⟩ := normalForms_of_enumerate htable
  exact ⟨_, htable, by decide +kernel, by decide +kernel, hdenotes⟩

end Parsed

end Sentential
