import Mathlib.Logic.ExistsUnique
import Sentential.Proofs.TruthTable.Bits

namespace Sentential

/-- A row count and the indices below it fit a machine word, since a table has fewer columns than a word
    has bits. Words and numbers can be exchanged for each other there. -/
theorem toNat_toUInt32_of_le_two_pow {n i : Nat} (hn : n ≤ maxColumns) (hi : i ≤ 2 ^ n) :
    i.toUInt32.toNat = i := by
  have hpow : 2 ^ n ≤ 2 ^ 31 := Nat.pow_le_pow_right Nat.two_pos hn
  refine UInt32.toNat_ofNat_of_lt' ?_
  simp only [UInt32.size]
  omega

/-- The shift counts the rows, since it is not as far as a word is wide. A longer shift would wrap
    around. -/
theorem one_shiftLeft_eq {n : Nat} (hn : n ≤ maxColumns) :
    (1 : UInt32) <<< n.toUInt32 = (2 ^ n).toUInt32 := by
  have hcount : n.toUInt32.toNat = n :=
    toNat_toUInt32_of_le_two_pow hn (Nat.le_of_lt Nat.lt_two_pow_self)
  have hpow : 2 ^ n ≤ 2 ^ 31 := Nat.pow_le_pow_right Nat.two_pos hn
  have hshift : n % 32 = n := Nat.mod_eq_of_lt (Nat.lt_succ_of_le hn)
  rw [← UInt32.toNat_inj, toNat_toUInt32_of_le_two_pow hn (Nat.le_refl _), UInt32.toNat_shiftLeft,
    hcount, hshift, Nat.shiftLeft_eq, UInt32.toNat_one, Nat.one_mul]
  exact Nat.mod_eq_of_lt (by omega)

namespace Direction

/-- The index of the row that is visited at a position, as a number. -/
def place (direction : Direction) (rows position : Nat) : Nat :=
  match direction with
  | ascending => position
  | descending => rows - 1 - position

/-- The index of a row is in range in both directions. It is a row of the table at every position. -/
theorem place_lt (direction : Direction) {rows position : Nat} (h : position < rows) :
    direction.place rows position < rows := by
  cases direction <;> simp only [place] <;> omega

/-- Going through the positions the other way and back again leads nowhere. -/
theorem place_place (direction : Direction) {rows position : Nat} (h : position < rows) :
    direction.place rows (direction.place rows position) = position := by
  cases direction with
  | ascending => rfl
  | descending =>
    simp only [place]
    omega

/-- The index in words is the index as a number. No difference is taken that would fall below zero. -/
theorem index_eq_place (direction : Direction) {rows position : Nat} (h : position < rows) :
    direction.index position.toUInt32 rows.toUInt32 = (direction.place rows position).toUInt32 := by
  cases direction with
  | ascending => rfl
  | descending =>
    have hrows : 1 ≤ rows := by omega
    have hposition : position ≤ rows - 1 := by omega
    simp only [index, place, Nat.toUInt32_eq, UInt32.ofNat_sub hposition, UInt32.ofNat_sub hrows]
    rfl

end Direction

namespace Parsed

/-- The values found on the way, if no row is one too many. Each row is set over the values that were
    there before the first one, because it overwrites what the others wrote. -/
theorem visit_of_limit_eq_none (p : Parsed) {survey : Survey} (h : survey.limit = none)
    (remaining : Nat) (position : UInt32) (spent : Nat) (values : Array Bool) (v : Valuation) :
    (p.visit survey remaining position spent values v).1 =
      .ok (values ++ ((List.range remaining).map fun k =>
        p.formula.truth (survey.valuation (position + k.toUInt32))).toArray) := by
  induction remaining generalizing position spent values v with
  | zero => simp [visit]
  | succ remaining ih =>
    have hgo : survey.isSpent spent = false := by simp [Survey.isSpent, h]
    have hnext : ∀ k : Nat, position + 1 + k.toUInt32 = position + (k + 1).toUInt32 := by
      intro k
      rw [Nat.toUInt32_eq, Nat.toUInt32_eq, UInt32.ofNat_add, UInt32.add_assoc, UInt32.add_comm 1]
      rfl
    rw [visit, hgo, if_neg Bool.false_ne_true]
    simp only [Formula.measure_eq, ih, hnext]
    rw [List.range_succ_eq_map, List.map_cons, List.map_map]
    simp [Function.comp_def]

/-- The value of the row that has an index: each name is worth a bit of it. -/
def rowValue (p : Parsed) (names : List String) (v : Valuation) (i : Nat) : Bool :=
  p.formula.truth (v.assign names (binary names.length i))

/-- The table of a formula with its rows in some order. -/
def table (p : Parsed) (names : List String) (direction : Direction) (v : Valuation) : TruthTable :=
  ⟨names, p.formula.render .algebraic, direction,
    ((List.range (2 ^ names.length)).map fun k =>
      p.rowValue names v (direction.place (2 ^ names.length) k)).toArray⟩

/-- Columns that are not refused have a table, which is that of the formula. It is described without the
    loop, row by row. -/
theorem enumerate_eq_ok_table {p : Parsed} {columns : List Symbol} (h : p.Admits columns)
    (direction : Direction) (v : Valuation) :
    (p.enumerate columns direction none v).1 =
      .ok (p.table (columns.map Symbol.name) direction v) := by
  have hrefusal := refusal?_eq_none_iff.2 h
  have hcount : (2 ^ columns.length).toUInt32.toNat = 2 ^ columns.length :=
    toNat_toUInt32_of_le_two_pow h.length_le (Nat.le_refl _)
  simp only [enumerate, hrefusal, one_shiftLeft_eq h.length_le, hcount]
  rw [visit_of_limit_eq_none p rfl]
  simp only [Except.map, table, List.length_map]
  congr 2
  simp only [Array.empty_append]
  congr 1
  refine List.map_congr_left fun k hk => ?_
  have hplace := direction.place_lt (List.mem_range.1 hk)
  rw [Survey.valuation, UInt32.zero_add, direction.index_eq_place (List.mem_range.1 hk),
    Valuation.setRow_eq_assign, toNat_toUInt32_of_le_two_pow h.length_le (Nat.le_of_lt hplace)]
  rfl

/-- There is a table exactly for the columns that are not refused, and there is only one. Without a
    limit nothing else can happen. -/
theorem enumerate_eq_ok_iff {p : Parsed} {columns : List Symbol} {direction : Direction}
    {v : Valuation} {t : TruthTable} :
    (p.enumerate columns direction none v).1 = .ok t ↔
      p.Admits columns ∧ t = p.table (columns.map Symbol.name) direction v := by
  constructor
  · intro h
    cases hrefusal : p.refusal? columns with
    | some e => simp [enumerate, hrefusal] at h
    | none =>
      have hadmits := refusal?_eq_none_iff.1 hrefusal
      rw [enumerate_eq_ok_table hadmits] at h
      exact ⟨hadmits, (Except.ok.inj h).symm⟩
  · rintro ⟨hadmits, rfl⟩
    exact enumerate_eq_ok_table hadmits direction v

/-- A table does not depend on what its columns were worth before. Only names that are no columns have a
    say in it. -/
theorem table_congr {p : Parsed} {names : List String} {u v : Valuation}
    (h : ∀ name, name ∉ names → u name = v name) (direction : Direction) :
    p.table names direction u = p.table names direction v := by
  have hvalue : p.rowValue names u = p.rowValue names v := by
    funext i
    rw [rowValue, rowValue, Valuation.assign_congr h (length_binary _ _)]
  rw [table, table, hvalue]

/-- The row that has an index. -/
def row (p : Parsed) (names : List String) (v : Valuation) (i : Nat) : Row :=
  ⟨i.toUInt32, names.length, p.rowValue names v i⟩

/-- The rows of a table in the order in which they are visited, each with its index, its width and its
    value. The two directions differ in the order of the indices only. -/
theorem rows_table (p : Parsed) (names : List String) (direction : Direction) (v : Valuation) :
    (p.table names direction v).rows = (List.range (2 ^ names.length)).map fun k =>
      p.row names v (direction.place (2 ^ names.length) k) := by
  refine List.ext_getElem (by simp [TruthTable.rows, table]) fun k hk _ => ?_
  have hlt : k < 2 ^ names.length := by simpa [TruthTable.rows, table] using hk
  have hindex := direction.index_eq_place hlt
  simpa [TruthTable.rows, TruthTable.rowCount, table, row] using hindex

/-- The row at a position is the one whose index the direction has there. -/
theorem getElem?_rows_table_eq_some_iff {p : Parsed} {names : List String} {direction : Direction}
    {v : Valuation} {k : Nat} {row : Row} :
    (p.table names direction v).rows[k]? = some row ↔
      k < 2 ^ names.length ∧ p.row names v (direction.place (2 ^ names.length) k) = row := by
  rw [rows_table, List.getElem?_map]
  by_cases hk : k < 2 ^ names.length
  · simp [hk]
  · simp [hk]

/-- The index of a row fits a word. -/
theorem toNat_index_row {names : List String} (h : names.length ≤ maxColumns) (p : Parsed)
    (v : Valuation) {i : Nat} (hi : i < 2 ^ names.length) : (p.row names v i).index.toNat = i :=
  toNat_toUInt32_of_le_two_pow h (Nat.le_of_lt hi)

/-- The bits that a row reports are those that were given to its columns. They spell its index. -/
theorem bits_row {names : List String} (h : names.length ≤ maxColumns) (p : Parsed) (v : Valuation)
    {i : Nat} (hi : i < 2 ^ names.length) : Row.bits (p.row names v i) = binary names.length i := by
  have hwidth : Row.width (p.row names v i) ≤ 32 := Nat.le_succ_of_le h
  rw [Row.bits_eq_binary hwidth, toNat_index_row h p v hi]
  rfl

/-- Every list of bits is that of one row. No assignment is left out, and none is visited twice. -/
theorem existsUnique_row_of_bits {names : List String} (h : names.length ≤ maxColumns) (p : Parsed)
    (direction : Direction) (v : Valuation) {bits : List Bool} (hbits : bits.length = names.length) :
    ∃! k : Nat, ∃ row, (p.table names direction v).rows[k]? = some row ∧ row.bits = bits := by
  obtain ⟨i, hi, hbinary⟩ := exists_binary_eq bits
  rw [hbits] at hi hbinary
  refine ⟨direction.place (2 ^ names.length) i, ⟨p.row names v i, ?_, ?_⟩, ?_⟩
  · rw [getElem?_rows_table_eq_some_iff, direction.place_place hi]
    exact ⟨direction.place_lt hi, rfl⟩
  · rw [bits_row h p v hi, hbinary]
  · rintro k ⟨row, hrow, hrowBits⟩
    obtain ⟨hk, rfl⟩ := getElem?_rows_table_eq_some_iff.1 hrow
    have hplace := direction.place_lt hk
    rw [bits_row h p v hplace, ← hbinary] at hrowBits
    have hindex := binary_injective hplace hi hrowBits
    rw [← hindex, direction.place_place hk]

/-- An enumeration goes through all assignments of its columns, each once, in the order of the indices
    that their bits spell, and finds the truth value that the formula has under them. Variables that are
    no columns keep their values. What the columns were worth before makes no difference. -/
theorem enumerate_all_assignments {M : Type → Type} [PrefixMap M] {d : Dialect M}
    {text : List Char} {p : Parsed} (hp : parseWith d text = .ok p) {columns : List Symbol}
    (hcolumns : p.refusal? columns = none) (direction : Direction) (v : Valuation) :
    ∃ t, (p.enumerate columns direction none v).1 = .ok t ∧
      t.rows.length = 2 ^ columns.length ∧
      (∀ (k : Nat) row, t.rows[k]? = some row →
        row.index.toNat = direction.place (2 ^ columns.length) k ∧
          row.bits = binary columns.length row.index.toNat ∧
          ∃ w : Valuation, (columns.map Symbol.name).map w = row.bits ∧
            (∀ name, name ∉ columns.map Symbol.name → w name = v name) ∧
            row.value = p.formula.truth w) ∧
      (∀ bits : List Bool, bits.length = columns.length →
        ∃! k : Nat, ∃ row, t.rows[k]? = some row ∧ row.bits = bits) ∧
      ∀ u : Valuation, (∀ name, name ∉ columns.map Symbol.name → u name = v name) →
        (p.enumerate columns direction none u).1 = .ok t := by
  have hadmits := refusal?_eq_none_iff.1 hcolumns
  have hnames := hadmits.nodup_names hp
  have hlength : columns.length = (columns.map Symbol.name).length := (List.length_map _).symm
  have hmax := hadmits.length_le
  rw [hlength] at hmax ⊢
  refine ⟨_, enumerate_eq_ok_table hadmits direction v, ?_, ?_, ?_, ?_⟩
  · rw [rows_table, List.length_map, List.length_range]
  · intro k row hrow
    obtain ⟨hk, rfl⟩ := getElem?_rows_table_eq_some_iff.1 hrow
    have hplace := direction.place_lt hk
    have hindex := toNat_index_row hmax p v hplace
    have hbits := bits_row hmax p v hplace
    refine ⟨hindex, by rw [hbits, hindex], v.assign (columns.map Symbol.name) _, ?_, ?_, rfl⟩
    · rw [hbits]
      exact Valuation.map_assign hnames (length_binary _ _) v
    · exact fun name hname => Valuation.assign_of_not_mem hname v _
  · exact fun bits hbits => existsUnique_row_of_bits hmax p direction v hbits
  · intro u hu
    rw [enumerate_eq_ok_table hadmits, table_congr hu]

/-- Two of three variables are columns, in an order of their own. The rows go from the last assignment
    to the first. -/
theorem enumerate_all_assignments_openAtRight :
    (Parsed.ofFormula Formula.openAtRight.numbered).refusal? [⟨"c", 6⟩, ⟨"a", 0⟩] = none ∧
      ∃ t, ((Parsed.ofFormula Formula.openAtRight.numbered).enumerate [⟨"c", 6⟩, ⟨"a", 0⟩]
          .descending none Valuation.allFalse).1 = .ok t ∧ t.rows.length = 4 ∧
        ∀ bits : List Bool, bits.length = 2 →
          ∃! k : Nat, ∃ row, t.rows[k]? = some row ∧ row.bits = bits := by
  have hcolumns : (Parsed.ofFormula Formula.openAtRight.numbered).refusal?
      [⟨"c", 6⟩, ⟨"a", 0⟩] = none := by decide +kernel
  obtain ⟨t, ht, hlength, -, hunique, -⟩ := enumerate_all_assignments parseWith_openAtRight hcolumns
    .descending Valuation.allFalse
  exact ⟨hcolumns, t, ht, hlength, hunique⟩

end Parsed

end Sentential
