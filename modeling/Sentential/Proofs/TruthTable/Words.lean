import Mathlib.Data.Nat.PSub
import Sentential.Proofs.TruthTable.Cancellation

namespace Sentential

namespace Checked

/-- The word for an integer. An integer below zero or of more than 32 bits has none. -/
def word? (i : Int) : Option UInt32 :=
  if 0 ≤ i ∧ i < 2 ^ 32 then some (UInt32.ofNat i.toNat) else none

/-- The sum, unless it is no word. -/
def add? (a b : UInt32) : Option UInt32 :=
  word? (a.toNat + b.toNat)

/-- The difference, unless it is no word. -/
def sub? (a b : UInt32) : Option UInt32 :=
  word? (a.toNat - b.toNat)

/-- The product with a power of two, unless it is no word or the shift is as far as a word is wide. -/
def shiftLeft? (a : UInt32) (distance : Nat) : Option UInt32 :=
  if distance < 32 then word? (a.toNat * 2 ^ distance) else none

/-- The quotient by a power of two, unless the shift is as far as a word is wide. -/
def shiftRight? (a : UInt32) (distance : Nat) : Option UInt32 :=
  if distance < 32 then word? (a.toNat / 2 ^ distance) else none

private theorem word?_eq_some_iff {i : Int} {word : UInt32} :
    word? i = some word ↔ (word.toNat : Int) = i := by
  have hword := word.toNat_lt
  unfold word?
  split
  · rename_i h
    have hfits : i.toNat < UInt32.size := by
      simp only [UInt32.size]
      omega
    rw [Option.some.injEq, ← UInt32.toNat_inj, UInt32.toNat_ofNat_of_lt' hfits]
    omega
  · simp only [reduceCtorEq, false_iff]
    omega

private theorem add?_eq_some_iff {a b c : UInt32} :
    add? a b = some c ↔ c.toNat = a.toNat + b.toNat := by
  rw [add?, word?_eq_some_iff]
  omega

private theorem sub?_eq_some_iff {a b c : UInt32} :
    sub? a b = some c ↔ c.toNat + b.toNat = a.toNat := by
  rw [sub?, word?_eq_some_iff]
  omega

private theorem shiftLeft?_eq_some_iff {a b : UInt32} {distance : Nat} :
    shiftLeft? a distance = some b ↔ distance < 32 ∧ b.toNat = a.toNat * 2 ^ distance := by
  rw [shiftLeft?, Option.ite_none_right_eq_some, word?_eq_some_iff]
  norm_cast

private theorem shiftRight?_eq_some_iff {a b : UInt32} {distance : Nat} :
    shiftRight? a distance = some b ↔ distance < 32 ∧ b.toNat = a.toNat / 2 ^ distance := by
  rw [shiftRight?, Option.ite_none_right_eq_some, word?_eq_some_iff]
  norm_cast

private theorem sub?_of_le {a b : UInt32} (h : b ≤ a) : sub? a b = some (a - b) := by
  rw [sub?_eq_some_iff, UInt32.toNat_sub_of_le _ _ h]
  exact Nat.sub_add_cancel (UInt32.le_iff_toNat_le.1 h)

private theorem sub?_one_of_pos {a : UInt32} (h : 0 < a.toNat) : sub? a 1 = some (a - 1) :=
  sub?_of_le (UInt32.le_iff_toNat_le.2 h)

/-- With one column more than a table can have, its rows could not be counted in a word. So the limit on
    columns is the one that the words allow. -/
theorem shiftLeft?_one_eq_some_iff {n : Nat} {rows : UInt32} :
    shiftLeft? 1 n = some rows ↔ n ≤ maxColumns ∧ rows.toNat = 2 ^ n := by
  rw [shiftLeft?_eq_some_iff, UInt32.toNat_one, Nat.one_mul]
  exact and_congr_left' Nat.lt_succ_iff

-- What an enumeration does and what is read off its table follow once more, made of these operations. Each
-- has no answer as soon as one of its operations has none.

/-- The index of the row at a position. -/
def index? (direction : Direction) (position rows : UInt32) : Option UInt32 :=
  match direction with
  | .ascending => some position
  | .descending => do
    let last ← sub? rows 1
    sub? last position

/-- The bit of a column, which is shifted to the lowest place. -/
def bit? (row : Row) (column : Nat) : Option Bool := do
  let last ← Nat.psub row.width 1
  let distance ← Nat.psub last column
  let shifted ← shiftRight? row.index distance
  return shifted &&& 1 == 1

/-- The bits of a row. -/
def bits? (row : Row) : Option (List Bool) :=
  (List.range row.width).mapM (bit? row)

/-- The answer for a column, which is `none` where there is no such column. -/
def assignment? (row : Row) (column : Nat) : Option (Option Bool) :=
  if column < row.width then (bit? row column).map some else some none

/-- The number of rows, if a word can count them. -/
def rowCount? (t : TruthTable) : Option UInt32 :=
  word? t.values.size

/-- The rows of some values. Each of them counts the position up, also the last one. -/
def rowsFrom? (t : TruthTable) (rows position : UInt32) : List Bool → Option (List Row)
  | [] => some []
  | value :: rest => do
    let index ← index? t.direction position rows
    let next ← add? position 1
    let others ← rowsFrom? t rows next rest
    return ⟨index, t.names.length, value⟩ :: others

/-- The rows of a table. -/
def rows? (t : TruthTable) : Option (List Row) := do
  let rows ← rowCount? t
  rowsFrom? t rows 0 t.values.toList

/-- The indices of the true rows. -/
def minterms? (t : TruthTable) : Option (List UInt32) := do
  let rows ← rows? t
  let visited := (rows.filter (·.value)).map Row.index
  return match t.direction with
    | .ascending => visited
    | .descending => visited.reverse

/-- The indices of the false rows, counted from the last row. An empty table would have no last row. -/
def maxterms? (t : TruthTable) : Option (List UInt32) := do
  let count ← rowCount? t
  let last ← sub? count 1
  let rows ← rows? t
  let visited ← (rows.filter (!·.value)).mapM fun row => sub? last row.index
  return match t.direction with
    | .ascending => visited.reverse
    | .descending => visited

/-- The values with the names set to the bits of an index, which are shifted out from the last name to
    the first. -/
def setRow? (v : Valuation) (names : List String) (index : UInt32) : Option Valuation := do
  let state ← names.reverse.foldlM (fun (v, index) name => do
    let next ← shiftRight? index 1
    return (v.set name (index &&& 1 == 1), next)) (v, index)
  return state.1

/-- The values that the row at a position is evaluated under. -/
def valuation? (survey : Parsed.Survey) (position : UInt32) : Option Valuation := do
  let index ← index? survey.direction position survey.rows
  setRow? survey.base survey.names index

/-- Visits the rows that remain, unless the flag is up before one of them. -/
def visit? (p : Parsed) (survey : Parsed.Survey) :
    (remaining : Nat) → (position : UInt32) → (spent : Nat) → (values : Array Bool) → Valuation →
      Option (Except TableError (Array Bool) × Valuation)
  | 0, _, _, values, v => some (.ok values, v)
  | remaining + 1, position, spent, values, v =>
    if survey.isSpent spent then some (.error (.cancelled values.size), v)
    else do
      let v ← valuation? survey position
      let (value, cost) := p.formula.measure Parsed.meter v
      let next ← add? position 1
      visit? p survey remaining next (spent + cost) (values.push value) v

/-- The answer of an enumeration and the values that it leaves behind. -/
def enumerate? (p : Parsed) (columns : List Symbol) (direction : Direction) (limit : Option Nat)
    (v : Valuation) : Option (Except TableError TruthTable × Valuation) :=
  match p.refusal? columns with
  | some e => some (.error e, v)
  | none => do
    let names := columns.map Symbol.name
    let rows ← shiftLeft? 1 columns.length
    let (result, v) ← visit? p ⟨names, direction, rows, limit, v⟩ rows.toNat 0 0 #[] v
    return (result.map fun values => ⟨names, p.formula.render .algebraic, direction, values⟩, v)

private theorem mapM_eq_some_of_forall {α β : Type} {f : α → Option β} {g : α → β} {l : List α}
    (h : ∀ a ∈ l, f a = some (g a)) : l.mapM f = some (l.map g) := by
  induction l with
  | nil => rfl
  | cons a l ih =>
    obtain ⟨ha, hl⟩ := List.forall_mem_cons.1 h
    rw [List.mapM_cons, ha, ih hl]
    rfl

section Row

variable {row : Row}

/-- No column is further from the last one than a word can be shifted. -/
private theorem bit?_of_lt (hwidth : row.width ≤ 32) {column : Nat} (hcolumn : column < row.width) :
    bit? row column = some (row.bit column) := by
  have hlast : Nat.psub row.width 1 = some (row.width - 1) := Nat.psub_eq_sub (by omega)
  have hdistance : Nat.psub (row.width - 1) column = some (row.width - 1 - column) :=
    Nat.psub_eq_sub (by omega)
  have hword : (row.width - 1 - column).toUInt32.toNat = row.width - 1 - column :=
    UInt32.toNat_ofNat_of_lt' (by simp only [UInt32.size]; omega)
  have hshift : shiftRight? row.index (row.width - 1 - column) =
      some (row.index >>> (row.width - 1 - column).toUInt32) := by
    refine shiftRight?_eq_some_iff.2 ⟨by omega, ?_⟩
    rw [UInt32.toNat_shiftRight, hword, Nat.mod_eq_of_lt (by omega), Nat.shiftRight_eq_div_pow]
  simp only [bit?, hlast, hdistance, hshift, Option.bind_eq_bind, Option.bind_some]
  rfl

private theorem bits?_eq (hwidth : row.width ≤ 32) : bits? row = some row.bits :=
  mapM_eq_some_of_forall fun _ hcolumn => bit?_of_lt hwidth (List.mem_range.1 hcolumn)

private theorem assignment?_eq (hwidth : row.width ≤ 32) (column : Nat) :
    assignment? row column = some (row.assignment? column) := by
  unfold assignment? Row.assignment?
  split
  · rename_i hcolumn
    rw [bit?_of_lt hwidth hcolumn, Option.map_some]
  · rfl

end Row

section Position

variable {position rows : UInt32}

private theorem toNat_index (direction : Direction) (h : position < rows) :
    (direction.index position rows).toNat = direction.place rows.toNat position.toNat := by
  have hlt := UInt32.lt_iff_toNat_lt.1 h
  have hindex := direction.index_eq_place hlt
  simp only [Nat.toUInt32_eq, UInt32.ofNat_toNat] at hindex
  rw [hindex]
  exact UInt32.toNat_ofNat_of_lt' (Nat.lt_trans (direction.place_lt hlt) rows.toNat_lt)

private theorem index_lt (direction : Direction) (h : position < rows) :
    direction.index position rows < rows := by
  rw [UInt32.lt_iff_toNat_lt, toNat_index direction h]
  exact direction.place_lt (UInt32.lt_iff_toNat_lt.1 h)

private theorem index?_of_lt (direction : Direction) (h : position < rows) :
    index? direction position rows = some (direction.index position rows) := by
  cases direction with
  | ascending => rfl
  | descending =>
    have hlt := UInt32.lt_iff_toNat_lt.1 h
    have hlast : sub? rows 1 = some (rows - 1) := sub?_one_of_pos (by omega)
    have hindex : sub? (rows - 1) position = some (Direction.descending.index position rows) := by
      have hplace := toNat_index .descending h
      have hcount := sub?_eq_some_iff.1 hlast
      rw [UInt32.toNat_one] at hcount
      simp only [Direction.place] at hplace
      exact sub?_eq_some_iff.2 (by omega)
    simp only [index?, hlast, Option.bind_eq_bind, Option.bind_some, hindex]

/-- Behind the last position comes the number of rows, which is a word. -/
private theorem add?_one_of_lt (h : position < rows) : add? position 1 = some (position + 1) := by
  have hlt := UInt32.lt_iff_toNat_lt.1 h
  have hrows := rows.toNat_lt
  rw [add?_eq_some_iff, UInt32.toNat_add, UInt32.toNat_one]
  exact Nat.mod_eq_of_lt (by omega)

end Position

section Table

variable {t : TruthTable}

private theorem toNat_rowCount (hsize : t.values.size < 2 ^ 32) : t.rowCount.toNat = t.values.size :=
  UInt32.toNat_ofNat_of_lt' hsize

private theorem rowCount?_eq (hsize : t.values.size < 2 ^ 32) : rowCount? t = some t.rowCount := by
  rw [rowCount?, word?_eq_some_iff, toNat_rowCount hsize]

private theorem rowsFrom?_eq {rows position : UInt32} {values : List Bool}
    (h : position.toNat + values.length ≤ rows.toNat) :
    rowsFrom? t rows position values = some ((values.zipIdx position.toNat).map fun (value, position) =>
      ⟨t.direction.index position.toUInt32 rows, t.names.length, value⟩) := by
  induction values generalizing position with
  | nil => rfl
  | cons value rest ih =>
    rw [List.length_cons] at h
    have hlt : position < rows := UInt32.lt_iff_toNat_lt.2 (by omega)
    have hnext := add?_one_of_lt hlt
    have hcount : (position + 1).toNat = position.toNat + 1 := add?_eq_some_iff.1 hnext
    have hfits : (position + 1).toNat + rest.length ≤ rows.toNat := by omega
    have hrest := ih hfits
    rw [hcount] at hrest
    have hword : position.toNat.toUInt32 = position := UInt32.ofNat_toNat
    simp only [rowsFrom?, index?_of_lt t.direction hlt, hnext, hrest, Option.bind_eq_bind,
      Option.bind_some, Option.pure_def, List.zipIdx_cons, List.map_cons, hword]

private theorem rows?_eq (hsize : t.values.size < 2 ^ 32) : rows? t = some t.rows := by
  have hlength : (0 : UInt32).toNat + t.values.toList.length ≤ t.rowCount.toNat := by
    rw [toNat_rowCount hsize, Array.length_toList, UInt32.toNat_zero, Nat.zero_add]
  simp only [rows?, rowCount?_eq hsize, Option.bind_eq_bind, Option.bind_some, rowsFrom?_eq hlength]
  rfl

private theorem minterms?_eq (hsize : t.values.size < 2 ^ 32) : minterms? t = some t.minterms := by
  simp only [minterms?, rows?_eq hsize, Option.bind_eq_bind, Option.bind_some]
  rfl

private theorem width_of_mem_rows {row : Row} (h : row ∈ t.rows) : row.width = t.names.length := by
  obtain ⟨entry, -, rfl⟩ := List.mem_map.1 h
  rfl

private theorem index_lt_of_mem_rows (hsize : t.values.size < 2 ^ 32) {row : Row} (h : row ∈ t.rows) :
    row.index < t.rowCount := by
  obtain ⟨⟨value, position⟩, hentry, rfl⟩ := List.mem_map.1 h
  have hposition := List.snd_lt_of_mem_zipIdx hentry
  rw [Array.length_toList] at hposition
  have hword : position.toUInt32.toNat = position :=
    UInt32.toNat_ofNat_of_lt' (Nat.lt_trans hposition hsize)
  refine index_lt t.direction ?_
  rw [UInt32.lt_iff_toNat_lt, toNat_rowCount hsize, hword]
  exact hposition

/-- No row is behind the last one, from which its index is taken. -/
private theorem maxterms?_eq (hpos : 0 < t.values.size) (hsize : t.values.size < 2 ^ 32) :
    maxterms? t = some t.maxterms := by
  have hlast : sub? t.rowCount 1 = some (t.rowCount - 1) :=
    sub?_one_of_pos (by rwa [toNat_rowCount hsize])
  have hvisited : (t.rows.filter (!·.value)).mapM (fun row => sub? (t.rowCount - 1) row.index) =
      some ((t.rows.filter (!·.value)).map fun row => t.rowCount - 1 - row.index) := by
    refine mapM_eq_some_of_forall fun row hrow => sub?_of_le ?_
    have hlt := index_lt_of_mem_rows hsize (List.mem_filter.1 hrow).1
    have hcount := sub?_eq_some_iff.1 hlast
    rw [UInt32.lt_iff_toNat_lt] at hlt
    rw [UInt32.toNat_one] at hcount
    exact UInt32.le_iff_toNat_le.2 (by omega)
  simp only [maxterms?, rowCount?_eq hsize, hlast, rows?_eq hsize, Option.bind_eq_bind,
    Option.bind_some, hvisited]
  rfl

private theorem lt_rowCount_of_mem_minterms (hsize : t.values.size < 2 ^ 32) {k : UInt32}
    (h : k ∈ t.minterms) : k < t.rowCount := by
  have hvisited : k ∈ (t.rows.filter (·.value)).map Row.index := by
    unfold TruthTable.minterms at h
    split at h
    · exact h
    · exact List.mem_reverse.1 h
  obtain ⟨row, hrow, rfl⟩ := List.mem_map.1 hvisited
  exact index_lt_of_mem_rows hsize (List.mem_filter.1 hrow).1

private theorem lt_rowCount_of_mem_maxterms (hsize : t.values.size < 2 ^ 32) {k : UInt32}
    (h : k ∈ t.maxterms) : k < t.rowCount := by
  have hvisited : k ∈ (t.rows.filter (!·.value)).map fun row => t.rowCount - 1 - row.index := by
    unfold TruthTable.maxterms at h
    split at h
    · exact List.mem_reverse.1 h
    · exact h
  obtain ⟨row, hrow, rfl⟩ := List.mem_map.1 hvisited
  -- What counts a row from the last one is what visits the rows in descending order.
  exact index_lt .descending (index_lt_of_mem_rows hsize (List.mem_filter.1 hrow).1)

end Table

private theorem setRow?_eq (v : Valuation) (names : List String) (index : UInt32) :
    setRow? v names index = some (v.setRow names index) := by
  have hshift : ∀ word : UInt32, shiftRight? word 1 = some (word >>> 1) := by
    intro word
    refine shiftRight?_eq_some_iff.2 ⟨by decide, ?_⟩
    rw [UInt32.toNat_shiftRight, Nat.shiftRight_eq_div_pow]
    rfl
  have hfold : names.reverse.foldlM (fun ((v, index) : Valuation × UInt32) name =>
      some (v.set name (index &&& 1 == 1), index >>> 1)) (v, index) =
        some (names.reverse.foldl (fun (v, index) name =>
          (v.set name (index &&& 1 == 1), index >>> 1)) (v, index)) := List.foldlM_pure
  simp only [setRow?, hshift, Option.bind_eq_bind, Option.bind_some, Option.pure_def, hfold]
  rfl

private theorem valuation?_of_lt {survey : Parsed.Survey} {position : UInt32}
    (h : position < survey.rows) : valuation? survey position = some (survey.valuation position) := by
  simp only [valuation?, index?_of_lt survey.direction h, Option.bind_eq_bind, Option.bind_some,
    setRow?_eq]
  rfl

/-- The rows that remain do not go beyond the number of rows, which is a word. The induction is on these
    rows. -/
theorem visit?_eq (p : Parsed) {survey : Parsed.Survey} {remaining : Nat} {position : UInt32}
    (h : position.toNat + remaining ≤ survey.rows.toNat) (spent : Nat) (values : Array Bool)
    (v : Valuation) :
    visit? p survey remaining position spent values v =
      some (p.visit survey remaining position spent values v) := by
  induction remaining generalizing position spent values v with
  | zero => rfl
  | succ remaining ih =>
    have hlt : position < survey.rows := UInt32.lt_iff_toNat_lt.2 (by omega)
    have hnext := add?_one_of_lt hlt
    have hcount : (position + 1).toNat = position.toNat + 1 := add?_eq_some_iff.1 hnext
    rw [visit?, Parsed.visit]
    split
    · rfl
    · simp only [valuation?_of_lt hlt, hnext, Option.bind_eq_bind, Option.bind_some]
      exact ih (by omega) _ _ _

/-- A list of columns that is too long is refused before its rows are counted. All other lists have as
    many rows as a word can count. -/
theorem enumerate?_eq (p : Parsed) (columns : List Symbol) (direction : Direction)
    (limit : Option Nat) (v : Valuation) :
    enumerate? p columns direction limit v = some (p.enumerate columns direction limit v) := by
  unfold enumerate? Parsed.enumerate
  cases hrefusal : p.refusal? columns with
  | some e => rfl
  | none =>
    have hmax := (Parsed.refusal?_eq_none_iff.1 hrefusal).length_le
    have hrows : shiftLeft? 1 columns.length = some (1 <<< columns.length.toUInt32) := by
      refine shiftLeft?_one_eq_some_iff.2 ⟨hmax, ?_⟩
      rw [one_shiftLeft_eq hmax, toNat_toUInt32_of_le_two_pow hmax (Nat.le_refl _)]
    have hlength : (0 : UInt32).toNat + ((1 : UInt32) <<< columns.length.toUInt32).toNat ≤
        ((1 : UInt32) <<< columns.length.toUInt32).toNat := Nat.le_of_eq (Nat.zero_add _)
    simp only [hrows, Option.bind_eq_bind, Option.bind_some]
    rw [visit?_eq p hlength]
    rfl

end Checked

/-- What is known of a table of `n` columns: all that is read off it is the same by operations that are
    checked, and no index has more than `n` bits. -/
structure TruthTable.WithinWords (t : TruthTable) (n : Nat) : Prop where
  rowCount? : Checked.rowCount? t = some t.rowCount
  toNat_rowCount : t.rowCount.toNat = 2 ^ n
  rows? : Checked.rows? t = some t.rows
  length_rows : t.rows.length = 2 ^ n
  minterms? : Checked.minterms? t = some t.minterms
  maxterms? : Checked.maxterms? t = some t.maxterms
  bits? : ∀ row ∈ t.rows, Checked.bits? row = some row.bits
  bits_eq : ∀ row ∈ t.rows, row.bits = binary n row.index.toNat
  assignment? : ∀ row ∈ t.rows, ∀ column,
    Checked.assignment? row column = some (row.assignment? column)
  index_lt : ∀ row ∈ t.rows, row.index.toNat < 2 ^ n
  minterm_lt : ∀ k ∈ t.minterms, k.toNat < 2 ^ n
  maxterm_lt : ∀ k ∈ t.maxterms, k.toNat < 2 ^ n

private theorem TruthTable.withinWords {t : TruthTable} (hmax : t.names.length ≤ maxColumns)
    (hvalues : t.values.size = 2 ^ t.names.length) : t.WithinWords t.names.length := by
  have hpow : 2 ^ t.names.length ≤ 2 ^ 31 := Nat.pow_le_pow_right Nat.two_pos hmax
  have hpos : 0 < t.values.size := hvalues ▸ Nat.two_pow_pos _
  have hsize : t.values.size < 2 ^ 32 := by omega
  have hcount : t.rowCount.toNat = 2 ^ t.names.length := by
    rw [Checked.toNat_rowCount hsize, hvalues]
  have hwidth : ∀ row ∈ t.rows, row.width ≤ 32 := fun row hrow =>
    Checked.width_of_mem_rows hrow ▸ Nat.le_succ_of_le hmax
  have hbelow : ∀ {k : UInt32}, k < t.rowCount → k.toNat < 2 ^ t.names.length := fun hlt =>
    hcount ▸ UInt32.lt_iff_toNat_lt.1 hlt
  exact {
    rowCount? := Checked.rowCount?_eq hsize
    toNat_rowCount := hcount
    rows? := Checked.rows?_eq hsize
    length_rows := by simp [rows, hvalues]
    minterms? := Checked.minterms?_eq hsize
    maxterms? := Checked.maxterms?_eq hpos hsize
    bits? := fun row hrow => Checked.bits?_eq (hwidth row hrow)
    bits_eq := fun row hrow => by
      rw [Row.bits_eq_binary (hwidth row hrow), Checked.width_of_mem_rows hrow]
    assignment? := fun row hrow => Checked.assignment?_eq (hwidth row hrow)
    index_lt := fun row hrow => hbelow (Checked.index_lt_of_mem_rows hsize hrow)
    minterm_lt := fun k hk => hbelow (Checked.lt_rowCount_of_mem_minterms hsize hk)
    maxterm_lt := fun k hk => hbelow (Checked.lt_rowCount_of_mem_maxterms hsize hk) }

private theorem Row.assignment?_eq_getElem?_bits (row : Row) (column : Nat) :
    row.assignment? column = row.bits[column]? := by
  unfold assignment? bits
  split <;> simp_all

namespace Parsed

private theorem withinWords_table {names : List String} (hmax : names.length ≤ maxColumns) (p : Parsed)
    (direction : Direction) (v : Valuation) :
    (p.table names direction v).WithinWords names.length :=
  TruthTable.withinWords hmax (by simp [table])

/-- A flag leaves no table but the one that there is without it. -/
private theorem Admits.eq_table {p : Parsed} {columns : List Symbol} (h : p.Admits columns)
    {direction : Direction} {limit : Option Nat} {v : Valuation} {t : TruthTable}
    (ht : (p.enumerate columns direction limit v).1 = .ok t) :
    t = p.table (columns.map Symbol.name) direction v := by
  rw [enumerate_eq_outcome] at ht
  simp only [outcome, refusal?_eq_none_iff.2 h] at ht
  split at ht
  · cases ht
  · exact (Except.ok.inj ht).symm

/-- The loop over the rows, left after some of them. It has the values of these rows, and the names are
    set to the last of them. -/
theorem visit_eq_firstValues {names : List String} (hmax : names.length ≤ maxColumns) (p : Parsed)
    (direction : Direction) (v : Valuation) {k : Nat} (hk : k ≤ 2 ^ names.length) :
    p.visit ⟨names, direction, (2 ^ names.length).toUInt32, none, v⟩ k 0 0 #[] v =
      (.ok (p.firstValues names direction v k), v.afterRows names direction k) := by
  have hrows : 0 + k ≤ 2 ^ names.length := by rwa [Nat.zero_add]
  have hvisit := visit_eq_sweep (p := p) hmax direction none v hrows
  rw [Nat.zero_mul] at hvisit
  refine hvisit.trans ?_
  rw [sweep, ← List.range_eq_range', Flag.find?_isUp_none, Nat.zero_add]

/-- Left after a row, the loop has found its value last and has set the names to the bits that it
    reports. The index of the row is that of its position. -/
theorem exists_row_of_visit {names : List String} (hnames : names.Nodup)
    (hmax : names.length ≤ maxColumns) (p : Parsed) (direction : Direction) (v : Valuation) {k : Nat}
    (hk : k < 2 ^ names.length) :
    ∃ row values w, (p.table names direction v).rows[k]? = some row ∧
      row.index.toNat = direction.place (2 ^ names.length) k ∧
      Checked.visit? p ⟨names, direction, (2 ^ names.length).toUInt32, none, v⟩ (k + 1) 0 0 #[] v =
        some (.ok values, w) ∧
      values[k]? = some row.value ∧ names.map w = row.bits := by
  obtain ⟨row, hrow, hbits⟩ := p.exists_row_of_afterRows hnames hmax direction v hk
  have hrows : (0 : UInt32).toNat + (k + 1) ≤ (2 ^ names.length).toUInt32.toNat := by
    rw [toNat_toUInt32_of_le_two_pow hmax (Nat.le_refl _), UInt32.toNat_zero]
    omega
  refine ⟨row, p.firstValues names direction v (k + 1), v.afterRows names direction (k + 1), hrow, ?_, ?_,
    ?_, hbits⟩
  · obtain ⟨-, rfl⟩ := getElem?_rows_table_eq_some_iff.1 hrow
    exact toNat_index_row hmax p v (direction.place_lt hk)
  · rw [Checked.visit?_eq p hrows, visit_eq_firstValues hmax p direction v hk]
  · obtain ⟨-, rfl⟩ := getElem?_rows_table_eq_some_iff.1 hrow
    simp [firstValues, Parsed.row]

/-- No operation of an enumeration goes beyond the words, and none of those that read its table.
    Operations on integers that have no answer where the result is no word, or where a shift is as far
    as a word is wide, come to the same answers throughout. The loop over the rows, left after any of
    them, has found the value of that row last and has set the columns to the bits that the row reports. -/
theorem enumerate_within_words {M : Type → Type} [PrefixMap M] {d : Dialect M} {text : List Char}
    {p : Parsed} (hp : parseWith d text = .ok p) {columns : List Symbol}
    (hcolumns : p.refusal? columns = none) (direction : Direction) (v : Valuation) :
    (∀ limit, Checked.enumerate? p columns direction limit v =
        some (p.enumerate columns direction limit v)) ∧
      columns.length ≤ 31 ∧
      ∃ t, (p.enumerate columns direction none v).1 = .ok t ∧
        (∀ limit other, (p.enumerate columns direction limit v).1 = .ok other → other = t) ∧
        t.WithinWords columns.length ∧
        ∀ k < 2 ^ columns.length, ∃ row values w, t.rows[k]? = some row ∧
          row.index.toNat = direction.place (2 ^ columns.length) k ∧
          Checked.visit? p
            ⟨columns.map Symbol.name, direction, 1 <<< columns.length.toUInt32, none, v⟩
              (k + 1) 0 0 #[] v = some (.ok values, w) ∧
          values[k]? = some row.value ∧
          ∀ j, row.assignment? j = columns[j]?.map fun s => w s.name := by
  have hadmits := refusal?_eq_none_iff.1 hcolumns
  have hlength : columns.length = (columns.map Symbol.name).length := (List.length_map _).symm
  have hmax := hadmits.length_le
  refine ⟨fun limit => Checked.enumerate?_eq p columns direction limit v, hmax, _,
    enumerate_eq_ok_table hadmits direction v, fun limit other => hadmits.eq_table, ?_⟩
  rw [one_shiftLeft_eq hmax]
  rw [hlength] at hmax ⊢
  refine ⟨withinWords_table hmax p direction v, fun k hk => ?_⟩
  obtain ⟨row, values, w, hrow, hindex, hvisit, hvalue, hbits⟩ :=
    p.exists_row_of_visit (hadmits.nodup_names hp) hmax direction v hk
  refine ⟨row, values, w, hrow, hindex, hvisit, hvalue, fun j => ?_⟩
  rw [Row.assignment?_eq_getElem?_bits, ← hbits, List.map_map, List.getElem?_map]
  rfl

/-- As many names as a table has columns. -/
def letters : List String :=
  "abcdefghijklmnopqrstuvwxyzABCDE".toList.map String.singleton

/-- The letters as columns of their own disjunction, where the bars have the numbers in between. -/
def letterColumns : List Symbol :=
  letters.zipIdx.map fun (name, i) => ⟨name, 2 * i⟩

/-- In descending order the first row has the last index of all. Its bits are all set. -/
theorem enumerate_within_words_letters :
    ∃ p t, parse (String.intercalate "|" letters).toList = .ok p ∧
      p.refusal? letterColumns = none ∧ letterColumns.length = 31 ∧
      Checked.enumerate? p letterColumns .descending none Valuation.allFalse =
        some (p.enumerate letterColumns .descending none Valuation.allFalse) ∧
      (p.enumerate letterColumns .descending none Valuation.allFalse).1 = .ok t ∧
      t.rowCount.toNat = 2147483648 ∧ Checked.rows? t = some t.rows ∧
      (∃ row, t.rows[0]? = some row ∧ row.index.toNat = 2147483647 ∧
        row.bits = List.replicate 31 true) ∧
      ∃ row, t.rows[2147483647]? = some row ∧ row.index.toNat = 0 := by
  have hread : ((ParseState.start (String.intercalate "|" letters).toList).run
      Dialect.standard).toOption.any (fun f => ((ofFormula f).refusal? letterColumns).isNone) = true := by
    decide +kernel
  obtain ⟨f, hf, hnone⟩ := (Option.any_eq_true _ _).1 hread
  have hp : parse (String.intercalate "|" letters).toList = .ok (ofFormula f) :=
    parseWith_eq_ok_ofFormula_iff.2 hf
  have hcolumns := Option.isNone_iff_eq_none.1 hnone
  have hlength : letterColumns.length = 31 := by decide
  obtain ⟨hchecked, -, t, ht, -, hwithin, hrows⟩ :=
    enumerate_within_words hp hcolumns .descending Valuation.allFalse
  rw [hlength] at hwithin hrows
  obtain ⟨first, -, -, hfirst, hindex, -⟩ := hrows 0 (by decide)
  obtain ⟨last, -, -, hlast, hzero, -⟩ := hrows 2147483647 (by decide)
  have hbits : first.bits = List.replicate 31 true := by
    rw [hwithin.bits_eq first (List.mem_of_getElem? hfirst), hindex]
    exact binary_two_pow_sub_one 31
  exact ⟨_, t, hp, hcolumns, hlength, hchecked none, ht, hwithin.toNat_rowCount, hwithin.rows?,
    ⟨first, hfirst, hindex, hbits⟩, last, hlast, hzero⟩

end Parsed

end Sentential
