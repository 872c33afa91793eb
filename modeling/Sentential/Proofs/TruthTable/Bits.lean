import Mathlib.Algebra.Group.Nat.Defs
import Sentential.Proofs.TruthTable.Columns

namespace Sentential

/-- The last `n` bits of a number, the most significant one first. -/
def binary (n i : Nat) : List Bool :=
  (List.range n).map fun j => i.testBit (n - 1 - j)

/-- There are as many bits as were asked for. -/
@[simp] theorem length_binary (n i : Nat) : (binary n i).length = n := by
  simp [binary]

private theorem binary_succ (n i : Nat) : binary (n + 1) i = i.testBit n :: binary n i := by
  rw [binary, List.range_succ_eq_map, List.map_cons, List.map_map, binary]
  refine congrArg₂ _ rfl (List.map_congr_left fun j _ => ?_)
  simp only [Function.comp_apply]
  congr 1
  omega

private theorem getElem?_binary {n j : Nat} (h : j < n) (i : Nat) :
    (binary n i)[j]? = some (i.testBit (n - 1 - j)) := by
  simp [binary, h]

/-- Numbers that fit are told apart by their bits. Two rows of a table therefore never show the same
    bits. -/
theorem binary_injective {n i k : Nat} (hi : i < 2 ^ n) (hk : k < 2 ^ n)
    (h : binary n i = binary n k) : i = k := by
  refine Nat.eq_of_testBit_eq fun j => ?_
  by_cases hj : j < n
  · have hplace : n - 1 - (n - 1 - j) = j := by omega
    have hbit := congrArg (·[n - 1 - j]?) h
    simp only [getElem?_binary (show n - 1 - j < n by omega), Option.some.injEq, hplace] at hbit
    exact hbit
  · have hpow : 2 ^ n ≤ 2 ^ j := Nat.pow_le_pow_right Nat.two_pos (Nat.not_lt.1 hj)
    rw [Nat.testBit_lt_two_pow (by omega), Nat.testBit_lt_two_pow (by omega)]

private theorem binary_two_pow_mul_add {n i : Nat} (h : i < 2 ^ n) (k : Nat) :
    binary n (2 ^ n * k + i) = binary n i := by
  refine List.map_congr_left fun j hj => ?_
  have hlt : n - 1 - j < n := by
    have := List.mem_range.1 hj
    omega
  rw [Nat.testBit_two_pow_mul_add k h, if_pos hlt]

/-- Every list of bits is that of a number that fits. No assignment is missing in a table. -/
theorem exists_binary_eq (bits : List Bool) : ∃ i < 2 ^ bits.length, binary bits.length i = bits := by
  induction bits with
  | nil => exact ⟨0, by decide, rfl⟩
  | cons bit rest ih =>
    obtain ⟨i, hi, hbits⟩ := ih
    refine ⟨2 ^ rest.length * bit.toNat + i, ?_, ?_⟩
    · have hpow : 2 ^ (bit :: rest).length = 2 ^ rest.length * 2 := Nat.pow_succ 2 rest.length
      cases bit with
      | false => simp only [Bool.toNat_false]; omega
      | true => simp only [Bool.toNat_true]; omega
    · have hfirst : (2 ^ rest.length * bit.toNat + i).testBit rest.length = bit := by
        rw [Nat.testBit_two_pow_mul_add _ hi, if_neg (Nat.lt_irrefl _), Nat.sub_self]
        cases bit <;> rfl
      rw [List.length_cons, binary_succ, binary_two_pow_mul_add hi, hbits, hfirst]

/-- Counting from the other end flips every bit. This is why the maxterms of a table are numbered from
    its last row. -/
theorem binary_complement {n i : Nat} (h : i < 2 ^ n) :
    binary n (2 ^ n - 1 - i) = (binary n i).map not := by
  rw [binary, binary, List.map_map]
  refine List.map_congr_left fun j hj => ?_
  have hj := List.mem_range.1 hj
  rw [Nat.sub_sub, Nat.add_comm 1 i, Nat.testBit_two_pow_sub_succ h]
  have : n - 1 - j < n := by omega
  simp [this]

/-- The lowest bit that is left when a number is shifted to the right is the bit at the distance of the
    shift. -/
private theorem and_one_beq_one_eq_testBit {word : UInt32} {i k : Nat} (h : word.toNat = i >>> k) :
    (word &&& 1 == 1) = i.testBit k := by
  have hand : (word &&& 1).toNat = i / 2 ^ k % 2 := by
    rw [UInt32.toNat_and, h, Nat.shiftRight_eq_div_pow]
    exact Nat.and_one_is_mod _
  rw [Nat.testBit_eq_decide_div_mod_eq, Bool.eq_iff_iff, beq_iff_eq, decide_eq_true_iff,
    ← UInt32.toNat_inj, hand]
  rfl

/-- A row answers for its columns with the bits of its index, which has at most as many bits as a
    machine word. The first column has the most significant one. -/
theorem Row.bits_eq_binary {row : Row} (h : row.width ≤ 32) :
    row.bits = binary row.width row.index.toNat := by
  refine List.map_congr_left fun j hj => ?_
  have hj := List.mem_range.1 hj
  have hshift : (row.width - 1 - j).toUInt32.toNat % 32 = row.width - 1 - j := by
    have : (row.width - 1 - j).toUInt32.toNat = row.width - 1 - j :=
      UInt32.toNat_ofNat_of_lt' (by simp [UInt32.size]; omega)
    omega
  refine and_one_beq_one_eq_testBit ?_
  rw [UInt32.toNat_shiftRight, hshift]

namespace Valuation

/-- The names get the bits that a row with this index answers with. Setting them goes from the last name
    to the first, with the bits shifted out one by one. -/
theorem setRow_eq_assign (v : Valuation) (names : List String) (index : UInt32) :
    v.setRow names index = v.assign names (binary names.length index.toNat) := by
  -- The fold starts at the last name and drops a bit of the index with each name.
  have hfold : ∃ rest : UInt32, rest.toNat = index.toNat >>> names.length ∧
      names.reverse.foldl
        (fun (state : Valuation × UInt32) name =>
          (state.1.set name (state.2 &&& 1 == 1), state.2 >>> 1)) (v, index) =
        (v.assign names (binary names.length index.toNat), rest) := by
    induction names with
    | nil => exact ⟨index, rfl, rfl⟩
    | cons name names ih =>
      obtain ⟨rest, hrest, hfold⟩ := ih
      refine ⟨rest >>> 1, ?_, ?_⟩
      · rw [UInt32.toNat_shiftRight, hrest, ← Nat.shiftRight_add]
        rfl
      · rw [List.reverse_cons, List.foldl_append, hfold, List.length_cons, binary_succ, assign,
          ← and_one_beq_one_eq_testBit hrest]
        rfl
  obtain ⟨rest, -, hfold⟩ := hfold
  exact congrArg Prod.fst hfold

end Valuation

end Sentential
