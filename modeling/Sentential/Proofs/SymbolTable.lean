import Mathlib.Data.String.Basic
import Sentential.Proofs.PrefixMap.Bytewise
import Sentential.SymbolTable

namespace Sentential

/-- The bytes of characters stand in the order of the characters, whatever follows them. -/
private theorem utf8EncodeChar_append_lt {c d : Char} (h : c < d) (x y : List UInt8) :
    String.utf8EncodeChar c ++ x < String.utf8EncodeChar d ++ y := by
  have hlt : c.val.toNat < d.val.toNat := UInt32.lt_iff_toNat_lt.1 h
  have hmax : d.val.toNat < 1114112 := by
    rcases d.valid with hlow | hhigh <;> omega
  have hbyte : ∀ n m : Nat, UInt8.ofNat n < UInt8.ofNat m ↔ n % 256 < m % 256 := by
    intro n m
    rw [UInt8.lt_iff_toNat_lt, UInt8.toNat_ofNat', UInt8.toNat_ofNat']
  have hsame : ∀ n m : Nat, UInt8.ofNat n = UInt8.ofNat m ↔ n % 256 = m % 256 := by
    intro n m
    rw [← UInt8.toNat_inj, UInt8.toNat_ofNat', UInt8.toNat_ofNat']
  unfold String.utf8EncodeChar
  generalize c.val.toNat = v at hlt
  generalize d.val.toNat = w at hlt hmax
  dsimp only
  -- Both numbers of bytes are split on; a character with more bytes than a later one is out of order.
  split_ifs
  all_goals simp only [List.cons_append, List.nil_append, List.cons_lt_cons_iff, hbyte, hsame]
  all_goals simp (disch := omega) only [Nat.mod_eq_of_lt]
  all_goals omega

namespace PrefixMap

/-- The order of texts is that of their bytes, so names can be sorted by either. In this encoding it is
    the order of the code points. -/
theorem bytes_lt_bytes {a b : List Char} (h : a < b) : bytes a < bytes b := by
  induction a generalizing b with
  | nil =>
    cases b with
    | nil => exact absurd h (List.lt_irrefl [])
    | cons d b =>
      obtain ⟨first, others, hd⟩ := List.exists_cons_of_ne_nil (String.utf8EncodeChar_ne_nil (c := d))
      rw [bytes, bytes, List.flatMap_cons, hd]
      exact List.nil_lt_cons _ _
  | cons c a ih =>
    cases b with
    | nil => exact absurd h (List.not_lt_nil _)
    | cons d b =>
      rw [bytes, bytes, List.flatMap_cons, List.flatMap_cons]
      rcases List.cons_lt_cons_iff.1 h with hlt | ⟨rfl, hrest⟩
      · exact utf8EncodeChar_append_lt hlt _ _
      · exact List.append_left_lt (ih hrest)

end PrefixMap

namespace Symbol

/-- A comparison that puts the given symbols in a strict total order. What it says of others does not
    matter. -/
structure TotalOn (compare : Symbol → Symbol → Ordering) (symbols : List Symbol) : Prop where
  eq_of_compare : ∀ a ∈ symbols, ∀ b ∈ symbols, compare a b = .eq → a = b
  swap : ∀ a ∈ symbols, ∀ b ∈ symbols, compare b a = (compare a b).swap
  trans : ∀ a ∈ symbols, ∀ b ∈ symbols, ∀ c ∈ symbols, compare a b = .lt → compare b c = .lt →
    compare a c = .lt

variable {compare : Symbol → Symbol → Ordering} {symbols : List Symbol}

/-- A strict total order and equality together are transitive on the given symbols. Sorting needs no
    more than this. -/
theorem TotalOn.isLE_trans (h : TotalOn compare symbols) {a b c : Symbol} (ha : a ∈ symbols)
    (hb : b ∈ symbols) (hc : c ∈ symbols) (hab : (compare a b).isLE = true)
    (hbc : (compare b c).isLE = true) : (compare a c).isLE = true := by
  cases hfirst : compare a b with
  | gt => simp [hfirst] at hab
  | eq =>
    obtain rfl := h.eq_of_compare a ha b hb hfirst
    exact hbc
  | lt =>
    cases hsecond : compare b c with
    | gt => simp [hsecond] at hbc
    | eq =>
      obtain rfl := h.eq_of_compare b hb c hc hsecond
      exact hab
    | lt => rw [h.trans a ha b hb c hc hfirst hsecond, Ordering.isLE_lt]

private theorem TotalOn.isLE_total (h : TotalOn compare symbols) {a b : Symbol} (ha : a ∈ symbols)
    (hb : b ∈ symbols) : ((compare a b).isLE || (compare b a).isLE) = true := by
  rw [h.swap a ha b hb]
  cases compare a b <;> rfl

/-- Sorting puts different symbols in strictly ascending order. The comparison need only be total on the
    symbols of the table. -/
theorem TotalOn.pairwise_mergeSort (h : TotalOn compare symbols) (hnodup : symbols.Nodup) :
    (symbols.mergeSort fun a b => (compare a b).isLE).Pairwise fun a b => compare a b = .lt := by
  -- The comparison is an order on the symbols of the list only, so the sort is lifted to these.
  have hattach : symbols.mergeSort (fun a b => (compare a b).isLE) =
      (symbols.attach.mergeSort fun a b => (compare a b).isLE).map Subtype.val := by
    rw [List.map_mergeSort (s := fun a b => (compare a b).isLE) (fun _ _ _ _ => rfl),
      List.attach_map_subtype_val]
  have hsorted : (symbols.mergeSort fun a b => (compare a b).isLE).Pairwise
      fun a b => (compare a b).isLE = true := by
    rw [hattach, List.pairwise_map]
    exact List.pairwise_mergeSort (fun ⟨_, ha⟩ ⟨_, hb⟩ ⟨_, hc⟩ => h.isLE_trans ha hb hc)
      (fun ⟨_, ha⟩ ⟨_, hb⟩ => h.isLE_total ha hb) symbols.attach
  have hperm := List.mergeSort_perm symbols fun a b => (compare a b).isLE
  refine (hsorted.and (hperm.nodup_iff.2 hnodup)).imp_of_mem fun {a b} ha hb hab => ?_
  cases hcompare : compare a b with
  | lt => rfl
  | eq => exact absurd (h.eq_of_compare a (hperm.mem_iff.1 ha) b (hperm.mem_iff.1 hb) hcompare) hab.2
  | gt => simp [hcompare] at hab

/-- The symbols have one listing in strictly ascending order. This is what makes the result of sorting
    independent of the way in which it is done. -/
theorem TotalOn.eq_of_perm (h : TotalOn compare symbols) {listing other : List Symbol}
    (hlisting : listing.Perm symbols) (hother : other.Perm symbols)
    (hsorted : listing.Pairwise fun a b => compare a b = .lt)
    (hsortedOther : other.Pairwise fun a b => compare a b = .lt) : listing = other := by
  refine List.Perm.eq_of_pairwise (fun a b ha hb hab hba => ?_) hsorted hsortedOther
    (hlisting.trans hother.symm)
  rw [h.swap a (hlisting.mem_iff.1 ha) b (hother.mem_iff.1 hb), hab] at hba
  cases hba

private theorem TotalOn.of_perm (h : TotalOn compare symbols) {entries : List Symbol}
    (hentries : entries.Perm symbols) : TotalOn compare entries where
  eq_of_compare a ha b hb := h.eq_of_compare a (hentries.mem_iff.1 ha) b (hentries.mem_iff.1 hb)
  swap a ha b hb := h.swap a (hentries.mem_iff.1 ha) b (hentries.mem_iff.1 hb)
  trans a ha b hb c hc :=
    h.trans a (hentries.mem_iff.1 ha) b (hentries.mem_iff.1 hb) c (hentries.mem_iff.1 hc)

/-- Sorting gives the same list, in whatever order the symbols were listed before. No stability is
    needed, because no two symbols compare equal. -/
theorem TotalOn.mergeSort_eq_of_perm (h : TotalOn compare symbols) (hnodup : symbols.Nodup)
    {entries : List Symbol} (hentries : entries.Perm symbols) :
    (entries.mergeSort fun a b => (compare a b).isLE) =
      symbols.mergeSort fun a b => (compare a b).isLE :=
  h.eq_of_perm ((List.mergeSort_perm _ _).trans hentries) (List.mergeSort_perm _ _)
    ((h.of_perm hentries).pairwise_mergeSort (hentries.nodup_iff.2 hnodup))
    (h.pairwise_mergeSort hnodup)

end Symbol

namespace SymbolTable

/-- Symbols with different names come in the order of the bytes of their names. The symbols of a text
    have different names. -/
theorem pairwise_ordered_name {table : SymbolTable} (hnodup : (table.symbols.map Symbol.name).Nodup) :
    (table.ordered .name).Pairwise fun a b =>
      PrefixMap.bytes a.name.toList < PrefixMap.bytes b.name.toList := by
  have hsorted : (table.ordered .name).Pairwise fun a b => a.name ≤ b.name := by
    refine (List.pairwise_mergeSort (fun a b c hab hbc => ?_) (fun a b => ?_) table.symbols).imp
      fun hle => of_decide_eq_true hle
    · exact decide_eq_true (String.le_trans (of_decide_eq_true hab) (of_decide_eq_true hbc))
    · simpa [SymbolOrder.le] using String.le_total a.name b.name
  have hperm : (table.ordered .name).Perm table.symbols := List.mergeSort_perm _ _
  have hdistinct : (table.ordered .name).Pairwise fun a b => a.name ≠ b.name :=
    List.pairwise_map.1 ((hperm.map Symbol.name).nodup_iff.2 hnodup)
  refine (hsorted.and hdistinct).imp fun ⟨hle, hne⟩ => ?_
  have hlt : ¬ _ ≤ _ := fun hge => hne (String.le_antisymm hle hge)
  exact PrefixMap.bytes_lt_bytes (String.lt_iff_toList_lt.1 (String.not_le.1 hlt))

end SymbolTable

end Sentential
