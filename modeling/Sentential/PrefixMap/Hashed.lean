import Std.Data.HashMap
import Sentential.PrefixMap.Basic

namespace Sentential.PrefixMap

/-- A key that is hashed by a function of the user's choice. -/
structure HashedKey (hasher : String → UInt64) where
  text : String
  deriving DecidableEq

instance (hasher : String → UInt64) : Hashable (HashedKey hasher) :=
  ⟨fun key => hasher key.text⟩

/-- A hash table of the entries with the lengths that occur among the keys, longest first. Of one
    text there is at most one key of each length, so a search asks the table once per length. -/
structure Hashed (hasher : String → UInt64) (V : Type) where
  lengths : List Nat
  table : Std.HashMap (HashedKey hasher) V
  descending : lengths.Pairwise (· > ·)
  length_mem : ∀ (key : String) (value : V),
    table[(⟨key⟩ : HashedKey hasher)]? = some value → key.length ∈ lengths

namespace Hashed

variable {hasher : String → UInt64} {V : Type}

/-- The map without entries. -/
def empty : Hashed hasher V where
  lengths := []
  table := ∅
  descending := List.Pairwise.nil
  length_mem key value h := by simp at h

/-- Adds a length to a list of lengths that descends. -/
def insertLength (n : Nat) : List Nat → List Nat
  | [] => [n]
  | m :: rest =>
    if n < m then m :: insertLength n rest
    else if n = m then m :: rest
    else n :: m :: rest

/-- Adding a length adds it and no other. -/
private theorem mem_insertLength {n k : Nat} {lengths : List Nat} :
    k ∈ insertLength n lengths ↔ k = n ∨ k ∈ lengths := by
  induction lengths with
  | nil => simp [insertLength]
  | cons m rest ih =>
    unfold insertLength
    split
    · simp only [List.mem_cons, ih]
      constructor <;> rintro (h | h | h) <;> simp [h]
    · split
      · rename_i heq
        simp only [heq, List.mem_cons]
        constructor
        · exact Or.inr
        · rintro (h | h)
          · exact Or.inl h
          · exact h
      · simp

/-- The lengths stay in descending order, each of them once. -/
private theorem pairwise_insertLength {n : Nat} {lengths : List Nat} (h : lengths.Pairwise (· > ·)) :
    (insertLength n lengths).Pairwise (· > ·) := by
  induction lengths with
  | nil => simp [insertLength]
  | cons m rest ih =>
    obtain ⟨hhead, htail⟩ := List.pairwise_cons.1 h
    unfold insertLength
    split
    · refine List.pairwise_cons.2 ⟨fun k hk => ?_, ih htail⟩
      rcases mem_insertLength.1 hk with rfl | hk
      · assumption
      · exact hhead k hk
    · split
      · exact h
      · refine List.pairwise_cons.2 ⟨fun k hk => ?_, h⟩
        rcases List.mem_cons.1 hk with rfl | hk
        · omega
        · have := hhead k hk
          omega

/-- Adds an entry, in place of the one that had its key. -/
def insert (m : Hashed hasher V) (entry : String × V) : Hashed hasher V where
  lengths := insertLength entry.1.length m.lengths
  table := m.table.insert ⟨entry.1⟩ entry.2
  descending := pairwise_insertLength m.descending
  length_mem key value h := by
    rw [Std.HashMap.getElem?_insert] at h
    refine mem_insertLength.2 ?_
    split at h
    · rename_i hkey
      simp only [beq_iff_eq, HashedKey.mk.injEq] at hkey
      exact Or.inl (by rw [hkey])
    · exact Or.inr (m.length_mem key value h)

/-- Cuts the text at each length in turn, longest first, until the table knows the piece. -/
def longest? (m : Hashed hasher V) (text : List Char) : Option (String × V) :=
  m.lengths.findSome? fun n =>
    let key := String.ofList (text.take n)
    m.table[(⟨key⟩ : HashedKey hasher)]?.map (key, ·)

instance : PrefixMap (Hashed hasher) where
  ofList entries := entries.foldl insert empty
  longest? := longest?

/-- Whether the map has this entry. -/
def Holds (m : Hashed hasher V) (key : String) (value : V) : Prop :=
  m.table[(⟨key⟩ : HashedKey hasher)]? = some value

/-- An insertion changes the value of its own key and of no other. -/
theorem holds_insert (m : Hashed hasher V) (entry : String × V) (key : String) (value : V) :
    (m.insert entry).Holds key value ↔
      if entry.1 = key then entry.2 = value else m.Holds key value := by
  simp only [Holds, insert, Std.HashMap.getElem?_insert, beq_iff_eq, HashedKey.mk.injEq]
  split <;> simp

private theorem ofList_take_of_begins {key : String} {text : List Char} (h : Begins key text) :
    String.ofList (text.take key.length) = key := by
  rw [← String.length_toList, ← List.prefix_iff_eq_take.1 h, String.ofList_toList]

/-- Asking the table once for each length finds the longest key that begins the text. All lengths that
    occur are asked for, so no key is missed, and a shorter piece is asked for later. -/
theorem isLongest_longest? (m : Hashed hasher V) (text : List Char) :
    IsLongest m.Holds text (m.longest? text) := by
  cases hfind : m.longest? text with
  | none =>
    intro key value hholds hbegins
    have hnone := List.findSome?_eq_none_iff.1 hfind _ (m.length_mem key value hholds)
    rw [ofList_take_of_begins hbegins] at hnone
    simp only [Option.map_eq_none_iff] at hnone
    rw [Holds, hnone] at hholds
    cases hholds
  | some entry =>
    obtain ⟨key, value⟩ := entry
    obtain ⟨before, n, after, hlengths, hfound, hbefore⟩ := List.findSome?_eq_some_iff.1 hfind
    obtain ⟨v, hv, heq⟩ := Option.map_eq_some_iff.1 hfound
    obtain ⟨rfl, rfl⟩ := Prod.mk.inj heq
    refine ⟨hv, by simp [Begins, List.take_prefix], fun other w hother hbegins => ?_⟩
    have hmem := m.length_mem other w hother
    have hdescending := m.descending
    rw [hlengths] at hmem hdescending
    have hafter := (List.pairwise_cons.1 (List.pairwise_append.1 hdescending).2.1).1
    have hle : other.length ≤ n := by
      rcases List.mem_append.1 hmem with hmem | hmem
      · have hnone := hbefore _ hmem
        rw [ofList_take_of_begins hbegins] at hnone
        simp only [Option.map_eq_none_iff] at hnone
        rw [Holds, hnone] at hother
        cases hother
      · rcases List.mem_cons.1 hmem with h | h
        · exact Nat.le_of_eq h
        · exact Nat.le_of_lt (hafter _ h)
    refine utf8ByteSize_le_of_prefix ?_
    rw [String.toList_ofList, List.prefix_iff_eq_take.1 hbegins]
    exact List.take_prefix_take_left hle

instance : LawfulPrefixMap (Hashed hasher) where
  isLongest_ofList entries text :=
    (isLongest_longest? (entries.foldl insert empty) text).congr <|
      holds_foldl_iff Holds empty insert (by simp [Holds, empty]) holds_insert entries

end Hashed

/-- The FNV-1a hash of the UTF-8 bytes of a string. -/
def fnv1a (s : String) : UInt64 :=
  s.toUTF8.foldl (fun h byte => (h ^^^ byte.toUInt64) * 0x100000001B3) 0xCBF29CE484222325

end Sentential.PrefixMap
