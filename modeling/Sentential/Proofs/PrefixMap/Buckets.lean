import Mathlib.Logic.Function.Basic
import Sentential.PrefixMap.Hashed

namespace Sentential.PrefixMap

variable {V : Type}

/-- What a search tells of the entry that it found: the number of bytes of its key, and its value. -/
def measured (entry : String × V) : Nat × V :=
  (entry.1.utf8ByteSize, entry.2)

/-- The front of a text that takes up just this many bytes, if a character of it ends there. -/
def frontOfSize? : Nat → List Char → Option (List Char)
  | 0, _ => some []
  | _ + 1, [] => none
  | size + 1, c :: rest =>
    if c.utf8Size ≤ size + 1 then (frontOfSize? (size + 1 - c.utf8Size) rest).map (c :: ·) else none

/-- A text has the bytes of its first character and those of the rest. -/
theorem utf8ByteSize_ofList_cons (c : Char) (rest : List Char) :
    (String.ofList (c :: rest)).utf8ByteSize = c.utf8Size + (String.ofList rest).utf8ByteSize := by
  rw [String.ofList_cons, String.utf8ByteSize_append, String.utf8ByteSize_singleton]

private theorem utf8ByteSize_ofList_eq_zero_iff {text : List Char} :
    (String.ofList text).utf8ByteSize = 0 ↔ text = [] := by
  cases text with
  | nil => simp
  | cons c rest =>
    have hpos := c.utf8Size_pos
    rw [utf8ByteSize_ofList_cons]
    simp only [reduceCtorEq, iff_false]
    omega

/-- The front of some size is the one front of the text that takes up so many bytes. There is none where
    a character would be cut. -/
theorem frontOfSize?_eq_some_iff {size : Nat} {text front : List Char} :
    frontOfSize? size text = some front ↔
      front <+: text ∧ (String.ofList front).utf8ByteSize = size := by
  fun_induction frontOfSize? size text generalizing front with
  | case1 text =>
    rw [utf8ByteSize_ofList_eq_zero_iff]
    constructor
    · rintro ⟨⟩
      exact ⟨List.nil_prefix, rfl⟩
    · rintro ⟨-, rfl⟩
      rfl
  | case2 size =>
    simp only [reduceCtorEq, List.prefix_nil, false_iff]
    rintro ⟨rfl, hsize⟩
    simp at hsize
  | case3 c rest size hfits ih =>
    cases front with
    | nil => simp
    | cons d front =>
      simp only [Option.map_eq_some_iff, ih, List.cons.injEq, List.cons_prefix_cons,
        utf8ByteSize_ofList_cons]
      constructor
      · rintro ⟨front, ⟨hahead, hsize⟩, rfl, rfl⟩
        exact ⟨⟨rfl, hahead⟩, by omega⟩
      · rintro ⟨⟨rfl, hahead⟩, hsize⟩
        exact ⟨front, ⟨hahead, by omega⟩, rfl, rfl⟩
  | case4 c rest size hlarge =>
    simp only [reduceCtorEq, false_iff]
    rintro ⟨hahead, hsize⟩
    cases front with
    | nil => simp at hsize
    | cons d front =>
      obtain ⟨rfl, -⟩ := List.cons_prefix_cons.1 hahead
      rw [utf8ByteSize_ofList_cons] at hsize
      omega

private theorem frontOfSize?_of_begins {key : String} {text : List Char} (h : Begins key text) :
    frontOfSize? key.utf8ByteSize text = some key.toList :=
  frontOfSize?_eq_some_iff.2 ⟨h, by rw [String.ofList_toList]⟩

/-- Hash tables that each hold the keys of one size, with a hasher of their own. -/
structure Buckets (hashers : Nat → String → UInt64) (V : Type) where
  /-- The number of tables in use. -/
  count : Nat
  table : (size : Nat) → Std.HashMap (HashedKey (hashers size)) V
  size_lt : ∀ (key : String) (value : V),
    (table key.utf8ByteSize)[(⟨key⟩ : HashedKey (hashers key.utf8ByteSize))]? = some value →
      key.utf8ByteSize < count

namespace Buckets

variable {hashers : Nat → String → UInt64}

/-- Whether the map has this entry. -/
def Holds (m : Buckets hashers V) (key : String) (value : V) : Prop :=
  (m.table key.utf8ByteSize)[(⟨key⟩ : HashedKey (hashers key.utf8ByteSize))]? = some value

/-- The map without tables. -/
def empty : Buckets hashers V where
  count := 0
  table _ := ∅
  size_lt key value h := by simp at h

/-- The tables with one more entry in the one for the size of its key. -/
def tableWith (m : Buckets hashers V) (entry : String × V) :
    (size : Nat) → Std.HashMap (HashedKey (hashers size)) V :=
  Function.update m.table entry.1.utf8ByteSize
    ((m.table entry.1.utf8ByteSize).insert ⟨entry.1⟩ entry.2)

private theorem getElem?_tableWith (m : Buckets hashers V) (entry : String × V) (key : String) :
    (m.tableWith entry key.utf8ByteSize)[(⟨key⟩ : HashedKey (hashers key.utf8ByteSize))]? =
      if entry.1 = key then some entry.2
      else (m.table key.utf8ByteSize)[(⟨key⟩ : HashedKey (hashers key.utf8ByteSize))]? := by
  obtain ⟨added, value⟩ := entry
  unfold tableWith
  by_cases hsize : key.utf8ByteSize = added.utf8ByteSize
  · rw [hsize]
    rw [Function.update_self, Std.HashMap.getElem?_insert]
    simp
  · rw [Function.update_of_ne hsize, if_neg fun hkey => hsize (congrArg String.utf8ByteSize hkey.symm)]

/-- Adds an entry, in place of the one that had its key. Tables are added up to the size of the
    key. -/
def insert (m : Buckets hashers V) (entry : String × V) : Buckets hashers V where
  count := max m.count (entry.1.utf8ByteSize + 1)
  table := m.tableWith entry
  size_lt key value h := by
    rw [getElem?_tableWith] at h
    split at h
    · rename_i hkey
      rw [hkey]
      omega
    · have := m.size_lt key value h
      omega

/-- Builds the map by insertions, one entry after the other. -/
def ofList (entries : List (String × V)) : Buckets hashers V :=
  entries.foldl insert empty

/-- The sizes of which a key may begin the text. -/
def sizes (m : Buckets hashers V) (text : List Char) : List Nat :=
  List.range (min m.count ((String.ofList text).utf8ByteSize + 1))

/-- Asks one table for the front of the text that has its size. There is none if no character of the
    text ends there. -/
def probe (m : Buckets hashers V) (text : List Char) (size : Nat) : Option (Nat × V) :=
  (frontOfSize? size text).bind fun front =>
    (m.table size)[(⟨String.ofList front⟩ : HashedKey (hashers size))]?.map (size, ·)

/-- Asks the tables from the greatest size down. -/
def found? (m : Buckets hashers V) (text : List Char) : Option (Nat × V) :=
  (m.sizes text).reverse.findSome? (m.probe text)

/-- An insertion changes the value of its own key and of no other. -/
theorem holds_insert (m : Buckets hashers V) (entry : String × V) (key : String) (value : V) :
    (m.insert entry).Holds key value ↔
      if entry.1 = key then entry.2 = value else m.Holds key value := by
  simp only [Holds, insert, getElem?_tableWith]
  split <;> simp

/-- The tables hold the last value of every key. An entry is in the table of its size and in no other. -/
theorem holds_ofList_iff (entries : List (String × V)) (key : String) (value : V) :
    (ofList entries : Buckets hashers V).Holds key value ↔ lastValue? entries key = some value :=
  holds_foldl_iff Holds empty insert (by simp [Holds, empty]) holds_insert entries key value

/-- What a table answers for a text is an entry of its size whose key begins the text. -/
private theorem exists_of_probe_eq_some {m : Buckets hashers V} {text : List Char} {size : Nat}
    {answer : Nat × V} (h : m.probe text size = some answer) :
    ∃ key value, m.Holds key value ∧ Begins key text ∧ key.utf8ByteSize = size ∧
      answer = measured (key, value) := by
  obtain ⟨front, hfront, hfound⟩ := Option.bind_eq_some_iff.1 h
  obtain ⟨value, hvalue, rfl⟩ := Option.map_eq_some_iff.1 hfound
  obtain ⟨hahead, rfl⟩ := frontOfSize?_eq_some_iff.1 hfront
  exact ⟨String.ofList front, value, hvalue, by simpa [Begins] using hahead, rfl, rfl⟩

private theorem probe_of_holds {m : Buckets hashers V} {text : List Char} {key : String} {value : V}
    (hholds : m.Holds key value) (hbegins : Begins key text) :
    m.probe text key.utf8ByteSize = some (measured (key, value)) := by
  rw [probe, frontOfSize?_of_begins hbegins, Option.bind_some, String.ofList_toList, hholds]
  rfl

/-- A key that begins the text is no longer than it, so its table is asked. -/
private theorem mem_sizes {m : Buckets hashers V} {text : List Char} {key : String} {value : V}
    (hholds : m.Holds key value) (hbegins : Begins key text) :
    key.utf8ByteSize ∈ (m.sizes text).reverse := by
  have hcount := m.size_lt key value hholds
  have htext : key.utf8ByteSize ≤ (String.ofList text).utf8ByteSize :=
    utf8ByteSize_le_of_prefix (by simpa using hbegins)
  simp only [sizes, List.mem_reverse, List.mem_range]
  omega

/-- The search finds the longest key: a table that is asked later holds shorter keys. Hash values have
    no say in it. -/
theorem exists_isLongest_found? (m : Buckets hashers V) (text : List Char) :
    ∃ answer, IsLongest m.Holds text answer ∧ m.found? text = answer.map measured := by
  cases hfound : m.found? text with
  | none =>
    refine ⟨none, fun key value hholds hbegins => ?_, rfl⟩
    have hnone := List.findSome?_eq_none_iff.1 hfound _ (mem_sizes hholds hbegins)
    rw [probe_of_holds hholds hbegins] at hnone
    cases hnone
  | some answer =>
    obtain ⟨before, size, after, hsizes, hprobe, hbefore⟩ := List.findSome?_eq_some_iff.1 hfound
    obtain ⟨key, value, hholds, hbegins, rfl, rfl⟩ := exists_of_probe_eq_some hprobe
    refine ⟨some (key, value), ⟨hholds, hbegins, fun other w hother hbegins' => ?_⟩, rfl⟩
    -- A key that was asked for before would have been found, and one that comes later is shorter.
    have hdescending : (m.sizes text).reverse.Pairwise (· > ·) :=
      List.pairwise_reverse.2 List.pairwise_lt_range
    have hmem := mem_sizes hother hbegins'
    rw [hsizes] at hdescending hmem
    rcases List.mem_append.1 hmem with hearlier | hlater
    · have hnone := hbefore _ hearlier
      rw [probe_of_holds hother hbegins'] at hnone
      cases hnone
    · rcases List.mem_cons.1 hlater with hsame | hsmaller
      · exact Nat.le_of_eq hsame
      · have htail := (List.pairwise_append.1 hdescending).2.1
        exact Nat.le_of_lt ((List.pairwise_cons.1 htail).1 _ hsmaller)

end Buckets

end Sentential.PrefixMap
