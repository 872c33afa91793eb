import Sentential.PrefixMap.Basic

namespace Sentential.PrefixMap

/-- Two entries in the order of a sorted map: the key of the first is no shorter, and another key. -/
def Precedes {V : Type} (a b : String × V) : Prop :=
  b.1.utf8ByteSize ≤ a.1.utf8ByteSize ∧ a.1 ≠ b.1

/-- Entries with distinct keys, longest key first, so that the first key that begins a text is the
    longest one. -/
structure Sorted (V : Type) where
  entries : List (String × V)
  sorted : entries.Pairwise Precedes

namespace Sorted

variable {V : Type}

/-- The map without entries. -/
def empty : Sorted V :=
  ⟨[], List.Pairwise.nil⟩

/-- The number of keys. -/
def size (m : Sorted V) : Nat :=
  m.entries.length

/-- Whether there are no keys. -/
def isEmpty (m : Sorted V) : Bool :=
  m.entries.isEmpty

/-- Puts an entry behind those whose key is no shorter. -/
def place (entry : String × V) : List (String × V) → List (String × V)
  | [] => [entry]
  | e :: rest =>
    if entry.1.utf8ByteSize ≤ e.1.utf8ByteSize then e :: place entry rest else entry :: e :: rest

/-- Placing an entry adds it and no other. -/
private theorem mem_place {entry e : String × V} {entries : List (String × V)} :
    e ∈ place entry entries ↔ e = entry ∨ e ∈ entries := by
  induction entries with
  | nil => simp [place]
  | cons a rest ih =>
    unfold place
    split
    · simp only [List.mem_cons, ih]
      constructor <;> rintro (h | h | h) <;> simp [h]
    · simp

/-- The entries stay in order, as long as the key of the new one was not there. -/
private theorem pairwise_place {entry : String × V} {entries : List (String × V)}
    (hsorted : entries.Pairwise Precedes) (hfresh : ∀ e ∈ entries, e.1 ≠ entry.1) :
    (place entry entries).Pairwise Precedes := by
  induction entries with
  | nil => simp [place]
  | cons a rest ih =>
    obtain ⟨hhead, htail⟩ := List.pairwise_cons.1 hsorted
    have hrest : ∀ e ∈ rest, e.1 ≠ entry.1 := fun e he => hfresh e (List.mem_cons_of_mem a he)
    unfold place
    split
    · rename_i hshorter
      refine List.pairwise_cons.2 ⟨fun e he => ?_, ih htail hrest⟩
      rcases mem_place.1 he with rfl | he
      · exact ⟨hshorter, hfresh a List.mem_cons_self⟩
      · exact hhead e he
    · rename_i hlonger
      refine List.pairwise_cons.2 ⟨fun e he => ?_, hsorted⟩
      refine ⟨?_, (hfresh e he).symm⟩
      rcases List.mem_cons.1 he with rfl | he
      · omega
      · have := (hhead e he).1
        omega

/-- Adds an entry, in place of the one that had its key. -/
def insert (m : Sorted V) (entry : String × V) : Sorted V where
  entries := place entry (m.entries.filter fun e => e.1 != entry.1)
  sorted := pairwise_place (m.sorted.filter _) fun e he => by simpa using (List.mem_filter.1 he).2

/-- Looks at the keys in order and takes the first one that begins the text. -/
def longest? (m : Sorted V) (text : List Char) : Option (String × V) :=
  m.entries.find? fun e => Begins e.1 text

instance : PrefixMap Sorted where
  ofList entries := entries.foldl insert empty
  longest? := longest?

/-- An insertion changes the value of its own key and of no other. The entry that had the key is
    dropped. -/
theorem mem_insert {m : Sorted V} {entry : String × V} {key : String} {value : V} :
    (key, value) ∈ (m.insert entry).entries ↔
      if entry.1 = key then entry.2 = value else (key, value) ∈ m.entries := by
  obtain ⟨k, v⟩ := entry
  simp only [insert, mem_place, List.mem_filter, Prod.mk.injEq, bne_iff_ne, ne_eq]
  split
  · rename_i hkey
    simp [hkey, eq_comm]
  · rename_i hkey
    have hother : key ≠ k := fun h => hkey h.symm
    simp [hother]

/-- The first key that begins the text is the longest one, because longer keys come before it. -/
theorem isLongest_longest? (m : Sorted V) (text : List Char) :
    IsLongest (fun key value => (key, value) ∈ m.entries) text (m.longest? text) := by
  cases hfind : m.longest? text with
  | none =>
    intro key value hmem hbegins
    have := List.find?_eq_none.1 hfind _ hmem
    simp [hbegins] at this
  | some entry =>
    obtain ⟨hbegins, before, after, hentries, hbefore⟩ := List.find?_eq_some_iff_append.1 hfind
    have hsorted := m.sorted
    rw [hentries] at hsorted
    have hafter := (List.pairwise_cons.1 (List.pairwise_append.1 hsorted).2.1).1
    refine ⟨by simp [hentries], by simpa using hbegins, fun other value hmem hother => ?_⟩
    rw [hentries, List.mem_append, List.mem_cons] at hmem
    rcases hmem with hmem | rfl | hmem
    · have := hbefore _ hmem
      simp [hother] at this
    · exact Nat.le_refl _
    · exact (hafter _ hmem).1

instance : LawfulPrefixMap Sorted where
  isLongest_ofList entries text :=
    (isLongest_longest? (entries.foldl insert empty) text).congr <|
      holds_foldl_iff (fun (m : Sorted _) key value => (key, value) ∈ m.entries) empty insert
        (by simp [empty]) (fun _ _ _ _ => mem_insert) entries

end Sorted

end Sentential.PrefixMap
