namespace Sentential

/-- A finite map from strings to values that is searched by the text ahead: of all keys that begin
    the text, the longest one answers. -/
class PrefixMap (M : Type → Type) where
  /-- Builds the map of a list of entries, where a later entry replaces an earlier one of its key. -/
  ofList {V : Type} : List (String × V) → M V
  /-- The longest key that begins the text, with its value. -/
  longest? {V : Type} : M V → List Char → Option (String × V)

namespace PrefixMap

variable {V : Type}

/-- The value stored under exactly this key. No longer key begins the key itself, so a search of its
    own characters finds it if anything does. -/
def get? {M : Type → Type} [PrefixMap M] (m : M V) (key : String) : Option V :=
  match longest? m key.toList with
  | some (found, value) => if found = key then some value else none
  | none => none

/-- Whether a key begins the text. -/
abbrev Begins (key : String) (text : List Char) : Prop :=
  key.toList <+: text

private theorem eq_append_of_prefix {a b : String} (h : a.toList <+: b.toList) :
    ∃ c, b = a ++ c := by
  obtain ⟨rest, hrest⟩ := h
  exact ⟨String.ofList rest, String.toList_inj.1 (by simp [← hrest])⟩

/-- A text has no fewer bytes than what it begins with. The longest key in characters is thus the
    longest in bytes. -/
theorem utf8ByteSize_le_of_prefix {a b : String} (h : a.toList <+: b.toList) :
    a.utf8ByteSize ≤ b.utf8ByteSize := by
  obtain ⟨c, rfl⟩ := eq_append_of_prefix h
  simp

private theorem eq_of_prefix_of_utf8ByteSize_le {a b : String} (h : a.toList <+: b.toList)
    (hsize : b.utf8ByteSize ≤ a.utf8ByteSize) : a = b := by
  obtain ⟨c, rfl⟩ := eq_append_of_prefix h
  have hzero : c.utf8ByteSize = 0 := by
    rw [String.utf8ByteSize_append] at hsize
    omega
  simp [String.utf8ByteSize_eq_zero_iff.1 hzero]

/-- Of the keys that begin one text, no two have the same number of bytes. There is one longest key at
    most. -/
theorem Begins.eq_of_utf8ByteSize_eq {a b : String} {text : List Char} (ha : Begins a text)
    (hb : Begins b text) (hsize : a.utf8ByteSize = b.utf8ByteSize) : a = b := by
  rcases List.prefix_or_prefix_of_prefix ha hb with h | h
  · exact eq_of_prefix_of_utf8ByteSize_le h (by omega)
  · exact (eq_of_prefix_of_utf8ByteSize_le h (by omega)).symm

/-- The value of the last entry that has this key. -/
def lastValue? (entries : List (String × V)) (key : String) : Option V :=
  entries.foldl (fun found entry => if entry.1 = key then some entry.2 else found) none

/-- The answer that a search owes: an entry whose key begins the text and is the longest in bytes
    among those, or none if no key begins the text. `holds` tells which entries there are. -/
def IsLongest (holds : String → V → Prop) (text : List Char) : Option (String × V) → Prop
  | none => ∀ key value, holds key value → ¬ Begins key text
  | some (key, value) =>
    holds key value ∧ Begins key text ∧
      ∀ other value, holds other value → Begins other text → other.utf8ByteSize ≤ key.utf8ByteSize

/-- What a search owes depends on nothing but the entries that there are. How they are stored plays no
    part. -/
theorem IsLongest.congr {holds other : String → V → Prop} {text : List Char}
    {result : Option (String × V)} (h : ∀ key value, holds key value ↔ other key value)
    (hlongest : IsLongest holds text result) : IsLongest other text result := by
  rcases result with _ | ⟨key, value⟩
  · exact fun k v hother => hlongest k v ((h k v).2 hother)
  · exact ⟨(h key value).1 hlongest.1, hlongest.2.1,
      fun k v hother => hlongest.2.2 k v ((h k v).2 hother)⟩

/-- A search owes one answer only, where no key has two values. Two lawful searches are compared by
    this. -/
theorem IsLongest.unique {holds : String → V → Prop} {text : List Char} {a b : Option (String × V)}
    (hfunctional : ∀ key v w, holds key v → holds key w → v = w) (ha : IsLongest holds text a)
    (hb : IsLongest holds text b) : a = b := by
  rcases a with _ | ⟨k, v⟩ <;> rcases b with _ | ⟨l, w⟩
  · rfl
  · exact absurd hb.2.1 (ha l w hb.1)
  · exact absurd ha.2.1 (hb k v ha.1)
  · have hkey : k = l := ha.2.1.eq_of_utf8ByteSize_eq hb.2.1
      (Nat.le_antisymm (hb.2.2 k v ha.1 ha.2.1) (ha.2.2 l w hb.1 hb.2.1))
    subst hkey
    rw [hfunctional k v w ha.1 hb.1]

/-- A map that is built by inserting entries one after the other holds the last entry of every key, if
    an insertion changes nothing but the value of its key. The maps share this induction. -/
theorem holds_foldl_iff {α : Type} (holds : α → String → V → Prop) (empty : α)
    (insert : α → String × V → α) (hempty : ∀ key value, ¬ holds empty key value)
    (hinsert : ∀ m entry key value,
      holds (insert m entry) key value ↔
        if entry.1 = key then entry.2 = value else holds m key value)
    (entries : List (String × V)) (key : String) (value : V) :
    holds (entries.foldl insert empty) key value ↔ lastValue? entries key = some value := by
  have generalized : ∀ (m : α) (found : Option V), (holds m key value ↔ found = some value) →
      (holds (entries.foldl insert m) key value ↔
        entries.foldl (fun found entry => if entry.1 = key then some entry.2 else found) found
          = some value) := by
    induction entries with
    | nil => exact fun m found h => h
    | cons entry rest ih =>
      intro m found h
      refine ih _ _ ?_
      rw [hinsert]
      by_cases hkey : entry.1 = key
      · simp [hkey]
      · simpa [hkey] using h
  exact generalized empty none (by simpa using hempty key value)

end PrefixMap

/-- A prefix map whose searches give the answers that they owe to the list of entries that it was
    built from. -/
class LawfulPrefixMap (M : Type → Type) [PrefixMap M] : Prop where
  isLongest_ofList {V : Type} (entries : List (String × V)) (text : List Char) :
    PrefixMap.IsLongest (fun key value => PrefixMap.lastValue? entries key = some value) text
      (PrefixMap.longest? (PrefixMap.ofList entries : M V) text)

end Sentential
