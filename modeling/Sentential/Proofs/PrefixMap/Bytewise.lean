import Sentential.PrefixMap.Basic

namespace Sentential

/-- A map from strings of bytes that can be cut down to the keys that begin in some way. -/
class ByteTrie (T : Type → Type) where
  empty {α : Type} : T α
  insert {α : Type} : T α → List UInt8 → α → T α
  get? {α : Type} : T α → List UInt8 → Option α
  /-- The part of the map whose keys begin with `front`. Keys stay as they are. -/
  subtrie {α : Type} : T α → (front : List UInt8) → T α
  isEmpty {α : Type} : T α → Bool

/-- What is asked of such a map: an insertion replaces the value of its key and no other, a lookup
    is exact, and a part holds exactly the entries whose key begins with its front. -/
class LawfulByteTrie (T : Type → Type) [ByteTrie T] : Prop where
  get?_empty {α : Type} (key : List UInt8) : ByteTrie.get? (ByteTrie.empty : T α) key = none
  get?_insert {α : Type} (t : T α) (key : List UInt8) (value : α) (other : List UInt8) :
    ByteTrie.get? (ByteTrie.insert t key value) other
      = if key = other then some value else ByteTrie.get? t other
  get?_subtrie {α : Type} (t : T α) (front key : List UInt8) :
    ByteTrie.get? (ByteTrie.subtrie t front) key
      = if front <+: key then ByteTrie.get? t key else none
  isEmpty_iff {α : Type} (t : T α) :
    ByteTrie.isEmpty t = true ↔ ∀ key, ByteTrie.get? t key = none

namespace ByteTrie

variable {T : Type → Type} [ByteTrie T] {α : Type}

/-- Follows bytes down a trie and keeps the last entry whose key ends on the way. `branch` holds the
    keys that begin with `front`, the bytes already followed. Where no key goes on with the next
    byte, the search ends early. -/
def descend (front : List UInt8) : List UInt8 → T α → Option α → Option α
  | [], _, found => found
  | byte :: ahead, branch, found =>
    let key := front ++ [byte]
    let branch := subtrie branch key
    if isEmpty branch then found
    else descend key ahead branch ((get? branch key).or found)

/-- The entry of the longest key that begins a path, or none if no key does. -/
def IsDeepest (t : T α) (path : List UInt8) : Option α → Prop
  | none => ∀ key entry, key <+: path → get? t key ≠ some entry
  | some found =>
    ∃ key, key <+: path ∧ get? t key = some found ∧
      ∀ other entry, other <+: path → get? t other = some entry → other.length ≤ key.length

/-- Where a longer path meets no further key, the deepest entry stays. -/
private theorem IsDeepest.of_prefix {t : T α} {front path : List UInt8} {found : Option α}
    (h : IsDeepest t front found) (hpath : front <+: path)
    (hfront : ∀ key entry, key <+: path → get? t key = some entry → key <+: front) :
    IsDeepest t path found := by
  cases found with
  | none => exact fun key entry hkey hget => h key entry (hfront key entry hkey hget) hget
  | some found =>
    obtain ⟨key, hkey, hfound, hmax⟩ := h
    exact ⟨key, hkey.trans hpath, hfound,
      fun other entry hother hget => hmax other entry (hfront other entry hother hget) hget⟩

/-- One more byte changes the deepest entry only if a key ends there. It is the step of the descent. -/
theorem IsDeepest.concat {t : T α} {front : List UInt8} {found : Option α}
    (h : IsDeepest t front found) (byte : UInt8) :
    IsDeepest t (front ++ [byte]) ((get? t (front ++ [byte])).or found) := by
  cases hend : get? t (front ++ [byte]) with
  | some entry => exact ⟨_, List.prefix_rfl, hend, fun other _ hother _ => hother.length_le⟩
  | none =>
    refine h.of_prefix (List.prefix_append _ _) fun key entry hkey hget => ?_
    rcases List.prefix_concat_iff.1 hkey with rfl | hkey
    · simp [hend] at hget
    · exact hkey

/-- Bytes that no key goes on with change nothing, so the search may end early. An empty branch is
    noticed without going on. -/
theorem IsDeepest.append_of_forall {t : T α} {front : List UInt8} {found : Option α}
    (h : IsDeepest t front found) {byte : UInt8} {ahead : List UInt8}
    (hnone : ∀ key, front ++ [byte] <+: key → get? t key = none) :
    IsDeepest t (front ++ byte :: ahead) found := by
  refine h.of_prefix (List.prefix_append _ _) fun key entry hkey hget => ?_
  have hpath : front ++ [byte] <+: front ++ byte :: ahead := ⟨ahead, by simp⟩
  rcases List.prefix_or_prefix_of_prefix hkey hpath with hshort | hlong
  · rcases List.prefix_concat_iff.1 hshort with rfl | hshort
    · simp [hnone _ List.prefix_rfl] at hget
    · exact hshort
  · simp [hnone key hlong] at hget

variable [LawfulByteTrie T]

/-- A descent finds the deepest entry on its way: every branch knows the keys that begin with the bytes
    already followed as the whole trie knows them. Only the laws of the trie are used. -/
theorem isDeepest_descend {t : T α} (front ahead : List UInt8) {branch : T α} {found : Option α}
    (hbranch : ∀ key, front <+: key → get? branch key = get? t key)
    (hfound : IsDeepest t front found) :
    IsDeepest t (front ++ ahead) (descend front ahead branch found) := by
  induction ahead generalizing front branch found with
  | nil => simpa [descend] using hfound
  | cons byte ahead ih =>
    have hsub : ∀ key, front ++ [byte] <+: key →
        get? (subtrie branch (front ++ [byte])) key = get? t key := by
      intro key hkey
      rw [LawfulByteTrie.get?_subtrie, if_pos hkey]
      exact hbranch key ((List.prefix_append _ _).trans hkey)
    simp only [descend]
    split
    · rename_i hempty
      refine hfound.append_of_forall fun key hkey => ?_
      rw [← hsub key hkey]
      exact (LawfulByteTrie.isEmpty_iff _).1 hempty key
    · have hstep := ih (front ++ [byte]) hsub (hfound.concat byte)
      rw [hsub _ List.prefix_rfl]
      simpa using hstep

end ByteTrie

/-- A byte trie as a plain list of entries. -/
structure ByteList (α : Type) where
  entries : List (List UInt8 × α)

namespace ByteList

instance : ByteTrie ByteList where
  empty := ⟨[]⟩
  insert t key value := ⟨(key, value) :: t.entries⟩
  get? t key := (t.entries.find? (·.1 = key)).map Prod.snd
  subtrie t front := ⟨t.entries.filter (front <+: ·.1)⟩
  isEmpty t := t.entries.isEmpty

/-- Among the entries below a front, a key is found if it begins that way. -/
private theorem find?_filter_prefix {α : Type} (entries : List (List UInt8 × α))
    (front key : List UInt8) :
    (entries.filter (front <+: ·.1)).find? (·.1 = key)
      = if front <+: key then entries.find? (·.1 = key) else none := by
  rw [List.find?_filter]
  by_cases hfront : front <+: key
  · rw [if_pos hfront]
    congr 1
    funext entry
    by_cases hkey : entry.1 = key <;> simp [hkey, hfront]
  · rw [if_neg hfront, List.find?_eq_none]
    intro entry _ h
    simp only [Bool.decide_and, Bool.and_eq_true, decide_eq_true_eq] at h
    exact hfront (h.2 ▸ h.1)

instance : LawfulByteTrie ByteList where
  get?_empty key := rfl
  get?_insert t key value other := by
    by_cases hkey : key = other <;> simp [ByteTrie.get?, ByteTrie.insert, hkey]
  get?_subtrie t front key := by
    simp only [ByteTrie.get?, ByteTrie.subtrie, find?_filter_prefix]
    split <;> rfl
  isEmpty_iff t := by
    obtain ⟨entries⟩ := t
    constructor
    · intro hempty key
      have hnil : entries = [] := by simpa [ByteTrie.isEmpty] using hempty
      simp [ByteTrie.get?, hnil]
    · intro hnone
      cases entries with
      | nil => rfl
      | cons entry rest => simpa [ByteTrie.get?] using hnone entry.1

end ByteList

namespace PrefixMap

/-- The UTF-8 bytes of a text. -/
def bytes (text : List Char) : List UInt8 :=
  text.flatMap String.utf8EncodeChar

/-- A text begins another one exactly if its bytes do: the bytes of no character begin those of another
    one. A search by bytes therefore never ends inside a character. -/
theorem bytes_prefix_bytes_iff {a b : List Char} : bytes a <+: bytes b ↔ a <+: b := by
  constructor
  · rintro ⟨rest, hrest⟩
    refine List.isPrefix_of_utf8Encode_append_eq_utf8Encode rest.toByteArray ?_
    simp only [List.utf8Encode, ← List.toByteArray_append]
    exact congrArg List.toByteArray hrest
  · rintro ⟨rest, rfl⟩
    exact ⟨bytes rest, by simp [bytes]⟩

/-- Texts with the same bytes are the same. A key is known by its place in the trie. -/
theorem bytes_inj {a b : List Char} (h : bytes a = bytes b) : a = b := by
  have hab : a <+: b := bytes_prefix_bytes_iff.1 (h ▸ List.prefix_rfl)
  have hba : b <+: a := bytes_prefix_bytes_iff.1 (h ▸ List.prefix_rfl)
  exact hab.eq_of_length_le hba.length_le

/-- A prefix map that keeps its entries in a byte trie, each at the bytes of its key. -/
structure Bytewise (T : Type → Type) [ByteTrie T] (V : Type) where
  tree : T (String × V)
  bytes_key : ∀ place entry, ByteTrie.get? tree place = some entry → bytes entry.1.toList = place

namespace Bytewise

variable {T : Type → Type} [ByteTrie T] {V : Type}

/-- Follows the bytes of the text down the trie, from the entry of the empty key on. -/
def longest? (m : Bytewise T V) (text : List Char) : Option (String × V) :=
  ByteTrie.descend [] (bytes text) (ByteTrie.subtrie m.tree []) (ByteTrie.get? m.tree [])

/-- Whether the map has this entry. -/
def Holds (m : Bytewise T V) (key : String) (value : V) : Prop :=
  ByteTrie.get? m.tree (bytes key.toList) = some (key, value)

variable [LawfulByteTrie T]

/-- The map without entries. -/
def empty : Bytewise T V where
  tree := ByteTrie.empty
  bytes_key place entry h := by simp [LawfulByteTrie.get?_empty] at h

/-- Adds an entry, in place of the one that had its key. -/
def insert (m : Bytewise T V) (entry : String × V) : Bytewise T V where
  tree := ByteTrie.insert m.tree (bytes entry.1.toList) entry
  bytes_key place e h := by
    rw [LawfulByteTrie.get?_insert] at h
    split at h
    · rename_i hplace
      obtain rfl := Option.some.inj h
      exact hplace
    · exact m.bytes_key place e h

instance : PrefixMap (Bytewise T) where
  ofList entries := entries.foldl insert empty
  longest? := longest?

/-- An insertion changes the value of its own key and of no other. -/
theorem holds_insert (m : Bytewise T V) (entry : String × V) (key : String) (value : V) :
    (m.insert entry).Holds key value ↔
      if entry.1 = key then entry.2 = value else m.Holds key value := by
  obtain ⟨k, v⟩ := entry
  simp only [Holds, insert, LawfulByteTrie.get?_insert]
  by_cases hkey : k = key
  · simp [hkey]
  · have hbytes : bytes k.toList ≠ bytes key.toList := fun h =>
      hkey (String.toList_inj.1 (bytes_inj h))
    simp [hkey, hbytes]

/-- The empty map holds nothing. The trie is only asked for its laws. -/
theorem not_holds_empty (key : String) (value : V) : ¬ (empty : Bytewise T V).Holds key value := by
  simp [Holds, empty, LawfulByteTrie.get?_empty]

private theorem isDeepest_longest? (m : Bytewise T V) (text : List Char) :
    ByteTrie.IsDeepest m.tree (bytes text) (m.longest? text) := by
  refine ByteTrie.isDeepest_descend [] (bytes text) (fun key hkey => ?_) ?_
  · rw [LawfulByteTrie.get?_subtrie, if_pos hkey]
  · cases hroot : ByteTrie.get? m.tree [] with
    | none =>
      intro key entry hkey hget
      rw [List.prefix_nil.1 hkey, hroot] at hget
      cases hget
    | some entry => exact ⟨[], List.prefix_rfl, hroot, fun other _ hother _ => hother.length_le⟩

/-- Following the bytes of a text down the trie finds the longest key that begins the text. The deepest
    entry on the way is the one with the longest place. -/
theorem isLongest_longest? (m : Bytewise T V) (text : List Char) :
    IsLongest m.Holds text (m.longest? text) := by
  have hdeepest := m.isDeepest_longest? text
  cases hfound : m.longest? text with
  | none =>
    rw [hfound] at hdeepest
    exact fun key value hholds hbegins =>
      hdeepest _ _ (bytes_prefix_bytes_iff.2 hbegins) hholds
  | some entry =>
    rw [hfound] at hdeepest
    obtain ⟨place, hplace, hentry, hmax⟩ := hdeepest
    obtain ⟨key, value⟩ := entry
    obtain rfl : bytes key.toList = place := m.bytes_key place _ hentry
    refine ⟨hentry, bytes_prefix_bytes_iff.1 hplace, fun other w hother hbegins => ?_⟩
    have hpath := bytes_prefix_bytes_iff.2 hbegins
    have hlength := hmax _ _ hpath hother
    exact utf8ByteSize_le_of_prefix
      (bytes_prefix_bytes_iff.1 (List.prefix_of_prefix_length_le hpath hplace hlength))

instance : LawfulPrefixMap (Bytewise T) where
  isLongest_ofList entries text :=
    (isLongest_longest? (entries.foldl insert empty) text).congr <|
      holds_foldl_iff Holds empty insert not_holds_empty holds_insert entries

end Bytewise

end PrefixMap

end Sentential
