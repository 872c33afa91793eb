import Sentential.PrefixMap.Trie
import Sentential.Proofs.PrefixMap.Buckets
import Sentential.Proofs.PrefixMap.Ranked

namespace Sentential

namespace ByteTrie

variable {T : Type → Type} [ByteTrie T] {V : Type}

/-- Builds the trie by insertions, each value at the bytes of its key. -/
def ofList (entries : List (String × V)) : T V :=
  entries.foldl (fun t entry => insert t (PrefixMap.bytes entry.1.toList) entry.2) empty

/-- Follows bytes down a trie and keeps the last value whose key ends on the way, with the number of
    bytes followed up to there. -/
def follow (front : List UInt8) : List UInt8 → T V → Option (Nat × V) → Option (Nat × V)
  | [], _, found => found
  | byte :: ahead, branch, found =>
    let key := front ++ [byte]
    let branch := subtrie branch key
    if isEmpty branch then found
    else follow key ahead branch (((get? branch key).map (key.length, ·)).or found)

/-- Follows the bytes of the text, from the value of the empty key on. -/
def found? (t : T V) (text : List Char) : Option (Nat × V) :=
  follow [] (PrefixMap.bytes text) (subtrie t []) ((get? t []).map (0, ·))

/-- A trie of entries that each stand as deep as their keys are long. -/
def Placed (entries : T (String × V)) : Prop :=
  ∀ place entry, get? entries place = some entry → entry.1.utf8ByteSize = place.length

/-- A trie of values beside one of entries that has the same keys and values. -/
def ValuesOf (t : T V) (entries : T (String × V)) : Prop :=
  ∀ place, get? t place = (get? entries place).map Prod.snd

/-- The one trie tells the place of a value, and the other one the key that stands there. -/
private theorem ValuesOf.map_get?_eq {t : T V} {entries : T (String × V)} (h : ValuesOf t entries)
    (hplaced : Placed entries) (place : List UInt8) :
    (get? t place).map (place.length, ·) = (get? entries place).map PrefixMap.measured := by
  rw [h place]
  cases hget : get? entries place with
  | none => rfl
  | some entry => simp [PrefixMap.measured, hplaced place entry hget]

variable [LawfulByteTrie T]

/-- In a branch of the trie entries stand as deep as in the whole. Places are counted from the root. -/
theorem Placed.subtrie {entries : T (String × V)} (h : Placed entries) (front : List UInt8) :
    Placed (ByteTrie.subtrie entries front) := by
  intro place entry hget
  rw [LawfulByteTrie.get?_subtrie] at hget
  split at hget
  · exact h place entry hget
  · cases hget

/-- A branch has the values of the same branch with entries. -/
theorem ValuesOf.subtrie {t : T V} {entries : T (String × V)} (h : ValuesOf t entries)
    (front : List UInt8) : ValuesOf (ByteTrie.subtrie t front) (ByteTrie.subtrie entries front) := by
  intro place
  rw [LawfulByteTrie.get?_subtrie, LawfulByteTrie.get?_subtrie]
  split
  · exact h place
  · rfl

private theorem ValuesOf.isEmpty_eq {t : T V} {entries : T (String × V)} (h : ValuesOf t entries) :
    isEmpty t = isEmpty entries := by
  rw [Bool.eq_iff_iff, LawfulByteTrie.isEmpty_iff, LawfulByteTrie.isEmpty_iff]
  exact forall_congr' fun place => by rw [h place, Option.map_eq_none_iff]

/-- Two descents in step: the one counts the bytes of the key that the other one keeps. -/
theorem follow_eq_descend {branch : T V} {entries : T (String × V)}
    (hvalues : ValuesOf branch entries) (hplaced : Placed entries) (front ahead : List UInt8)
    (found : Option (String × V)) :
    follow front ahead branch (found.map PrefixMap.measured) =
      (descend front ahead entries found).map PrefixMap.measured := by
  induction ahead generalizing front branch entries found with
  | nil => rfl
  | cons byte ahead ih =>
    have hvalues' := hvalues.subtrie (front ++ [byte])
    have hplaced' := hplaced.subtrie (front ++ [byte])
    simp only [follow, descend, hvalues'.isEmpty_eq]
    split
    · rfl
    · rw [hvalues'.map_get?_eq hplaced', ← Option.map_or]
      exact ih hvalues' hplaced' _ _

private theorem valuesOf_ofList (entries : List (String × V)) :
    ValuesOf (ofList entries : T V) (PrefixMap.ofList entries : PrefixMap.Bytewise T V).tree := by
  refine List.foldl_rel (r := fun (t : T V) (m : PrefixMap.Bytewise T V) => ValuesOf t m.tree)
    ?_ fun entry _ t m h place => ?_
  · intro place
    simp [PrefixMap.Bytewise.empty, LawfulByteTrie.get?_empty]
  · simp only [PrefixMap.Bytewise.insert, LawfulByteTrie.get?_insert]
    split
    · rfl
    · exact h place

end ByteTrie

namespace PrefixMap

variable {V : Type}

/-- The search of a prefix map for the size of the longest key that begins the text, and its
    value. -/
def found? {M : Type → Type} [PrefixMap M] (m : M V) (text : List Char) : Option (Nat × V) :=
  (longest? m text).map measured

/-- The value under exactly this key, which a search of the key itself finds if its answer has the
    size of the whole key. -/
def exactly? (search : List Char → Option (Nat × V)) (key : String) : Option V :=
  match search key.toList with
  | some (size, value) => if size = key.utf8ByteSize then some value else none
  | none => none

/-- What is owed to a list of entries by a search for the longest key. -/
structure Serves (entries : List (String × V)) (search : List Char → Option (Nat × V)) : Prop where
  eq_none_iff (text : List Char) :
    search text = none ↔ ∀ key ∈ entries.map Prod.fst, ¬ Begins key text
  /-- The answer is the greatest size of a key that begins the text, and the last value of the key. -/
  of_eq_some (text : List Char) (size : Nat) (value : V) : search text = some (size, value) →
    ∃ key ∈ entries.map Prod.fst, Begins key text ∧ key.utf8ByteSize = size ∧
      lastValue? entries key = some value ∧
      ∀ other ∈ entries.map Prod.fst, Begins other text → other.utf8ByteSize ≤ size
  /-- A character of the text ends at the size that is answered. -/
  isValid (text : List Char) (size : Nat) (value : V) : search text = some (size, value) →
    String.Pos.Raw.IsValid (String.ofList text) ⟨size⟩
  exactly?_eq_some_iff (key : String) (value : V) : exactly? search key = some value ↔
    key ∈ entries.map Prod.fst ∧ lastValue? entries key = some value

/-- A search that answers the measure of what is owed to the entries. -/
def Measures (entries : List (String × V)) (search : List Char → Option (Nat × V)) : Prop :=
  ∀ text, ∃ answer, IsLongest (fun key value => lastValue? entries key = some value) text answer ∧
    search text = answer.map measured

/-- What is owed fixes the whole search, so two searches that answer it are equal. How they go about it
    plays no part. -/
theorem Measures.unique {entries : List (String × V)} {a b : List Char → Option (Nat × V)}
    (ha : Measures entries a) (hb : Measures entries b) : a = b := by
  funext text
  obtain ⟨found, hfound, heq⟩ := ha text
  obtain ⟨other, hother, heq'⟩ := hb text
  have hfunctional : ∀ key v w, lastValue? entries key = some v → lastValue? entries key = some w →
      v = w := fun key v w hv hw => Option.some.inj (hv.symm.trans hw)
  rw [heq, heq', hfound.unique hfunctional hother]

/-- Searched in its own characters, a key is found before all shorter ones. A search for the longest key
    can therefore serve as a lookup. -/
theorem Measures.exactly?_eq {entries : List (String × V)} {search : List Char → Option (Nat × V)}
    (h : Measures entries search) (key : String) : exactly? search key = lastValue? entries key := by
  obtain ⟨answer, hlongest, hsearch⟩ := h key.toList
  have hself : Begins key key.toList := List.prefix_rfl
  unfold exactly?
  rw [hsearch]
  cases answer with
  | none =>
    cases hlast : lastValue? entries key with
    | none => rfl
    | some value => exact absurd hself (hlongest key value hlast)
  | some entry =>
    obtain ⟨found, value⟩ := entry
    obtain ⟨hvalue, hbegins, hmax⟩ := hlongest
    simp only [Option.map_some, measured]
    split
    · rename_i hsize
      obtain rfl := hbegins.eq_of_utf8ByteSize_eq hself hsize
      exact hvalue.symm
    · rename_i hsize
      cases hlast : lastValue? entries key with
      | none => rfl
      | some other =>
        have hle := hmax key other hlast hself
        have hge := utf8ByteSize_le_of_prefix hbegins
        exact absurd (Nat.le_antisymm hge hle) hsize

/-- What is answered is the measure of an entry, the longest one whose key begins the text. No answer is
    made up. -/
theorem Measures.exists_entry {entries : List (String × V)} {search : List Char → Option (Nat × V)}
    (h : Measures entries search) {text : List Char} {size : Nat} {value : V}
    (hfound : search text = some (size, value)) :
    ∃ key, key.utf8ByteSize = size ∧
      IsLongest (fun key value => lastValue? entries key = some value) text (some (key, value)) := by
  obtain ⟨answer, hlongest, hsearch⟩ := h text
  rw [hsearch] at hfound
  obtain ⟨⟨key, last⟩, rfl, hmeasured⟩ := Option.map_eq_some_iff.1 hfound
  obtain ⟨hsize, rfl⟩ := Prod.mk.inj hmeasured
  exact ⟨key, hsize, hlongest⟩

/-- Answering the measure of the longest entry is what is owed, in terms of keys and sizes. The other
    form says no more, as `Serves.measures` shows. -/
theorem Measures.serves {entries : List (String × V)} {search : List Char → Option (Nat × V)}
    (h : Measures entries search) : Serves entries search where
  eq_none_iff text := by
    obtain ⟨answer, hlongest, hsearch⟩ := h text
    rw [hsearch, Option.map_eq_none_iff]
    constructor
    · rintro rfl key hkey
      obtain ⟨value, hvalue⟩ := mem_keys_iff.1 hkey
      exact hlongest key value hvalue
    · intro hnone
      cases answer with
      | none => rfl
      | some entry => exact absurd hlongest.2.1 (hnone entry.1 (mem_keys_iff.2 ⟨_, hlongest.1⟩))
  of_eq_some text size value hfound := by
    obtain ⟨key, rfl, hvalue, hbegins, hmax⟩ := h.exists_entry hfound
    refine ⟨key, mem_keys_iff.2 ⟨_, hvalue⟩, hbegins, rfl, hvalue, fun other hother hbegins' => ?_⟩
    obtain ⟨w, hw⟩ := mem_keys_iff.1 hother
    exact hmax other w hw hbegins'
  isValid text size value hfound := by
    obtain ⟨key, rfl, -, ⟨rest, hrest⟩, -⟩ := h.exists_entry hfound
    refine String.Pos.Raw.isValid_iff_exists_append.2 ⟨key, String.ofList rest, ?_, rfl⟩
    rw [← hrest, String.ofList_append, String.ofList_toList]
  exactly?_eq_some_iff key value := by
    rw [h.exactly?_eq]
    exact ⟨fun hvalue => ⟨mem_keys_iff.2 ⟨value, hvalue⟩, hvalue⟩, fun hboth => hboth.2⟩

/-- A lawful map answers what is owed to its entries. The key that it finds is forgotten but for its
    size. -/
theorem measures_found? {M : Type → Type} [PrefixMap M] [LawfulPrefixMap M]
    (entries : List (String × V)) : Measures entries (found? (ofList entries : M V)) :=
  fun text => ⟨_, LawfulPrefixMap.isLongest_ofList entries text, rfl⟩

/-- The key that a lawful map finds is the whole text if its size is. Looking up a key is thus a search
    with a comparison of sizes. -/
theorem get?_eq_exactly? {M : Type → Type} [PrefixMap M] [LawfulPrefixMap M]
    (entries : List (String × V)) (key : String) :
    get? (ofList entries : M V) key = exactly? (found? (ofList entries : M V)) key := by
  have hlongest := LawfulPrefixMap.isLongest_ofList (M := M) entries key.toList
  unfold get? exactly? found?
  cases hfound : longest? (ofList entries : M V) key.toList with
  | none => rfl
  | some entry =>
    rw [hfound] at hlongest
    have hkey : entry.1 = key ↔ entry.1.utf8ByteSize = key.utf8ByteSize :=
      ⟨congrArg String.utf8ByteSize, hlongest.2.1.eq_of_utf8ByteSize_eq List.prefix_rfl⟩
    simp only [Option.map_some, measured, hkey]

private theorem measures_found?_ofRanking (entries : List (String × V)) :
    Measures entries (found? (Sorted.ofRanking entries)) := fun text =>
  ⟨_, ((Sorted.ofRanking entries).isLongest_longest? text).congr (Sorted.mem_ofRanking_iff entries),
    rfl⟩

/-- Hash tables for each size answer what is owed, with any hashers. Collisions slow a search down but
    do not change it. -/
theorem Buckets.measures_found? (hashers : Nat → String → UInt64) (entries : List (String × V)) :
    Measures entries (ofList entries : Buckets hashers V).found? := by
  intro text
  obtain ⟨answer, hlongest, hfound⟩ :=
    (ofList entries : Buckets hashers V).exists_isLongest_found? text
  exact ⟨answer, hlongest.congr (holds_ofList_iff entries), hfound⟩

private theorem length_bytes (text : List Char) :
    (bytes text).length = (String.ofList text).utf8ByteSize := by
  induction text with
  | nil => simp [bytes]
  | cons c rest ih =>
    rw [utf8ByteSize_ofList_cons, ← ih]
    simp [bytes, String.length_utf8EncodeChar]

private theorem placed_tree {T : Type → Type} [ByteTrie T] (m : Bytewise T V) :
    ByteTrie.Placed m.tree := by
  intro place entry hget
  rw [← m.bytes_key place entry hget, length_bytes, String.ofList_toList]

/-- The trie of values answers the measure of what the trie of entries answers. The walk that counts
    bytes and the walk that keeps keys go through the same branches. -/
theorem found?_ofList_eq (T : Type → Type) [ByteTrie T] [LawfulByteTrie T]
    (entries : List (String × V)) :
    ByteTrie.found? (ByteTrie.ofList entries : T V) = found? (ofList entries : Bytewise T V) := by
  have hvalues := ByteTrie.valuesOf_ofList (T := T) entries
  have hplaced := placed_tree (ofList entries : Bytewise T V)
  have hroot := hvalues.map_get?_eq hplaced []
  rw [List.length_nil] at hroot
  funext text
  rw [ByteTrie.found?, hroot]
  exact ByteTrie.follow_eq_descend (hvalues.subtrie []) (hplaced.subtrie []) [] (bytes text) _

/-- A prefix map that searches the text ahead and looks up a key as this search does. -/
def BehavesAs (M : Type → Type) [PrefixMap M] (entries : List (String × V))
    (search : List Char → Option (Nat × V)) : Prop :=
  found? (ofList entries : M V) = search ∧ get? (ofList entries : M V) = exactly? search

private theorem Measures.behavesAs {M : Type → Type} [PrefixMap M] [LawfulPrefixMap M]
    {entries : List (String × V)} {search : List Char → Option (Nat × V)}
    (h : Measures entries search) : BehavesAs M entries search := by
  obtain rfl := (measures_found? (M := M) entries).unique h
  exact ⟨rfl, funext (get?_eq_exactly? entries)⟩

/-- A ranked list, hash tables for each size with any hashers, and a byte trie, and likewise the three
    maps that insert one entry after the other, are one search for the longest key. The two lists have
    as many entries as there are keys, and all of them look up a key as they search for it. -/
theorem searches_agree (T : Type → Type) [ByteTrie T] [LawfulByteTrie T]
    (hashers : Nat → String → UInt64) (hasher : String → UInt64) (entries : List (String × V)) :
    ∃ search : List Char → Option (Nat × V), Serves entries search ∧
      found? (Sorted.ofRanking entries) = search ∧
      (Buckets.ofList entries : Buckets hashers V).found? = search ∧
      ByteTrie.found? (ByteTrie.ofList entries : T V) = search ∧
      BehavesAs Sorted entries search ∧ BehavesAs (Hashed hasher) entries search ∧
      BehavesAs Trie entries search ∧
      (Sorted.ofRanking entries).size = (entries.map Prod.fst).toFinset.card ∧
      (ofList entries : Sorted V).size = (entries.map Prod.fst).toFinset.card := by
  have hranking := measures_found?_ofRanking entries
  refine ⟨found? (Sorted.ofRanking entries), hranking.serves, rfl, ?_, ?_, hranking.behavesAs,
    hranking.behavesAs, hranking.behavesAs, ?_, ?_⟩
  · exact (Buckets.measures_found? hashers entries).unique hranking
  · rw [found?_ofList_eq]
    exact (measures_found? entries).unique hranking
  · exact Sorted.size_eq_card _ (Sorted.mem_ofRanking_iff entries)
  · exact Sorted.size_eq_card _ (Sorted.mem_ofList_iff entries)

/-- Two keys that overlap, one of them twice, the empty key and one of three bytes. All searches find
    the same. -/
theorem searches_agree_arrows :
    ∃ search : List Char → Option (Nat × Nat),
      let entries := [("<", 1), ("<->", 2), ("", 3), ("↑", 4), ("<->", 5)]
      Serves entries search ∧ found? (Sorted.ofRanking entries) = search ∧
      (Buckets.ofList entries : Buckets (fun _ => fnv1a) Nat).found? = search ∧
      ByteTrie.found? (ByteTrie.ofList entries : ByteList Nat) = search ∧
      search "<->a".toList = some (3, 5) ∧ search "<-a".toList = some (1, 1) ∧
      search "↑↑".toList = some (3, 4) ∧ search [] = some (0, 3) ∧ exactly? search "<-" = none ∧
      (Sorted.ofRanking entries).size = 4 := by
  obtain ⟨search, hserves, hranking, hbuckets, htrie, hsorted, -, -, hsize, -⟩ :=
    searches_agree ByteList (fun _ => fnv1a) fnv1a
      [("<", 1), ("<->", 2), ("", 3), ("↑", 4), ("<->", 5)]
  refine ⟨search, hserves, hranking, hbuckets, htrie, ?_, ?_, ?_, ?_, ?_, hsize⟩
  all_goals rw [← hsorted.1]; rfl

end PrefixMap

end Sentential
