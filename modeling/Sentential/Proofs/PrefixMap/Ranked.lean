import Mathlib.Data.Finset.Card
import Mathlib.Data.List.Destutter
import Sentential.PrefixMap.Sorted
import Sentential.Proofs.Operator.Validated
import Sentential.Proofs.PrefixMap.Bytewise

namespace Sentential.PrefixMap

variable {V : Type}

/-- The order of keys in which longer ones come first, and keys of one length by their bytes. -/
def rank : String → String → Ordering :=
  compareLex (fun a b => compareOn String.utf8ByteSize b a) (compareOn fun key => bytes key.toList)

instance : Std.TransCmp rank :=
  have : Std.TransCmp (fun a b => compareOn String.utf8ByteSize b a) := Std.TransCmp.opposite
  inferInstanceAs (Std.TransCmp (compareLex _ _))

/-- No two keys stand at one place of the order. -/
instance : Std.LawfulEqCmp rank where
  eq_of_compare {a b} h := by
    obtain ⟨-, hbytes⟩ := compareLex_eq_eq.1 h
    exact String.toList_inj.1 (bytes_inj (Std.LawfulEqCmp.eq_of_compare hbytes))

private theorem utf8ByteSize_le_of_rank_eq_lt {a b : String} (h : rank a b = .lt) :
    b.utf8ByteSize ≤ a.utf8ByteSize := by
  apply Nat.isLE_compare.1
  have hthen : (compare b.utf8ByteSize a.utf8ByteSize).then (compare (bytes a.toList) (bytes b.toList))
      = .lt := h
  rcases Ordering.then_eq_lt.1 hthen with hlt | heq
  · rw [hlt]
    rfl
  · rw [heq.1]
    rfl

/-- Whether an entry may stand before another one in the order of their keys. -/
def ranksBefore (a b : String × V) : Bool :=
  (rank a.1 b.1).isLE

private theorem ranksBefore_trans (a b c : String × V) (hab : ranksBefore a b) (hbc : ranksBefore b c) :
    ranksBefore a c :=
  Std.TransCmp.isLE_trans hab hbc

private theorem ranksBefore_total (a b : String × V) : ranksBefore a b || ranksBefore b a := by
  unfold ranksBefore
  rw [@Std.OrientedCmp.eq_swap _ rank _ b.1 a.1]
  cases rank a.1 b.1 <;> rfl

/-- Sorting moves no entry past another one of its key, so the first one of a key stays the first. It
    needs that sorting is stable. -/
theorem find?_mergeSort (entries : List (String × V)) (key : String) :
    (entries.mergeSort ranksBefore).find? (·.1 = key) = entries.find? (·.1 = key) := by
  -- The entries of one key are sorted as they stand, so they stand in this order afterwards too.
  have hsorted : (entries.filter (·.1 = key)).Pairwise fun a b => ranksBefore a b = true := by
    refine List.pairwise_of_forall_mem_list fun a ha b hb => ?_
    have hkeys : a.1 = b.1 :=
      (of_decide_eq_true (List.mem_filter.1 ha).2).trans
        (of_decide_eq_true (List.mem_filter.1 hb).2).symm
    simp [ranksBefore, hkeys, Std.ReflCmp.compare_self]
  have hsublist : (entries.filter (·.1 = key)).Sublist
      ((entries.mergeSort ranksBefore).filter (·.1 = key)) := by
    have hfilter := (List.sublist_mergeSort ranksBefore_trans ranksBefore_total hsorted
      List.filter_sublist).filter (·.1 = key)
    simpa [List.filter_filter] using hfilter
  have hlength := ((List.mergeSort_perm entries ranksBefore).filter (·.1 = key)).length_eq
  rw [← List.head?_filter, ← List.head?_filter, hsublist.eq_of_length hlength.symm]

/-- Two entries of different keys. -/
def KeysDiffer (a b : String × V) : Prop :=
  a.1 ≠ b.1

instance : DecidableRel (KeysDiffer : String × V → String × V → Prop) :=
  fun a b => inferInstanceAs (Decidable (a.1 ≠ b.1))

/-- Behind a kept entry the further ones of its key go, and no search for a key sees it. -/
theorem find?_destutter' (entries : List (String × V)) (kept : String × V) (key : String) :
    (entries.destutter' KeysDiffer kept).find? (·.1 = key) =
      (kept :: entries).find? (·.1 = key) := by
  induction entries generalizing kept with
  | nil => rfl
  | cons next rest ih =>
    by_cases hdiffer : KeysDiffer kept next
    · rw [List.destutter'_cons_pos rest hdiffer, List.find?_cons, List.find?_cons, ih]
    · rw [List.destutter'_cons_neg rest hdiffer, ih]
      have hkeys : kept.1 = next.1 := not_not.1 hdiffer
      by_cases hkey : kept.1 = key
      · simp [hkey]
      · simp [hkey, ← hkeys]

private theorem find?_destutter (entries : List (String × V)) (key : String) :
    (entries.destutter KeysDiffer).find? (·.1 = key) = entries.find? (·.1 = key) := by
  cases entries with
  | nil => rfl
  | cons first rest => exact find?_destutter' rest first key

/-- The last entry of a key is the first one from the end. -/
private theorem lastValue?_eq_find?_reverse (entries : List (String × V)) (key : String) :
    lastValue? entries key = (entries.reverse.find? (·.1 = key)).map Prod.snd := by
  rw [lastValue?, List.foldl_eq_foldr_reverse]
  induction entries.reverse with
  | nil => rfl
  | cons entry rest ih =>
    rw [List.foldr_cons, ih]
    by_cases hkey : entry.1 = key <;> simp [hkey]

/-- The keys are those that have a last value. Keys that occur several times count once. -/
theorem mem_keys_iff {entries : List (String × V)} {key : String} :
    key ∈ entries.map Prod.fst ↔ ∃ value, lastValue? entries key = some value := by
  constructor
  · intro hkey
    obtain ⟨⟨key, value⟩, hmem, rfl⟩ := List.mem_map.1 hkey
    exact Option.isSome_iff_exists.1 (isSome_lastValue?_of_mem hmem)
  · rintro ⟨value, hvalue⟩
    exact List.mem_map_of_mem (mem_of_lastValue? hvalue)

namespace Sorted

/-- Entries of which the later come first, in the order of their keys, and of each key the first. -/
def ranking (entries : List (String × V)) : List (String × V) :=
  (entries.reverse.mergeSort ranksBefore).destutter KeysDiffer

private theorem pairwise_ranking (entries : List (String × V)) :
    (ranking entries).Pairwise fun a b => rank a.1 b.1 = .lt := by
  have hsorted : (ranking entries).Pairwise fun a b => ranksBefore a b = true :=
    (List.pairwise_mergeSort ranksBefore_trans ranksBefore_total entries.reverse).sublist
      (List.destutter_sublist _ _)
  have hdiffer : (ranking entries).IsChain KeysDiffer := List.isChain_destutter _ _
  have : Trans (fun a b : String × V => rank a.1 b.1 = .lt)
      (fun a b : String × V => rank a.1 b.1 = .lt) (fun a b : String × V => rank a.1 b.1 = .lt) :=
    ⟨Std.TransCmp.lt_trans⟩
  -- Neighbours differ, and so does what stands further apart in a sorted list.
  refine List.isChain_iff_pairwise.1 (List.isChain_iff_getElem.2 fun i hi => ?_)
  have hle := List.pairwise_iff_getElem.1 hsorted i (i + 1) (Nat.lt_of_succ_lt hi) hi i.lt_succ_self
  have hne := List.isChain_iff_getElem.1 hdiffer i hi
  cases hrank : rank (ranking entries)[i].1 (ranking entries)[i + 1].1 with
  | lt => rfl
  | eq => exact absurd (Std.LawfulEqCmp.eq_of_compare hrank) hne
  | gt => simp [ranksBefore, hrank] at hle

/-- Builds the map at once: the entries from the last to the first are sorted, and of neighbours with
    one key the first stays. -/
def ofRanking (entries : List (String × V)) : Sorted V where
  entries := ranking entries
  sorted := (pairwise_ranking entries).imp fun {a b} hlt =>
    ⟨utf8ByteSize_le_of_rank_eq_lt hlt, fun hkeys => by
      simp [hkeys, Std.ReflCmp.compare_self] at hlt⟩

private theorem nodup_keys (m : Sorted V) : (m.entries.map Prod.fst).Nodup :=
  List.pairwise_map.2 (m.sorted.imp fun hab => hab.2)

private theorem mem_entries_iff_find? (m : Sorted V) (key : String) (value : V) :
    (key, value) ∈ m.entries ↔ (m.entries.find? (·.1 = key)).map Prod.snd = some value := by
  constructor
  · intro hmem
    cases hfind : m.entries.find? (·.1 = key) with
    | none => simpa using List.find?_eq_none.1 hfind _ hmem
    | some entry =>
      have hkey : entry.1 = key := by simpa using List.find?_some hfind
      have hentry : entry = (key, value) :=
        List.inj_on_of_nodup_map m.nodup_keys (List.mem_of_find?_eq_some hfind) hmem hkey
      simp [hentry]
  · intro hfind
    obtain ⟨entry, hentry, hvalue⟩ := Option.map_eq_some_iff.1 hfind
    have hkey : entry.1 = key := by simpa using List.find?_some hentry
    have hpair : entry = (key, value) := Prod.ext hkey hvalue
    exact hpair ▸ List.mem_of_find?_eq_some hentry

/-- Of each key, ranking keeps the last value. Sorting the reversed entries brings it to the front of
    those with its key. -/
theorem mem_ofRanking_iff (entries : List (String × V)) (key : String) (value : V) :
    (key, value) ∈ (ofRanking entries).entries ↔ lastValue? entries key = some value := by
  rw [mem_entries_iff_find?, lastValue?_eq_find?_reverse]
  simp only [ofRanking, ranking, find?_destutter, find?_mergeSort]

/-- Of each key, insertions keep the last value. -/
theorem mem_ofList_iff (entries : List (String × V)) (key : String) (value : V) :
    (key, value) ∈ (ofList entries : Sorted V).entries ↔ lastValue? entries key = some value :=
  holds_foldl_iff (fun (m : Sorted V) key value => (key, value) ∈ m.entries) empty insert
    (by simp [empty]) (fun _ _ _ _ => mem_insert) entries key value

/-- A map that holds the last value of every key has as many entries as there are keys, however it was
    built. Its order has no say in its size. -/
theorem size_eq_card (m : Sorted V) {entries : List (String × V)}
    (hholds : ∀ key value, (key, value) ∈ m.entries ↔ lastValue? entries key = some value) :
    m.size = (entries.map Prod.fst).toFinset.card := by
  have hkeys : (m.entries.map Prod.fst).toFinset = (entries.map Prod.fst).toFinset := by
    ext key
    rw [List.mem_toFinset, List.mem_toFinset]
    constructor
    · intro hkey
      obtain ⟨⟨key, value⟩, hmem, rfl⟩ := List.mem_map.1 hkey
      exact mem_keys_iff.2 ⟨value, (hholds key value).1 hmem⟩
    · intro hkey
      obtain ⟨value, hvalue⟩ := mem_keys_iff.1 hkey
      exact List.mem_map_of_mem ((hholds key value).2 hvalue)
  rw [← hkeys, List.toFinset_card_of_nodup m.nodup_keys, List.length_map, size]

end Sorted

end Sentential.PrefixMap
