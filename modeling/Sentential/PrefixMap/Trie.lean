import Sentential.PrefixMap.Basic

namespace Sentential.PrefixMap

/-- The branches below one point of a trie. A branch is taken by its character; it holds the entry
    whose key ends there, the branches below it and the branches beside it. -/
inductive Branches (V : Type) where
  | none
  | branch (c : Char) (entry : Option (String × V)) (below beside : Branches V)

namespace Branches

variable {V : Type}

/-- The single path that spells a key and ends in its entry. -/
def path (entry : String × V) (c : Char) : List Char → Branches V
  | [] => branch c (some entry) none none
  | next :: rest => branch c .none (path entry next rest) none

/-- Adds an entry at the end of the path that its key spells, in place of the one that was there. -/
def insert (entry : String × V) (c : Char) (rest : List Char) : Branches V → Branches V
  | none => path entry c rest
  | branch d found below beside =>
    if c = d then
      match rest with
      | [] => branch d (some entry) below beside
      | next :: rest => branch d found (below.insert entry next rest) beside
    else branch d found below (beside.insert entry c rest)

/-- Follows the text down the branches and answers the last entry met on the way, or `best` if there
    is none. -/
def search (best : Option (String × V)) : Branches V → List Char → Option (String × V)
  | none, _ => best
  | branch .., [] => best
  | branch d found below beside, c :: rest =>
    if c = d then below.search (found.or best) rest else beside.search best (c :: rest)

/-- The entry at the end of a path. -/
def entryAt? : Branches V → Char → List Char → Option (String × V)
  | none, _, _ => .none
  | branch d found below beside, c, rest =>
    if c = d then
      match rest with
      | [] => found
      | next :: rest => below.entryAt? next rest
    else beside.entryAt? c rest

/-- A new path leads to its own entry and to no other. -/
private theorem entryAt?_path (entry : String × V) (c d : Char) (rest other : List Char) :
    (path entry c rest).entryAt? d other
      = if c :: rest = d :: other then some entry else .none := by
  induction rest generalizing c d other with
  | nil =>
    unfold path entryAt?
    by_cases hcd : d = c
    · cases other <;> simp [hcd, entryAt?]
    · simp [hcd, Ne.symm hcd, entryAt?]
  | cons next rest ih =>
    unfold path entryAt?
    by_cases hcd : d = c
    · cases other with
      | nil => simp [hcd]
      | cons e other => simp [hcd, ih]
    · simp [hcd, Ne.symm hcd, entryAt?]

/-- An insertion changes the entry at the end of its own path and at no other place. -/
private theorem entryAt?_insert (entry : String × V) (c d : Char) (rest other : List Char)
    (b : Branches V) :
    (b.insert entry c rest).entryAt? d other
      = if c :: rest = d :: other then some entry else b.entryAt? d other := by
  induction b generalizing c d rest other with
  | none => simpa [insert, entryAt?] using entryAt?_path entry c d rest other
  | branch x found below beside ihBelow ihBeside =>
    unfold insert
    by_cases hcx : c = x
    · subst hcx
      cases rest with
      | nil =>
        by_cases hdc : d = c
        · cases other <;> simp [entryAt?, hdc]
        · simp [entryAt?, hdc, Ne.symm hdc]
      | cons next rest =>
        by_cases hdc : d = c
        · cases other <;> simp [entryAt?, hdc, ihBelow]
        · simp [entryAt?, hdc, Ne.symm hdc]
    · by_cases hdx : d = x
      · have hcd : c ≠ d := fun h => hcx (h.trans hdx)
        simp [entryAt?, hcx, hdx]
      · simp [entryAt?, hcx, hdx, ihBeside]

/-- A search ends with `best` only if no path along the text has an entry. Otherwise it ends with the
    entry of the longest such path. -/
theorem search_cases (best : Option (String × V)) (b : Branches V) (text : List Char) :
    (b.search best text = best ∧
        ∀ c rest, c :: rest <+: text → b.entryAt? c rest = .none) ∨
      ∃ c rest, c :: rest <+: text ∧ (∃ e, b.entryAt? c rest = some e ∧ b.search best text = some e) ∧
        ∀ d other e, d :: other <+: text → b.entryAt? d other = some e →
          d :: other <+: c :: rest := by
  induction b generalizing best text with
  | none => exact Or.inl ⟨by cases text <;> rfl, fun _ _ _ => rfl⟩
  | branch x found below beside ihBelow ihBeside =>
    cases text with
    | nil => exact Or.inl ⟨rfl, fun c rest h => by simp at h⟩
    | cons y text =>
      by_cases hyx : y = x
      · subst hyx
        have hsearch : (branch y found below beside).search best (y :: text)
            = below.search (found.or best) text := by simp [search]
        have hpath : ∀ c rest, c :: rest <+: y :: text → c = y ∧ rest <+: text :=
          fun c rest h => List.cons_prefix_cons.1 h
        rcases ihBelow (found.or best) text with ⟨heq, hnone⟩ | ⟨c, rest, hprefix, ⟨e, he, heq⟩, hmax⟩
        · have hanswer := hsearch.trans heq
          cases found with
          | none =>
            left
            refine ⟨by simpa using hanswer, fun c rest h => ?_⟩
            obtain ⟨rfl, hrest⟩ := hpath c rest h
            cases rest with
            | nil => simp [entryAt?]
            | cons d rest => simpa [entryAt?] using hnone d rest hrest
          | some e =>
            right
            refine ⟨y, [], by simp, ⟨e, by simp [entryAt?], by simpa using hanswer⟩, ?_⟩
            intro d other e' hd he'
            obtain ⟨rfl, hother⟩ := hpath d other hd
            cases other with
            | nil => simp
            | cons z other =>
              rw [entryAt?, if_pos rfl] at he'
              have := hnone z other hother
              simp [this] at he'
        · right
          refine ⟨y, c :: rest, by simpa using hprefix, ⟨e, by simpa [entryAt?] using he, ?_⟩, ?_⟩
          · rw [hsearch, heq]
          · intro d other e' hd he'
            obtain ⟨rfl, hother⟩ := hpath d other hd
            cases other with
            | nil => simp
            | cons z other =>
              rw [entryAt?, if_pos rfl] at he'
              exact List.cons_prefix_cons.2 ⟨rfl, hmax z other e' hother he'⟩
      · have hsearch : (branch x found below beside).search best (y :: text)
            = beside.search best (y :: text) := by simp [search, hyx]
        have hentry : ∀ c rest, c :: rest <+: y :: text →
            (branch x found below beside).entryAt? c rest = beside.entryAt? c rest := by
          intro c rest h
          obtain ⟨rfl, -⟩ := List.cons_prefix_cons.1 h
          simp [entryAt?, hyx]
        rcases ihBeside best (y :: text) with ⟨heq, hnone⟩ | ⟨c, rest, hprefix, ⟨e, he, heq⟩, hmax⟩
        · exact Or.inl ⟨hsearch.trans heq, fun c rest h => (hentry c rest h).trans (hnone c rest h)⟩
        · refine Or.inr ⟨c, rest, hprefix, ⟨e, (hentry c rest hprefix).trans he, hsearch.trans heq⟩, ?_⟩
          intro d other e' hd he'
          exact hmax d other e' hd ((hentry d other hd).symm.trans he')

end Branches

/-- A trie over characters: the entry of the empty key and the branches for all others. Every entry
    stands at the end of the path that its key spells. -/
structure Trie (V : Type) where
  atRoot : Option (String × V)
  branches : Branches V
  key_atRoot : ∀ entry, atRoot = some entry → entry.1 = ""
  key_branches : ∀ c rest entry, branches.entryAt? c rest = some entry → entry.1.toList = c :: rest

namespace Trie

variable {V : Type}

/-- The trie without entries. -/
def empty : Trie V where
  atRoot := none
  branches := .none
  key_atRoot _ h := by cases h
  key_branches _ _ _ h := by cases h

/-- Adds an entry, in place of the one that had its key. -/
def insert (t : Trie V) (entry : String × V) : Trie V :=
  match hkey : entry.1.toList with
  | [] =>
    { t with
      atRoot := some entry
      key_atRoot := by
        rintro _ ⟨⟩
        exact String.toList_inj.1 (by simpa using hkey) }
  | c :: rest =>
    { t with
      branches := t.branches.insert entry c rest
      key_branches := by
        intro d other e h
        rw [Branches.entryAt?_insert] at h
        split at h
        · rename_i hpath
          obtain rfl := Option.some.inj h
          rw [hkey, hpath]
        · exact t.key_branches d other e h }

/-- The entry of the longest key that begins the text. -/
def longest? (t : Trie V) (text : List Char) : Option (String × V) :=
  t.branches.search t.atRoot text

instance : PrefixMap Trie where
  ofList entries := entries.foldl insert empty
  longest? := longest?

/-- The entry of a key. -/
def find? (t : Trie V) (key : String) : Option (String × V) :=
  match key.toList with
  | [] => t.atRoot
  | c :: rest => t.branches.entryAt? c rest

/-- An insertion changes the entry of its own key and of no other. -/
private theorem find?_insert (t : Trie V) (entry : String × V) (key : String) :
    (t.insert entry).find? key = if entry.1 = key then some entry else t.find? key := by
  have hiff : entry.1 = key ↔ entry.1.toList = key.toList := String.toList_inj.symm
  unfold insert
  split
  · rename_i hentry
    unfold find?
    cases hkey : key.toList with
    | nil => simp [hiff, hentry, hkey]
    | cons d other => simp [hiff, hentry, hkey]
  · rename_i c rest hentry
    unfold find?
    cases hkey : key.toList with
    | nil => simp [hiff, hentry, hkey]
    | cons d other => simp only [hiff, hentry, hkey, Branches.entryAt?_insert]

/-- Whether the trie has this entry. -/
def Holds (t : Trie V) (key : String) (value : V) : Prop :=
  t.find? key = some (key, value)

/-- An insertion changes the value of its own key and of no other. -/
theorem holds_insert (t : Trie V) (entry : String × V) (key : String) (value : V) :
    (t.insert entry).Holds key value ↔
      if entry.1 = key then entry.2 = value else t.Holds key value := by
  obtain ⟨k, v⟩ := entry
  simp only [Holds, find?_insert]
  split
  · rename_i hkey
    simp [hkey]
  · rfl

/-- The last entry on the way down is that of the longest key that begins the text. It is the one at the
    root where the text leads past no other. -/
theorem isLongest_longest? (t : Trie V) (text : List Char) :
    IsLongest t.Holds text (t.longest? text) := by
  have holds_entryAt : ∀ {c rest e}, t.branches.entryAt? c rest = some e → t.Holds e.1 e.2 := by
    intro c rest e he
    rw [Holds, find?, t.key_branches c rest e he]
    exact he
  rcases Branches.search_cases t.atRoot t.branches text with
    ⟨heq, hnone⟩ | ⟨c, rest, hprefix, ⟨e, he, heq⟩, hmax⟩
  · have hempty : ∀ key value, t.Holds key value → Begins key text → key = "" := by
      intro key value hholds hbegins
      rw [Holds, find?] at hholds
      cases hkey : key.toList with
      | nil => exact String.toList_inj.1 (by simp [hkey])
      | cons d other =>
        rw [Begins, hkey] at hbegins
        rw [hkey] at hholds
        simp [hnone d other hbegins] at hholds
    rw [longest?, heq]
    cases hroot : t.atRoot with
    | none =>
      intro key value hholds hbegins
      have hkey := hempty key value hholds hbegins
      subst hkey
      simp [Holds, find?, hroot] at hholds
    | some e =>
      obtain ⟨key, value⟩ := e
      have hkey : key = "" := t.key_atRoot _ hroot
      subst hkey
      refine ⟨by simp [Holds, find?, hroot], by simp [Begins], fun other w hother hbegins => ?_⟩
      exact Nat.le_of_eq (congrArg String.utf8ByteSize (hempty other w hother hbegins))
  · rw [longest?, heq]
    have hkey := t.key_branches c rest e he
    obtain ⟨key, value⟩ := e
    refine ⟨holds_entryAt he, by rw [Begins, hkey]; exact hprefix, fun other w hother hbegins => ?_⟩
    refine utf8ByteSize_le_of_prefix ?_
    rw [hkey]
    rw [Holds, find?] at hother
    cases hchars : other.toList with
    | nil => exact List.nil_prefix
    | cons d chars =>
      rw [hchars] at hother
      rw [Begins, hchars] at hbegins
      exact hmax d chars _ hbegins hother

/-- The empty trie holds nothing. -/
theorem not_holds_empty (key : String) (value : V) : ¬ (empty : Trie V).Holds key value := by
  intro h
  unfold Holds find? at h
  split at h <;> cases h

instance : LawfulPrefixMap Trie where
  isLongest_ofList entries text :=
    (isLongest_longest? (entries.foldl insert empty) text).congr <|
      holds_foldl_iff Holds empty insert not_holds_empty holds_insert entries

end Trie

end Sentential.PrefixMap
