import Sentential.Proofs.Operator.Validated

namespace Sentential

namespace Cursor

private theorem eq_false_of_mem_head?_dropWhile {p : Char → Bool} {text : List Char} {c : Char}
    (h : c ∈ (text.dropWhile p).head?) : p c = false := by
  have hnot := List.head?_dropWhile_not p text
  rwa [Option.mem_def.1 h] at hnot

/-- A move over the front of what is ahead leaves the back. The position grows by as many characters as
    the front has. -/
theorem advance_of_eq_append {cursor : Cursor} {front back : List Char}
    (h : cursor.remaining = front ++ back) :
    cursor.advance front.length = ⟨back, cursor.position + front.length⟩ := by
  rw [advance, h, List.drop_left]

/-- A move over one character takes the one that was seen ahead. It is only stated where there is a
    character, since a move at the end counts on. -/
theorem advance_one_of_peek? {cursor : Cursor} {c : Char} (h : cursor.peek? = some c) :
    cursor.remaining = c :: (cursor.advance 1).remaining ∧
      (cursor.advance 1).position = cursor.position + 1 := by
  obtain ⟨back, hback⟩ := List.head?_eq_some_iff.1 h
  exact ⟨by rw [advance, hback]; rfl, rfl⟩

/-- Skipping blanks drops the longest blank front and counts its characters. This equation is what later
    proofs use in place of the definition. -/
theorem skipBlank_eq (cursor : Cursor) :
    cursor.skipBlank = ⟨cursor.remaining.dropWhile Text.isBlank,
      cursor.position + (cursor.remaining.takeWhile Text.isBlank).length⟩ :=
  advance_of_eq_append (List.takeWhile_append_dropWhile).symm

/-- Behind the blanks no blank is ahead. Together with `skipBlank_of_head?` this makes skipping
    idempotent. -/
theorem isBlank_of_mem_head?_skipBlank {cursor : Cursor} {c : Char}
    (h : c ∈ cursor.skipBlank.remaining.head?) : Text.isBlank c = false := by
  rw [skipBlank_eq] at h
  exact eq_false_of_mem_head?_dropWhile h

/-- A cursor that stands in front of no blank stays where it is. The end of the text counts as no blank. -/
theorem skipBlank_of_head? {cursor : Cursor}
    (h : ∀ c ∈ cursor.remaining.head?, Text.isBlank c = false) : cursor.skipBlank = cursor := by
  obtain ⟨remaining, position⟩ := cursor
  cases remaining with
  | nil => rfl
  | cons c rest =>
    have hc : ¬ Text.isBlank c = true := by
      rw [h c rfl]
      decide
    rw [skipBlank_eq, List.dropWhile_cons_of_neg hc, List.takeWhile_cons_of_neg hc]
    rfl

/-- Blanks that were skipped are not met again, so it does not matter how often they are skipped. -/
theorem skipBlank_skipBlank (cursor : Cursor) : cursor.skipBlank.skipBlank = cursor.skipBlank :=
  skipBlank_of_head? fun _ hc => isBlank_of_mem_head?_skipBlank hc

/-- Skipping blanks goes past a blank in front of the text. Blanks can therefore be added in front of
    any token. -/
theorem skipBlank_cons {c : Char} (hc : Text.isBlank c = true) (text : List Char) (position : Nat) :
    skipBlank ⟨c :: text, position⟩ = skipBlank ⟨text, position + 1⟩ := by
  rw [skipBlank_eq, skipBlank_eq, List.dropWhile_cons_of_pos hc, List.takeWhile_cons_of_pos hc,
    List.length_cons, Nat.add_assoc, Nat.add_comm 1]

/-- The sum of the characters behind and ahead. -/
def total (cursor : Cursor) : Nat :=
  cursor.position + cursor.remaining.length

/-- A move over a front keeps the sum of the characters behind and ahead. All moves of the reader have
    this form. -/
theorem total_eq_of_append {cursor rest : Cursor} {front : List Char}
    (hremaining : cursor.remaining = front ++ rest.remaining)
    (hposition : rest.position = cursor.position + front.length) : rest.total = cursor.total := by
  rw [total, total, hremaining, hposition, List.length_append, Nat.add_assoc]

/-- Skipping blanks keeps the sum of the characters behind and ahead. An error behind blanks is
    therefore at its true position. -/
theorem total_skipBlank (cursor : Cursor) : cursor.skipBlank.total = cursor.total := by
  rw [skipBlank_eq]
  exact total_eq_of_append List.takeWhile_append_dropWhile.symm rfl

/-- An identifier is a run of identifier characters that the text does not go on with. The run is not
    empty and the cursor moves behind it, so the name and the next cursor are determined. -/
theorem identifier?_eq_some_iff {cursor rest : Cursor} {name : String} :
    cursor.identifier? = some (name, rest) ↔ ∃ run : List Char, run ≠ [] ∧ String.ofList run = name ∧
      cursor.remaining = run ++ rest.remaining ∧ rest.position = cursor.position + run.length ∧
        (∀ c ∈ run, Text.isIdentifierChar c = true) ∧
          ∀ c ∈ rest.remaining.head?, Text.isIdentifierChar c = false := by
  obtain ⟨text, position⟩ := cursor
  constructor
  · intro h
    unfold identifier? at h
    split at h
    · cases h
    · rename_i hrun
      obtain ⟨hname, hrest⟩ := by simpa using h
      have happend := (List.takeWhile_append_dropWhile (p := Text.isIdentifierChar) (l := text)).symm
      rw [advance_of_eq_append happend] at hrest
      subst hrest
      refine ⟨_, hrun, hname, happend, rfl, ?_, ?_⟩
      · exact fun c hc => List.all_eq_true.1 List.all_takeWhile c hc
      · exact fun c hc => eq_false_of_mem_head?_dropWhile hc
  · rintro ⟨run, hne, rfl, happend, hposition, hrun, hend⟩
    obtain ⟨back, behind⟩ := rest
    simp only at happend hposition hend
    subst happend hposition
    have htake : (run ++ back).takeWhile Text.isIdentifierChar = run := by
      rw [List.takeWhile_append_of_pos hrun]
      cases back with
      | nil => simp
      | cons c rest =>
        have hc : ¬ Text.isIdentifierChar c = true := by
          rw [hend c rfl]
          decide
        rw [List.takeWhile_cons_of_neg hc, List.append_nil]
    unfold identifier?
    simp only [htake]
    have hfront : (⟨run ++ back, position⟩ : Cursor).remaining = run ++ back := rfl
    rw [advance_of_eq_append hfront]

/-- No identifier is taken exactly if the next character cannot stand in one, or if there is none.
    Whether one is taken is thus decided by one character. -/
theorem identifier?_eq_none_iff {cursor : Cursor} :
    cursor.identifier? = none ↔ ∀ c ∈ cursor.remaining.head?, Text.isIdentifierChar c = false := by
  obtain ⟨text, position⟩ := cursor
  cases text with
  | nil => simp [identifier?]
  | cons c rest =>
    unfold identifier?
    cases hc : Text.isIdentifierChar c <;> simp [hc]

/-- A symbol that is taken is a key that begins the text, and its value is one of that key. The empty
    key is never taken, so the cursor moves. Only the law of the map is used, not how it searches. -/
theorem exists_mem_of_symbol? {M : Type → Type} [PrefixMap M] [LawfulPrefixMap M] {V : Type}
    {entries : List (String × V)} {cursor rest : Cursor} {value : V}
    (h : cursor.symbol? (PrefixMap.ofList entries : M V) = some (value, rest)) :
    ∃ key : String, (key, value) ∈ entries ∧ key ≠ "" ∧
      cursor.remaining = key.toList ++ rest.remaining ∧
        rest.position = cursor.position + key.toList.length := by
  unfold symbol? at h
  have hlongest := LawfulPrefixMap.isLongest_ofList (M := M) entries cursor.remaining
  split at h
  · rename_i key found hfound
    rw [hfound] at hlongest
    split at h
    · cases h
    · rename_i hne
      obtain ⟨rfl, rfl⟩ := by simpa using h
      obtain ⟨back, hback⟩ := hlongest.2.1
      refine ⟨key, PrefixMap.mem_of_lastValue? hlongest.1, hne, ?_⟩
      rw [← String.length_toList, advance_of_eq_append hback.symm]
      exact ⟨hback.symm, rfl⟩
  · cases h

/-- Where an identifier is taken, some character is ahead. A reader that looks at the next character
    first therefore never misses an identifier. -/
theorem exists_peek?_of_identifier? {cursor rest : Cursor} {name : String}
    (h : cursor.identifier? = some (name, rest)) : ∃ c, cursor.peek? = some c := by
  cases hpeek : cursor.peek? with
  | some c => exact ⟨c, rfl⟩
  | none =>
    have hnone : cursor.identifier? = none :=
      identifier?_eq_none_iff.2 fun c hc => by cases hpeek.symm.trans hc
    cases hnone.symm.trans h

/-- Where a symbol is taken, some character is ahead, because the empty key is never taken. The map may
    hold the empty key all the same. -/
theorem exists_peek?_of_symbol? {M : Type → Type} [PrefixMap M] [LawfulPrefixMap M] {V : Type}
    {entries : List (String × V)} {cursor rest : Cursor} {value : V}
    (h : cursor.symbol? (PrefixMap.ofList entries : M V) = some (value, rest)) :
    ∃ c, cursor.peek? = some c := by
  obtain ⟨key, -, hkey, hremaining, -⟩ := exists_mem_of_symbol? h
  cases hchars : key.toList with
  | nil => exact absurd (String.toList_inj.1 hchars) hkey
  | cons c chars => exact ⟨c, by rw [peek?, hremaining, hchars]; rfl⟩

end Cursor

end Sentential
