import Mathlib.Data.List.Induction
import Sentential.Proofs.Cursor
import Sentential.Proofs.Parsing.Agreement
import Sentential.Proofs.PrefixMap.Searches

namespace Sentential

open PrefixMap

/-- The bytes in front of the first character that passes a test, if there is one. -/
def Text.findSize? (p : Char → Bool) : List Char → Option Nat
  | [] => none
  | c :: rest => if p c then some 0 else (findSize? p rest).map (c.utf8Size + ·)

/-- The bytes in front of the first character that fails a test, or all bytes. -/
def Text.sizeWhile (p : Char → Bool) (text : List Char) : Nat :=
  (findSize? (fun c => !p c) text).getD (String.ofList text).utf8ByteSize

private theorem Text.sizeWhile_eq (p : Char → Bool) (text : List Char) :
    sizeWhile p text = (String.ofList (text.takeWhile p)).utf8ByteSize := by
  unfold sizeWhile
  induction text with
  | nil => rfl
  | cons c rest ih =>
    cases hc : p c with
    | false => simp [findSize?, hc]
    | true =>
      rw [List.takeWhile_cons_of_pos hc, utf8ByteSize_ofList_cons, utf8ByteSize_ofList_cons, ← ih, findSize?]
      simp only [hc, Bool.not_true, Bool.false_eq_true, if_false]
      cases findSize? (fun c => !p c) rest <;> rfl

/-- Entries with a search that serves them, whatever it looks into. -/
structure SearchedMap (V : Type) where
  entries : List (String × V)
  search : List Char → Option (Nat × V)
  serves : Serves entries search

/-- The ways to move a cursor, or to look ahead of it. -/
inductive Move (V : Type) where
  | skipBlank
  | peek
  | bump
  | identifier
  | symbol (map : SearchedMap V)

namespace Move

/-- What a move gives back. -/
inductive Answer (V : Type) where
  | done
  | nothing
  | char (c : Char)
  | name (name : String)
  | value (v : V)

/-- What a move owes for the text ahead: an answer, and the front that is taken off the text. -/
inductive Owes {V : Type} : Move V → List Char → Answer V → List Char → Prop where
  | skipBlank {front rest : List Char} (hfront : ∀ c ∈ front, Text.isBlank c = true)
    (hrest : ∀ c ∈ rest.head?, Text.isBlank c = false) : Owes skipBlank (front ++ rest) .done front
  | peek (c : Char) (rest : List Char) : Owes peek (c :: rest) (.char c) []
  | peekNothing : Owes peek [] .nothing []
  | bump (c : Char) (rest : List Char) : Owes bump (c :: rest) (.char c) [c]
  | bumpNothing : Owes bump [] .nothing []
  | identifier {front rest : List Char} (hne : front ≠ [])
    (hfront : ∀ c ∈ front, Text.isIdentifierChar c = true)
    (hrest : ∀ c ∈ rest.head?, Text.isIdentifierChar c = false) :
    Owes identifier (front ++ rest) (.name (String.ofList front)) front
  | identifierNothing {ahead : List Char}
    (hahead : ∀ c ∈ ahead.head?, Text.isIdentifierChar c = false) : Owes identifier ahead .nothing []
  | symbol {map : SearchedMap V} {ahead : List Char} {key : String} {value : V} (hne : key ≠ "")
    (hkey : key ∈ map.entries.map Prod.fst) (hvalue : lastValue? map.entries key = some value)
    (hbegins : Begins key ahead)
    (hlongest : ∀ other ∈ map.entries.map Prod.fst, Begins other ahead →
      other.utf8ByteSize ≤ key.utf8ByteSize) : Owes (symbol map) ahead (.value value) key.toList
  | symbolNothing {map : SearchedMap V} {ahead : List Char}
    (hnone : ∀ key ∈ map.entries.map Prod.fst, key ≠ "" → ¬ Begins key ahead) :
    Owes (symbol map) ahead .nothing []

end Move

namespace PrefixMap

/-- A search that serves some entries answers the measure of what is owed to them: the bytes of the
    longest key and its last value. What it looks into plays no part. -/
theorem Serves.measures {V : Type} {entries : List (String × V)}
    {search : List Char → Option (Nat × V)} (h : Serves entries search) : Measures entries search := by
  intro text
  cases hsearch : search text with
  | none =>
    refine ⟨none, fun key value hvalue => ?_, rfl⟩
    exact (h.eq_none_iff text).1 hsearch key (mem_keys_iff.2 ⟨value, hvalue⟩)
  | some found =>
    obtain ⟨size, value⟩ := found
    obtain ⟨key, -, hbegins, rfl, hvalue, hmax⟩ := h.of_eq_some text size value hsearch
    refine ⟨some (key, value), ⟨hvalue, hbegins, fun other w hw => ?_⟩, rfl⟩
    exact hmax other (mem_keys_iff.2 ⟨w, hw⟩)

end PrefixMap

namespace Cursor

variable {V : Type}

/-- Makes a move. -/
def perform (M : Type → Type) [PrefixMap M] (cursor : Cursor) : Move V → Move.Answer V × Cursor
  | .skipBlank => (.done, cursor.skipBlank)
  | .peek => (cursor.peek?.elim .nothing .char, cursor)
  | .bump => cursor.bump?.elim (.nothing, cursor) (Prod.map .char id)
  | .identifier => cursor.identifier?.elim (.nothing, cursor) (Prod.map .name id)
  | .symbol map =>
    (cursor.symbol? (PrefixMap.ofList map.entries : M V)).elim (.nothing, cursor) (Prod.map .value id)

/-- Moves over so many bytes, and gives what was moved over. There is no such move if no character ends
    there. -/
def advanceBytes? (cursor : Cursor) (size : Nat) : Option (List Char × Cursor) :=
  (frontOfSize? size cursor.remaining).map fun front =>
    (front, ⟨cursor.remaining.drop front.length, cursor.position + front.length⟩)

/-- Makes a move by numbers of bytes. It fails if one of them leads into a character. -/
def performBytes? (cursor : Cursor) : Move V → Option (Move.Answer V × Cursor)
  | .skipBlank =>
    (cursor.advanceBytes? (Text.sizeWhile Text.isBlank cursor.remaining)).map fun taken =>
      (.done, taken.2)
  | .peek => some (cursor.peek?.elim .nothing .char, cursor)
  | .bump =>
    match cursor.peek? with
    | some c => (cursor.advanceBytes? c.utf8Size).map fun taken => (.char c, taken.2)
    | none => some (.nothing, cursor)
  | .identifier =>
    let size := Text.sizeWhile Text.isIdentifierChar cursor.remaining
    if 0 < size then
      (frontOfSize? size cursor.remaining).bind fun name =>
        (cursor.advanceBytes? (String.ofList name).utf8ByteSize).map fun taken =>
          (.name (String.ofList taken.1), taken.2)
    else some (.nothing, cursor)
  | .symbol map =>
    match map.search cursor.remaining with
    | some (size, value) =>
      if 0 < size then (cursor.advanceBytes? size).map fun taken => (.value value, taken.2)
      else some (.nothing, cursor)
    | none => some (.nothing, cursor)

/-- A character ends where a front of the text does, so a move over the bytes of a front is a move over
    its characters. All moves by bytes are proved from this. -/
theorem advanceBytes?_of_prefix {cursor : Cursor} {front : List Char} (h : front <+: cursor.remaining) :
    cursor.advanceBytes? (String.ofList front).utf8ByteSize =
      some (front, cursor.advance front.length) := by
  rw [advanceBytes?, frontOfSize?_eq_some_iff.2 ⟨h, rfl⟩]
  rfl

private theorem performBytes?_skipBlank (M : Type → Type) [PrefixMap M] (cursor : Cursor) :
    cursor.performBytes? (.skipBlank : Move V) = some (cursor.perform M .skipBlank) := by
  simp only [performBytes?, Text.sizeWhile_eq, advanceBytes?_of_prefix (List.takeWhile_prefix _)]
  rfl

private theorem performBytes?_bump (M : Type → Type) [PrefixMap M] (cursor : Cursor) :
    cursor.performBytes? (.bump : Move V) = some (cursor.perform M .bump) := by
  cases hpeek : cursor.peek? with
  | none => simp only [performBytes?, perform, bump?, hpeek, Option.map_none, Option.elim_none]
  | some c =>
    obtain ⟨rest, hrest⟩ := List.head?_eq_some_iff.1 hpeek
    have hfront : [c] <+: cursor.remaining := ⟨rest, hrest.symm⟩
    have hadvance := advanceBytes?_of_prefix hfront
    rw [utf8ByteSize_ofList_cons] at hadvance
    have hsize : c.utf8Size + (String.ofList []).utf8ByteSize = c.utf8Size := rfl
    rw [hsize] at hadvance
    simp only [performBytes?, perform, bump?, hpeek, hadvance]
    rfl

private theorem performBytes?_identifier (M : Type → Type) [PrefixMap M] (cursor : Cursor) :
    cursor.performBytes? (.identifier : Move V) = some (cursor.perform M .identifier) := by
  have hfront := List.takeWhile_prefix (l := cursor.remaining) Text.isIdentifierChar
  cases hname : cursor.remaining.takeWhile Text.isIdentifierChar with
  | nil => simp [performBytes?, perform, Text.sizeWhile_eq, identifier?, hname]
  | cons c rest =>
    rw [hname] at hfront
    have hpos : 0 < (String.ofList (c :: rest)).utf8ByteSize := by
      rw [utf8ByteSize_ofList_cons]
      exact Nat.add_pos_left c.utf8Size_pos _
    simp only [performBytes?, perform, Text.sizeWhile_eq, identifier?, hname, if_pos hpos,
      frontOfSize?_eq_some_iff.2 ⟨hfront, rfl⟩, advanceBytes?_of_prefix hfront, Option.bind_some]
    rfl

/-- The search counts the bytes of the key that the cursor takes. A move by that many bytes therefore
    takes the key whole, and no byte count that the search gives leads into a character. -/
theorem performBytes?_symbol (M : Type → Type) [PrefixMap M] [LawfulPrefixMap M] (cursor : Cursor)
    (map : SearchedMap V) :
    cursor.performBytes? (.symbol map) = some (cursor.perform M (.symbol map)) := by
  have hsearch : map.search = found? (PrefixMap.ofList map.entries : M V) :=
    map.serves.measures.unique (measures_found? map.entries)
  have hlongest := LawfulPrefixMap.isLongest_ofList (M := M) map.entries cursor.remaining
  simp only [performBytes?, perform, hsearch, found?, symbol?]
  cases hfound : longest? (PrefixMap.ofList map.entries : M V) cursor.remaining with
  | none => rfl
  | some entry =>
    obtain ⟨key, value⟩ := entry
    rw [hfound] at hlongest
    obtain ⟨-, hbegins, -⟩ := hlongest
    have hadvance := advanceBytes?_of_prefix hbegins
    rw [String.ofList_toList, String.length_toList] at hadvance
    by_cases hkey : key = ""
    · simp [measured, hkey]
    · have hpos : 0 < key.utf8ByteSize :=
        Nat.pos_of_ne_zero (mt String.utf8ByteSize_eq_zero_iff.1 hkey)
      simp only [Option.map_some, measured, if_pos hpos, if_neg hkey, hadvance]
      rfl

/-- No move splits the text inside a character: moving by numbers of bytes is moving by characters. The
    blanks, the identifier, the next character and the key all end where a character does. -/
theorem performBytes?_eq (M : Type → Type) [PrefixMap M] [LawfulPrefixMap M] (cursor : Cursor)
    (move : Move V) : cursor.performBytes? move = some (cursor.perform M move) := by
  cases move with
  | skipBlank => exact cursor.performBytes?_skipBlank M
  | peek => rfl
  | bump => exact cursor.performBytes?_bump M
  | identifier => exact cursor.performBytes?_identifier M
  | symbol map => exact cursor.performBytes?_symbol M map

/-- What is known of a move that was made: it took the front that it owes, and where it gives nothing the
    cursor stays. -/
structure Makes (move : Move V) (before : Cursor) (answer : Move.Answer V) (next : Cursor) : Prop where
  owes : ∃ front, move.Owes before.remaining answer front ∧
    before.remaining = front ++ next.remaining ∧ next.position = before.position + front.length
  unchanged : answer = .nothing → next = before

private theorem makes_skipBlank (cursor : Cursor) :
    Makes (.skipBlank : Move V) cursor .done cursor.skipBlank := by
  have happend := List.takeWhile_append_dropWhile (p := Text.isBlank) (l := cursor.remaining)
  have howes : Move.Owes (.skipBlank : Move V)
      (cursor.remaining.takeWhile Text.isBlank ++ cursor.remaining.dropWhile Text.isBlank) .done
      (cursor.remaining.takeWhile Text.isBlank) := by
    refine .skipBlank (fun c hc => List.all_eq_true.1 List.all_takeWhile c hc) fun c hc => ?_
    have hskip : c ∈ cursor.skipBlank.remaining.head? := by rwa [skipBlank_eq]
    exact isBlank_of_mem_head?_skipBlank hskip
  rw [happend] at howes
  refine ⟨⟨_, howes, ?_, ?_⟩, nofun⟩ <;> rw [skipBlank_eq]
  exact happend.symm

private theorem makes_peek (cursor : Cursor) :
    Makes (.peek : Move V) cursor (cursor.peek?.elim .nothing .char) cursor := by
  obtain ⟨text, position⟩ := cursor
  cases text with
  | nil => exact ⟨⟨[], .peekNothing, rfl, rfl⟩, fun _ => rfl⟩
  | cons c rest => exact ⟨⟨[], .peek c rest, rfl, rfl⟩, nofun⟩

private theorem makes_bump (M : Type → Type) [PrefixMap M] (cursor : Cursor) :
    Makes (.bump : Move V) cursor (cursor.perform M (.bump : Move V)).1
      (cursor.perform M (.bump : Move V)).2 := by
  obtain ⟨text, position⟩ := cursor
  cases text with
  | nil => exact ⟨⟨[], .bumpNothing, rfl, rfl⟩, fun _ => rfl⟩
  | cons c rest => exact ⟨⟨[c], .bump c rest, rfl, rfl⟩, nofun⟩

private theorem makes_identifier (M : Type → Type) [PrefixMap M] (cursor : Cursor) :
    Makes (.identifier : Move V) cursor (cursor.perform M (.identifier : Move V)).1
      (cursor.perform M (.identifier : Move V)).2 := by
  cases hname : cursor.identifier? with
  | none =>
    simp only [perform, hname, Option.elim_none]
    exact ⟨⟨[], .identifierNothing (identifier?_eq_none_iff.1 hname), rfl, rfl⟩, fun _ => rfl⟩
  | some taken =>
    obtain ⟨name, rest⟩ := taken
    obtain ⟨run, hrun, rfl, hremaining, hposition, hchars, hend⟩ := identifier?_eq_some_iff.1 hname
    simp only [perform, hname, Option.elim_some, Prod.map_apply, id]
    refine ⟨⟨run, ?_, hremaining, hposition⟩, nofun⟩
    rw [hremaining]
    exact .identifier hrun hchars hend

private theorem makes_symbol (M : Type → Type) [PrefixMap M] [LawfulPrefixMap M] (cursor : Cursor)
    (map : SearchedMap V) :
    Makes (.symbol map) cursor (cursor.perform M (.symbol map)).1
      (cursor.perform M (.symbol map)).2 := by
  have hlongest := (LawfulPrefixMap.isLongest_ofList (M := M) map.entries
    cursor.remaining).filter_ne_empty
  simp only [perform, symbol?_eq_map_filter]
  generalize (longest? (PrefixMap.ofList map.entries : M V) cursor.remaining).filter _ = found
    at hlongest
  cases found with
  | none =>
    refine ⟨⟨[], .symbolNothing fun key hkey hne hbegins => ?_, rfl, rfl⟩, fun _ => rfl⟩
    obtain ⟨value, hvalue⟩ := mem_keys_iff.1 hkey
    exact hlongest key value ⟨hne, hbegins, hvalue⟩ hbegins
  | some entry =>
    obtain ⟨key, value⟩ := entry
    obtain ⟨⟨hne, -, hvalue⟩, hbegins, hmax⟩ := hlongest
    have hlength : key.length = key.toList.length := String.length_toList.symm
    obtain ⟨rest, hrest⟩ := hbegins
    have hadvance := advance_of_eq_append hrest.symm
    simp only [Option.map_some, Option.elim_some, Prod.map_apply, id, hlength, hadvance]
    refine ⟨⟨key.toList, ?_, hrest.symm, rfl⟩, nofun⟩
    refine .symbol hne (mem_keys_iff.2 ⟨value, hvalue⟩) hvalue ⟨rest, hrest⟩ fun other hother hothers => ?_
    by_cases hempty : other = ""
    · simp [hempty]
    · obtain ⟨w, hw⟩ := mem_keys_iff.1 hother
      exact hmax other w ⟨hempty, hothers, hw⟩ hothers

private theorem makes_perform (M : Type → Type) [PrefixMap M] [LawfulPrefixMap M] (cursor : Cursor)
    (move : Move V) : Makes move cursor (cursor.perform M move).1 (cursor.perform M move).2 := by
  cases move with
  | skipBlank => exact cursor.makes_skipBlank
  | peek => exact cursor.makes_peek
  | bump => exact cursor.makes_bump M
  | identifier => exact cursor.makes_identifier M
  | symbol map => exact cursor.makes_symbol M map

/-- The cursor behind some moves. -/
def afterMoves (M : Type → Type) [PrefixMap M] (text : List Char) (moves : List (Move V)) : Cursor :=
  moves.foldl (fun cursor move => (cursor.perform M move).2) (Cursor.ofList text)

/-- Some moves by numbers of bytes, if none of these leads into a character. -/
def afterBytes? (text : List Char) (moves : List (Move V)) : Option Cursor :=
  moves.foldlM (fun cursor move => (cursor.performBytes? move).map Prod.snd) (Cursor.ofList text)

private theorem afterMoves_concat (M : Type → Type) [PrefixMap M] (text : List Char)
    (moves : List (Move V)) (move : Move V) :
    afterMoves M text (moves ++ [move]) = ((afterMoves M text moves).perform M move).2 := by
  rw [afterMoves, List.foldl_concat]
  rfl

private theorem afterBytes?_eq (M : Type → Type) [PrefixMap M] [LawfulPrefixMap M] (text : List Char)
    (moves : List (Move V)) : afterBytes? text moves = some (afterMoves M text moves) := by
  unfold afterBytes? afterMoves
  generalize Cursor.ofList text = cursor
  induction moves generalizing cursor with
  | nil => rfl
  | cons move rest ih =>
    rw [List.foldlM_cons, cursor.performBytes?_eq M, List.foldl_cons]
    exact ih _

/-- A text with a place in it: the characters behind the place and those ahead make up the text, and the
    position counts those behind. -/
structure Divides (text : List Char) (cursor : Cursor) (consumed : List Char) : Prop where
  text_eq : text = consumed ++ cursor.remaining
  position_eq : cursor.position = consumed.length
  /-- A character ends behind the bytes of those that were consumed. -/
  isValid : String.Pos.Raw.IsValid (String.ofList text) ⟨(String.ofList consumed).utf8ByteSize⟩

private theorem divides_of_eq_append {text consumed : List Char} {cursor : Cursor}
    (htext : text = consumed ++ cursor.remaining) (hposition : cursor.position = consumed.length) :
    Divides text cursor consumed where
  text_eq := htext
  position_eq := hposition
  isValid := String.Pos.Raw.isValid_iff_exists_append.2
    ⟨String.ofList consumed, String.ofList cursor.remaining, by rw [htext, String.ofList_append], rfl⟩

/-- Whatever moves are made, the cursor divides the text. What lies behind it and what is ahead make up
    the text, and its position counts what lies behind. -/
theorem exists_divides_afterMoves (M : Type → Type) [PrefixMap M] [LawfulPrefixMap M]
    (text : List Char) (moves : List (Move V)) :
    ∃ consumed, Divides text (afterMoves M text moves) consumed := by
  induction moves using List.reverseRecOn with
  | nil => exact ⟨[], divides_of_eq_append rfl rfl⟩
  | append_singleton moves move ih =>
    obtain ⟨consumed, htext, hposition, -⟩ := ih
    obtain ⟨front, -, hremaining, hnext⟩ := ((afterMoves M text moves).makes_perform M move).owes
    rw [afterMoves_concat]
    refine ⟨consumed ++ front, divides_of_eq_append ?_ ?_⟩
    · rw [List.append_assoc, ← hremaining]
      exact htext
    · rw [hnext, hposition, List.length_append]

/-- Moving by bytes never leads into a character, and comes to the same places as moving by characters.
    At each of them the cursor divides the text, and every next move takes what it owes. The moves may
    come in any order, and the symbols of each may be searched for in any way that serves its entries. -/
theorem afterMoves_spec (M : Type → Type) [PrefixMap M] [LawfulPrefixMap M] (text : List Char)
    (moves : List (Move V)) :
    afterBytes? text moves = some (afterMoves M text moves) ∧
      (∃ consumed, Divides text (afterMoves M text moves) consumed) ∧
      ∀ move : Move V, ∃ answer next,
        (afterMoves M text moves).perform M move = (answer, next) ∧
          (afterMoves M text moves).performBytes? move = some (answer, next) ∧
          Makes move (afterMoves M text moves) answer next :=
  ⟨afterBytes?_eq M text moves, exists_divides_afterMoves M text moves, fun move =>
    ⟨_, _, rfl, performBytes?_eq M _ move, makes_perform M _ move⟩⟩

/-- The arrow has three bytes and is one character. Both ways of moving take it as a symbol and come to
    the same place behind it. -/
theorem afterMoves_spec_arrows :
    let arrows : SearchedMap Nat := ⟨[("↑", 0), ("↓", 1), ("", 2)],
      found? (PrefixMap.ofList [("↑", 0), ("↓", 1), ("", 2)] : Trie Nat), (measures_found? _).serves⟩
    let moves := [.identifier, .skipBlank, .symbol arrows, .skipBlank]
    afterBytes? "a ↑\tb".toList moves = some ⟨['b'], 4⟩ ∧
      ∃ consumed, Divides "a ↑\tb".toList ⟨['b'], 4⟩ consumed := by
  intro arrows moves
  have hafter : afterMoves Trie "a ↑\tb".toList moves = ⟨['b'], 4⟩ := by rfl
  obtain ⟨hbytes, hdivides, -⟩ := afterMoves_spec Trie "a ↑\tb".toList moves
  rw [hafter] at hbytes hdivides
  exact ⟨hbytes, hdivides⟩

end Cursor

end Sentential
