import Sentential.PrefixMap.Basic
import Sentential.Text.Alphabet

namespace Sentential

/-- A place in a text: what is still ahead, and how many characters lie behind. -/
structure Cursor where
  remaining : List Char
  position : Nat
  deriving DecidableEq, Repr

namespace Cursor

/-- The cursor at the start of a text. -/
def ofList (text : List Char) : Cursor :=
  ⟨text, 0⟩

/-- Moves over the next `n` characters. -/
def advance (cursor : Cursor) (n : Nat) : Cursor :=
  ⟨cursor.remaining.drop n, cursor.position + n⟩

/-- Moves over all blanks ahead. -/
def skipBlank (cursor : Cursor) : Cursor :=
  cursor.advance (cursor.remaining.takeWhile Text.isBlank).length

/-- The next character. -/
def peek? (cursor : Cursor) : Option Char :=
  cursor.remaining.head?

/-- Takes the next character. -/
def bump? (cursor : Cursor) : Option (Char × Cursor) :=
  cursor.peek?.map (·, cursor.advance 1)

/-- Takes the longest run of identifier characters ahead, if there is one. -/
def identifier? (cursor : Cursor) : Option (String × Cursor) :=
  match cursor.remaining.takeWhile Text.isIdentifierChar with
  | [] => none
  | name => some (String.ofList name, cursor.advance name.length)

/-- Takes the longest key of the map that begins what is ahead, and gives its value. The empty key is
    never taken, so a cursor that takes a key moves. -/
def symbol? {M : Type → Type} [PrefixMap M] {V : Type} (map : M V) (cursor : Cursor) :
    Option (V × Cursor) :=
  match PrefixMap.longest? map cursor.remaining with
  | some (key, value) => if key = "" then none else some (value, cursor.advance key.length)
  | none => none

/-- A move leaves that many characters fewer ahead, and none past the end of the text. -/
private theorem length_remaining_advance (cursor : Cursor) (n : Nat) :
    (cursor.advance n).remaining.length = cursor.remaining.length - n := by
  simp [advance]

/-- Skipping blanks leaves no more ahead than before. -/
theorem length_remaining_skipBlank_le (cursor : Cursor) :
    cursor.skipBlank.remaining.length ≤ cursor.remaining.length := by
  simp [skipBlank, length_remaining_advance]

/-- A move over at least one character, where there is one, leaves fewer ahead. This is what makes
    reading a text end. -/
theorem length_remaining_advance_lt {cursor : Cursor} {found : Char} {n : Nat}
    (hahead : cursor.peek? = some found) (hn : 0 < n) :
    (cursor.advance n).remaining.length < cursor.remaining.length := by
  rw [length_remaining_advance]
  have : cursor.remaining ≠ [] := by
    rintro h
    simp [peek?, h] at hahead
  have := List.length_pos_iff.2 this
  omega

/-- Taking an identifier takes at least one character. -/
theorem length_remaining_identifier? {cursor rest : Cursor} {name : String}
    (h : cursor.identifier? = some (name, rest)) :
    rest.remaining.length < cursor.remaining.length := by
  unfold identifier? at h
  split at h
  · cases h
  · rename_i hname
    obtain ⟨rfl, rfl⟩ := by simpa using h
    cases hr : cursor.remaining with
    | nil => simp [hr] at hname
    | cons c text =>
      rw [← hr]
      have hahead : cursor.peek? = some c := by simp [peek?, hr]
      exact length_remaining_advance_lt hahead (List.length_pos_iff.2 hname)

/-- Taking a symbol takes at least one character, because the empty key is not taken. Nothing is asked
    of the map, which may even be unlawful. -/
theorem length_remaining_symbol? {M : Type → Type} [PrefixMap M] {V : Type} {map : M V}
    {cursor rest : Cursor} {value : V} {found : Char} (hahead : cursor.peek? = some found)
    (h : cursor.symbol? map = some (value, rest)) :
    rest.remaining.length < cursor.remaining.length := by
  unfold symbol? at h
  split at h
  · rename_i key v hkey
    split at h
    · cases h
    · rename_i hne
      obtain ⟨rfl, rfl⟩ := by simpa using h
      refine length_remaining_advance_lt hahead ?_
      rcases Nat.eq_zero_or_pos key.length with hzero | hpos
      · exact absurd (String.length_eq_zero_iff.1 hzero) hne
      · exact hpos
  · cases h

end Cursor

end Sentential
