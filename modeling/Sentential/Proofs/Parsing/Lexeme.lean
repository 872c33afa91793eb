import Sentential.Formula.Rendering
import Sentential.Parsing.State
import Sentential.Proofs.Operator.Validated

namespace Sentential

/-- What kind of token may stand next: one that begins an operand, or one that follows an operand. -/
inductive Expectation where
  | operand
  | operator
  deriving DecidableEq

/-- What may stand behind a token. -/
def Token.expectation : Token → Expectation
  | operand _ => .operator
  | connective _ => .operand
  | opener _ => .operand
  | closer => .operator

/-- What the state of a reader expects. -/
def Due.expectation : Due → Expectation
  | operand => .operand
  | operator _ => .operator

/-- The token that an operator is. -/
def Operator.token : Operator → Token
  | connective c => .connective c
  | opener o => .opener o

/-- A token with the position of its first character. -/
structure Lexeme where
  token : Token
  position : Nat

/-- Where the tokens of a text end: at the end of the text, or at a character that begins no token
    that may stand there. -/
structure Stop where
  found : Option Char
  position : Nat

/-- A text cut into tokens. -/
structure Scan where
  lexemes : List Lexeme
  stop : Stop

namespace Scan

/-- The tokens without their positions. -/
def tokens (scan : Scan) : List Token :=
  scan.lexemes.map Lexeme.token

end Scan

namespace Cursor

variable {M : Type → Type} [PrefixMap M]

/-- Takes the token at the cursor. Where an operand is due that is an identifier or else a unary
    symbol, where an operator may stand a right parenthesis or else a binary symbol. -/
def token? (d : Dialect M) (expected : Expectation) (cursor : Cursor) : Option (Token × Cursor) :=
  match cursor.peek?, expected with
  | none, _ => none
  | some _, .operand =>
    match cursor.identifier? with
    | some (name, rest) => some (.operand (.ofIdentifier name), rest)
    | none => (cursor.symbol? d.unary).map fun (op, rest) => (op.token, rest)
  | some found, .operator =>
    if found = ')' then some (.closer, cursor.advance 1)
    else (cursor.symbol? d.binary).map fun (op, rest) => (op.token, rest)

/-- All ways in which a token can be taken. -/
inductive Takes (d : Dialect M) (cursor : Cursor) : Expectation → Token → Cursor → Prop where
  | identifier {name : String} {rest : Cursor} (hname : cursor.identifier? = some (name, rest)) :
    Takes d cursor .operand (.operand (.ofIdentifier name)) rest
  | unary {found : Char} {op : Operator} {rest : Cursor} (hpeek : cursor.peek? = some found)
    (hname : cursor.identifier? = none) (hsymbol : cursor.symbol? d.unary = some (op, rest)) :
    Takes d cursor .operand op.token rest
  | closer (hpeek : cursor.peek? = some ')') : Takes d cursor .operator .closer (cursor.advance 1)
  | binary {found : Char} {op : Operator} {rest : Cursor} (hpeek : cursor.peek? = some found)
    (hfound : found ≠ ')') (hsymbol : cursor.symbol? d.binary = some (op, rest)) :
    Takes d cursor .operator op.token rest

/-- A token is taken in one of the ways there are. Proofs about tokens have one case for each of them. -/
theorem takes_of_token? {d : Dialect M} {expected : Expectation} {cursor rest : Cursor} {t : Token}
    (h : cursor.token? d expected = some (t, rest)) : cursor.Takes d expected t rest := by
  unfold token? at h
  cases hpeek : cursor.peek? with
  | none => simp [hpeek] at h
  | some found =>
    cases expected with
    | operand =>
      simp only [hpeek] at h
      cases hname : cursor.identifier? with
      | some taken =>
        obtain ⟨name, behind⟩ := taken
        obtain ⟨rfl, rfl⟩ := by simpa [hname] using h
        exact .identifier hname
      | none =>
        obtain ⟨op, hsymbol, rfl⟩ := by simpa [hname] using h
        exact .unary hpeek hname hsymbol
    | operator =>
      simp only [hpeek] at h
      split at h
      · rename_i hcloser
        obtain ⟨rfl, rfl⟩ := by simpa using h
        exact .closer (hcloser ▸ hpeek)
      · rename_i hcloser
        obtain ⟨op, hsymbol, rfl⟩ := by simpa using h
        exact .binary hpeek hcloser hsymbol

/-- Taking a token takes at least one character, so cutting a text into tokens comes to an end. -/
theorem length_remaining_token? {d : Dialect M} {expected : Expectation} {cursor rest : Cursor}
    {t : Token} (h : cursor.token? d expected = some (t, rest)) :
    rest.remaining.length < cursor.remaining.length := by
  cases takes_of_token? h with
  | identifier hname => exact length_remaining_identifier? hname
  | unary hpeek _ hsymbol => exact length_remaining_symbol? hpeek hsymbol
  | closer hpeek => exact length_remaining_advance_lt hpeek Nat.one_pos
  | binary hpeek _ hsymbol => exact length_remaining_symbol? hpeek hsymbol

/-- Cuts the text ahead into tokens. The token before decides which kind may stand next. -/
def scan (d : Dialect M) (expected : Expectation) (cursor : Cursor) : Scan :=
  match _htoken : cursor.skipBlank.token? d expected with
  | some (t, rest) =>
    let behind := rest.scan d t.expectation
    ⟨⟨t, cursor.skipBlank.position⟩ :: behind.lexemes, behind.stop⟩
  | none => ⟨[], ⟨cursor.skipBlank.peek?, cursor.skipBlank.position⟩⟩
termination_by cursor.remaining.length
decreasing_by
  exact Nat.lt_of_lt_of_le (length_remaining_token? _htoken) (length_remaining_skipBlank_le cursor)

/-- Where there is a token, the cut goes on behind it. What is expected there is decided by the token. -/
theorem scan_of_token?_eq_some {d : Dialect M} {expected : Expectation} {cursor rest : Cursor}
    {t : Token} (h : cursor.skipBlank.token? d expected = some (t, rest)) :
    cursor.scan d expected = ⟨⟨t, cursor.skipBlank.position⟩ :: (rest.scan d t.expectation).lexemes,
      (rest.scan d t.expectation).stop⟩ := by
  rw [scan]
  split
  · rename_i found behind hfound
    obtain ⟨rfl, rfl⟩ := by simpa using h.symm.trans hfound
    rfl
  · rename_i hfound
    cases h.symm.trans hfound

/-- Where there is no token, the cut ends. It ends in front of a character that fits nowhere, or of
    none. -/
theorem scan_of_token?_eq_none {d : Dialect M} {expected : Expectation} {cursor : Cursor}
    (h : cursor.skipBlank.token? d expected = none) :
    cursor.scan d expected = ⟨[], ⟨cursor.skipBlank.peek?, cursor.skipBlank.position⟩⟩ := by
  rw [scan]
  split
  · rename_i found behind hfound
    cases h.symm.trans hfound
  · rfl

end Cursor

/-- The text cut into tokens from the start, where an operand is due. -/
def Dialect.scan {M : Type → Type} [PrefixMap M] (d : Dialect M) (text : List Char) : Scan :=
  (Cursor.ofList text).scan d .operand

/-- The tokens that may stand where an operand is due or behind one, if all connectives bind tighter
    than an open group. An opener behind an operand is none of them. -/
inductive Token.Stands : Expectation → Token → Prop where
  | operand (p : Proposition) : Stands .operand (.operand p)
  | unary {c : Connective} (hc : openPrecedence < c.precedence) : Stands .operand (.connective c)
  | opener (o : Opener) : Stands .operand (.opener o)
  | closer : Stands .operator .closer
  | binary {c : Connective} (hc : openPrecedence < c.precedence) : Stands .operator (.connective c)

/-- A sequence of tokens in which each stands where it may. -/
inductive Token.Orderly : Expectation → List Token → Prop where
  | nil (expected : Expectation) : Orderly expected []
  | cons {expected : Expectation} {t : Token} {rest : List Token} (ht : t.Stands expected)
    (hrest : Orderly t.expectation rest) : Orderly expected (t :: rest)

/-- Under a sound dialect a token that is taken stands where it may. Openers are never taken behind an
    operand. -/
theorem Cursor.stands_of_token? {M : Type → Type} [PrefixMap M] {d : Dialect M} (hd : d.Sound)
    {expected : Expectation} {cursor rest : Cursor} {t : Token}
    (h : cursor.token? d expected = some (t, rest)) : t.Stands expected := by
  cases takes_of_token? h with
  | identifier hname => exact .operand _
  | @unary _ op _ _ _ hsymbol =>
    obtain ⟨-, hrefusal⟩ := hd.unary hsymbol
    cases op with
    | connective c => exact .unary (Registry.refusal?_connective_eq_none_iff.1 hrefusal).1
    | opener o => exact .opener o
  | closer hpeek => exact .closer
  | binary _ _ hsymbol =>
    obtain ⟨c, rfl, hc⟩ := hd.connective_of_symbol? hsymbol
    exact .binary hc

/-- Under a sound dialect all tokens of a text stand where they may, from whatever place on. -/
theorem Cursor.orderly_scan {M : Type → Type} [PrefixMap M] {d : Dialect M} (hd : d.Sound)
    (expected : Expectation) (cursor : Cursor) :
    Token.Orderly expected (cursor.scan d expected).tokens := by
  cases htoken : cursor.skipBlank.token? d expected with
  | none =>
    rw [scan_of_token?_eq_none htoken]
    exact .nil expected
  | some taken =>
    obtain ⟨t, rest⟩ := taken
    rw [scan_of_token?_eq_some htoken]
    exact .cons (stands_of_token? hd htoken) (orderly_scan hd t.expectation rest)
termination_by cursor.remaining.length
decreasing_by
  exact Nat.lt_of_lt_of_le (length_remaining_token? htoken) (length_remaining_skipBlank_le cursor)

/-- Under a sound dialect all tokens of a text stand where they may, the first one in the place of an
    operand. Whether the text is a formula is not asked. -/
theorem Dialect.orderly_scan {M : Type → Type} [PrefixMap M] {d : Dialect M} (hd : d.Sound)
    (text : List Char) : Token.Orderly .operand (d.scan text).tokens :=
  Cursor.orderly_scan hd .operand (Cursor.ofList text)

end Sentential
