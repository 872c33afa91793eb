import Sentential.Parsed
import Sentential.Proofs.Parsing.Lexeme
import Sentential.Proofs.Parsing.Spine

namespace Sentential

namespace Numbering

/-- Numbers the node that a token is the symbol of. -/
def take (numbering : Numbering) : Token → Option NodeId × Numbering
  | .operand p => (some (numbering.leaf p.name).1, (numbering.leaf p.name).2)
  | .connective _ => (some numbering.operator.1, numbering.operator.2)
  | .opener _ => (some numbering.operator.1, numbering.operator.2)
  | .closer => (none, numbering)

/-- Numbers the nodes of tokens one after the other. -/
def takeAll (numbering : Numbering) : List Token → List (Option NodeId × Token) × Numbering
  | [] => ([], numbering)
  | t :: rest =>
    let behind := (numbering.take t).2.takeAll rest
    (((numbering.take t).1, t) :: behind.1, behind.2)

/-- Numbering keeps the tokens and their order. It only adds labels. -/
theorem map_snd_takeAll (numbering : Numbering) (ts : List Token) :
    (numbering.takeAll ts).1.map Prod.snd = ts := by
  induction ts generalizing numbering with
  | nil => rfl
  | cons t rest ih => rw [takeAll, List.map_cons, ih]

end Numbering

/-- What reading has made of the tokens so far. -/
structure Assembly where
  numbering : Numbering
  spine : Spine
  due : Due

namespace Assembly

/-- Nothing is read yet. -/
def start : Assembly :=
  ⟨Numbering.empty, [], .operand⟩

/-- The error at a character that fits nowhere, or at the end of the text. -/
def fault (a : Assembly) : Stop → SyntaxError
  | ⟨none, position⟩ => .unexpectedEnd position
  | ⟨some found, position⟩ =>
    match a.due with
    | .operand =>
      if found = ')' ∧ a.spine.hasGroup = false then .unmatchedRightParenthesis position
      else .unknownUnaryOperator found position
    | .operator _ => .unknownBinaryOperator found position

/-- Puts the next token in its place. A token that may not stand there is a fault at its first
    character. -/
def feed (a : Assembly) (l : Lexeme) : Except SyntaxError Assembly :=
  match a.due, l.token with
  | .operand, .operand p =>
    let (id, numbering) := a.numbering.leaf p.name
    .ok ⟨numbering, a.spine, .operator (.leaf id p)⟩
  | .operand, .connective c =>
    let (id, numbering) := a.numbering.operator
    .ok ⟨numbering, .unary id c :: a.spine, .operand⟩
  | .operand, .opener o =>
    let (id, numbering) := a.numbering.operator
    .ok ⟨numbering, .group id o :: a.spine, .operand⟩
  | .operator left, .closer =>
    match a.spine.close? left with
    | some (group, spine) => .ok ⟨a.numbering, spine, .operator group⟩
    | none => .error (.unmatchedRightParenthesis l.position)
  | .operator left, .connective c =>
    let (left, spine) := a.spine.climb c.precedence left
    let (id, numbering) := a.numbering.operator
    .ok ⟨numbering, .binary id c left :: spine, .operand⟩
  | .operator left, .opener o =>
    let (left, spine) := a.spine.climb openPrecedence left
    let (id, numbering) := a.numbering.operator
    .ok ⟨numbering, .regroup id o left :: spine, .operand⟩
  | _, t => .error (a.fault ⟨t.text.toList.head?, l.position⟩)

/-- The formula if the text may end here. -/
def finish (a : Assembly) (stop : Stop) : Except SyntaxError (Formula NodeId) :=
  match a.due, stop.found with
  | .operator left, none => .ok (a.spine.complete left)
  | _, _ => .error (a.fault stop)

/-- Puts tokens in their places one after the other and finishes where they end. -/
def read (stop : Stop) (a : Assembly) : List Lexeme → Except SyntaxError (Formula NodeId)
  | [] => a.finish stop
  | l :: rest =>
    match a.feed l with
    | .ok next => next.read stop rest
    | .error e => .error e

/-- All ways in which a token can be put in its place. -/
inductive Takes : Assembly → Token → Assembly → Prop where
  | operand (numbering : Numbering) (spine : Spine) (p : Proposition) :
    Takes ⟨numbering, spine, .operand⟩ (.operand p)
      ⟨(numbering.leaf p.name).2, spine, .operator (.leaf (numbering.leaf p.name).1 p)⟩
  | unary (numbering : Numbering) (spine : Spine) (c : Connective) :
    Takes ⟨numbering, spine, .operand⟩ (.connective c)
      ⟨numbering.operator.2, .unary numbering.operator.1 c :: spine, .operand⟩
  | group (numbering : Numbering) (spine : Spine) (o : Opener) :
    Takes ⟨numbering, spine, .operand⟩ (.opener o)
      ⟨numbering.operator.2, .group numbering.operator.1 o :: spine, .operand⟩
  | closer (numbering : Numbering) {spine outer : Spine} {left group : Formula NodeId}
    (hclose : spine.close? left = some (group, outer)) :
    Takes ⟨numbering, spine, .operator left⟩ .closer ⟨numbering, outer, .operator group⟩
  | binary (numbering : Numbering) (spine : Spine) (left : Formula NodeId) (c : Connective) :
    Takes ⟨numbering, spine, .operator left⟩ (.connective c)
      ⟨numbering.operator.2, .binary numbering.operator.1 c (spine.climb c.precedence left).1 ::
        (spine.climb c.precedence left).2, .operand⟩
  | regroup (numbering : Numbering) (spine : Spine) (left : Formula NodeId) (o : Opener) :
    Takes ⟨numbering, spine, .operator left⟩ (.opener o)
      ⟨numbering.operator.2, .regroup numbering.operator.1 o (spine.climb openPrecedence left).1 ::
        (spine.climb openPrecedence left).2, .operand⟩

/-- What is expected behind a token is decided by the token alone. The state in front of it plays no
    part. -/
theorem Takes.expectation_eq {a next : Assembly} {t : Token} (h : a.Takes t next) :
    next.due.expectation = t.expectation := by
  cases h <;> rfl

/-- A token is put in its place exactly in the ways there are. Later proofs go through these ways in
    place of the definition. -/
theorem feed_eq_ok_iff {a next : Assembly} {l : Lexeme} :
    a.feed l = .ok next ↔ a.Takes l.token next := by
  obtain ⟨numbering, spine, due⟩ := a
  obtain ⟨t, position⟩ := l
  constructor
  · intro h
    unfold feed at h
    cases due with
    | operand =>
      cases t with
      | operand p =>
        cases h
        exact .operand numbering spine p
      | connective c =>
        cases h
        exact .unary numbering spine c
      | opener o =>
        cases h
        exact .group numbering spine o
      | closer => cases h
    | operator left =>
      cases t with
      | operand p => cases h
      | connective c =>
        cases h
        exact .binary numbering spine left c
      | opener o =>
        cases h
        exact .regroup numbering spine left o
      | closer =>
        cases hclose : spine.close? left with
        | none => simp [hclose] at h
        | some closed =>
          obtain ⟨group, outer⟩ := closed
          obtain rfl := by simpa [hclose] using h
          exact .closer numbering hclose
  · intro h
    cases h with
    | closer _ hclose => simp [feed, hclose]
    | _ => rfl

/-- Puts a token in its place if it may stand there. -/
def take? (a : Assembly) (t : Token) : Option Assembly :=
  (a.feed ⟨t, 0⟩).toOption

/-- A token may be taken exactly in the ways there are. The position of the token plays no part in it. -/
theorem take?_eq_some_iff {a next : Assembly} {t : Token} :
    a.take? t = some next ↔ a.Takes t next := by
  rw [← feed_eq_ok_iff (l := ⟨t, 0⟩), take?]
  cases a.feed ⟨t, 0⟩ <;> simp [Except.toOption]

/-- Puts tokens in their places one after the other. -/
def takeAll? (a : Assembly) : List Token → Option Assembly
  | [] => some a
  | t :: rest => (a.take? t).bind fun next => next.takeAll? rest

/-- Some tokens can be put in their places and then some others, or all at once. -/
theorem takeAll?_append (a : Assembly) (ts rest : List Token) :
    a.takeAll? (ts ++ rest) = (a.takeAll? ts).bind fun next => next.takeAll? rest := by
  induction ts generalizing a with
  | nil => rfl
  | cons t ts ih =>
    rw [List.cons_append, takeAll?, takeAll?, Option.bind_assoc]
    congr 1
    funext next
    exact ih next

/-- What holds at the start and is kept by every token that stands where it may holds when all tokens
    are in their places. Every invariant of reading is proved with it from what one token keeps. -/
theorem invariant_of_takeAll? {P : Assembly → Prop}
    (hstep : ∀ {a next : Assembly} {t : Token}, P a → t.Stands a.due.expectation →
      a.Takes t next → P next)
    {ts : List Token} {a last : Assembly} (hts : Token.Orderly a.due.expectation ts) (ha : P a)
    (h : a.takeAll? ts = some last) : P last := by
  induction ts generalizing a with
  | nil =>
    obtain rfl := Option.some.inj h
    exact ha
  | cons t rest ih =>
    obtain ⟨next, htake, hrest⟩ := Option.bind_eq_some_iff.1 h
    have htakes := take?_eq_some_iff.1 htake
    cases hts with
    | cons ht htail =>
      rw [← htakes.expectation_eq] at htail
      exact ih htail (hstep ha ht htakes) hrest

/-- The tokens that are in their places. -/
def labelledTokens (a : Assembly) : List (Option NodeId × Token) :=
  match a.due with
  | .operand => a.spine.labelledTokens
  | .operator left => a.spine.labelledTokens ++ left.labelledTokens

/-- A token is labelled when it is put in its place. No other token is lost, doubled or moved when what
    was read before becomes its operand. -/
theorem Takes.labelledTokens_eq {a next : Assembly} {t : Token} (h : a.Takes t next) :
    next.labelledTokens = a.labelledTokens ++ [((a.numbering.take t).1, t)] ∧
      next.numbering = (a.numbering.take t).2 := by
  cases h with
  | operand numbering spine p => exact ⟨rfl, rfl⟩
  | unary numbering spine c => exact ⟨rfl, rfl⟩
  | group numbering spine o => exact ⟨rfl, rfl⟩
  | closer numbering hclose => exact ⟨Spine.labelledTokens_of_close? hclose, rfl⟩
  | binary numbering spine left c =>
    refine ⟨?_, rfl⟩
    simp [labelledTokens, Spine.labelledTokens, Frame.labelledTokens, Numbering.take,
      ← List.append_assoc, Spine.labelledTokens_climb]
  | regroup numbering spine left o =>
    refine ⟨?_, rfl⟩
    simp [labelledTokens, Spine.labelledTokens, Frame.labelledTokens, Numbering.take,
      ← List.append_assoc, Spine.labelledTokens_climb]

/-- The tokens in their places are those that were put there, in their order and with the labels that
    they got one after the other. This holds for any operators, also such as registration would refuse. -/
theorem labelledTokens_of_takeAll? {ts : List Token} {a last : Assembly}
    (h : a.takeAll? ts = some last) :
    last.labelledTokens = a.labelledTokens ++ (a.numbering.takeAll ts).1 := by
  induction ts generalizing a with
  | nil =>
    obtain rfl := Option.some.inj h
    exact (List.append_nil _).symm
  | cons t rest ih =>
    obtain ⟨next, htake, hrest⟩ := Option.bind_eq_some_iff.1 h
    obtain ⟨htokens, hnumbering⟩ := (take?_eq_some_iff.1 htake).labelledTokens_eq
    rw [ih hrest, htokens, hnumbering, List.append_assoc]
    rfl

private theorem finish_eq_ok_iff {a : Assembly} {stop : Stop} {f : Formula NodeId} :
    a.finish stop = .ok f ↔
      stop.found = none ∧ ∃ left, a.due = .operator left ∧ f = a.spine.complete left := by
  obtain ⟨numbering, spine, due⟩ := a
  obtain ⟨found, position⟩ := stop
  cases due <;> cases found <;> simp [finish, eq_comm]

/-- A text is read as a formula if its tokens can all be put in their places, the last one ends an
    operand, and nothing stands behind it. Groups may still be open then. -/
theorem read_eq_ok_iff {stop : Stop} {ls : List Lexeme} {a : Assembly} {f : Formula NodeId} :
    a.read stop ls = .ok f ↔ stop.found = none ∧ ∃ last left,
      a.takeAll? (ls.map Lexeme.token) = some last ∧ last.due = .operator left ∧
        f = last.spine.complete left := by
  induction ls generalizing a with
  | nil => simp [read, takeAll?, finish_eq_ok_iff]
  | cons l rest ih =>
    rw [read, List.map_cons, takeAll?]
    cases hfeed : a.feed l with
    | error e =>
      have hnone : a.take? l.token = none := by
        cases htake : a.take? l.token with
        | none => rfl
        | some next =>
          rw [feed_eq_ok_iff.2 (take?_eq_some_iff.1 htake)] at hfeed
          cases hfeed
      simp [hnone]
    | ok next =>
      rw [take?_eq_some_iff.2 (feed_eq_ok_iff.1 hfeed)]
      exact ih

end Assembly

namespace ParseState

variable {M : Type → Type} [PrefixMap M]

/-- The state without the cursor. -/
def assembly (s : ParseState) : Assembly :=
  ⟨s.numbering, s.spine, s.due⟩

/-- Where a step fails, reading fails. -/
theorem run_of_step_eq_error {d : Dialect M} {s : ParseState} {e : SyntaxError}
    (h : step d s = .error e) : run d s = .error e := by
  unfold run
  split <;> simp_all

/-- Where a step ends with a formula, reading does. -/
theorem run_of_step_eq_inl {d : Dialect M} {s : ParseState} {f : Formula NodeId}
    (h : step d s = .ok (.inl f)) : run d s = .ok f := by
  unfold run
  split <;> simp_all

/-- Where a step goes on, reading goes on behind it. These three equations stand in for the recursion,
    which is not structural. -/
theorem run_of_step_eq_inr {d : Dialect M} {s next : ParseState}
    (h : step d s = .ok (.inr next)) : run d s = run d next := by
  rw [run]
  split <;> simp_all

/-- A step takes one token off the text and puts it in its place. A fault in doing so is at the first
    character of the token. -/
theorem step_of_token?_eq_some {d : Dialect M} {s : ParseState} {t : Token} {rest : Cursor}
    (h : s.cursor.skipBlank.token? d s.due.expectation = some (t, rest)) :
    step d s = (s.assembly.feed ⟨t, s.cursor.skipBlank.position⟩).map fun a =>
      .inr ⟨rest, a.numbering, a.spine, a.due⟩ := by
  obtain ⟨cursor, numbering, spine, due⟩ := s
  unfold step
  unfold Cursor.token? at h
  cases hpeek : cursor.skipBlank.peek? with
  | none => simp [hpeek] at h
  | some found =>
    cases due with
    | operand =>
      simp only [hpeek, Due.expectation] at h
      simp only [stepOperand, hpeek, assembly]
      cases hname : cursor.skipBlank.identifier? with
      | some taken =>
        obtain ⟨name, behind⟩ := taken
        obtain ⟨rfl, rfl⟩ := by simpa [hname] using h
        simp [Assembly.feed, Except.map]
      | none =>
        obtain ⟨op, hsymbol, rfl⟩ := by simpa [hname] using h
        cases op <;> simp [hsymbol, Assembly.feed, Except.map, Operator.token, Frame.ofUnary]
    | operator left =>
      simp only [hpeek, Due.expectation] at h
      simp only [stepOperator, hpeek, assembly]
      by_cases hcloser : found = ')'
      · obtain ⟨rfl, rfl⟩ := by simpa [hcloser] using h
        cases hclose : spine.close? left <;> simp [hcloser, hclose, Assembly.feed, Except.map]
      · obtain ⟨op, hsymbol, rfl⟩ := by simpa [hcloser] using h
        cases op <;> simp [hcloser, hsymbol, Assembly.feed, Except.map, Operator.token,
          Operator.precedence, Frame.ofBinary]

/-- Where no token is, a step ends the reading: with the formula at the end of the text, or with the
    fault at the character that fits nowhere. -/
theorem step_of_token?_eq_none {d : Dialect M} {s : ParseState}
    (h : s.cursor.skipBlank.token? d s.due.expectation = none) :
    step d s = (s.assembly.finish ⟨s.cursor.skipBlank.peek?, s.cursor.skipBlank.position⟩).map
      .inl := by
  obtain ⟨cursor, numbering, spine, due⟩ := s
  unfold step
  unfold Cursor.token? at h
  cases hpeek : cursor.skipBlank.peek? with
  | none =>
    cases due <;> simp [stepOperand, hpeek, assembly, Assembly.finish, Assembly.fault, Except.map]
  | some found =>
    cases due with
    | operand =>
      simp only [hpeek, Due.expectation] at h
      simp only [stepOperand, hpeek, assembly]
      cases hname : cursor.skipBlank.identifier? with
      | some taken => simp [hname] at h
      | none =>
        have hsymbol : cursor.skipBlank.symbol? d.unary = none := by simpa [hname] using h
        simp only [hsymbol, Assembly.finish, Assembly.fault]
        split <;> rfl
    | operator left =>
      simp only [hpeek, Due.expectation] at h
      simp only [stepOperator, hpeek, assembly]
      by_cases hcloser : found = ')'
      · simp [hcloser] at h
      · have hsymbol : cursor.skipBlank.symbol? d.binary = none := by simpa [hcloser] using h
        simp [hcloser, hsymbol, Assembly.finish, Assembly.fault, Except.map]

/-- Reading a text is cutting it into tokens and putting these in their places. The induction is on the
    characters ahead. -/
theorem run_eq_read (d : Dialect M) (s : ParseState) :
    run d s = s.assembly.read (s.cursor.scan d s.due.expectation).stop
      (s.cursor.scan d s.due.expectation).lexemes := by
  cases htoken : s.cursor.skipBlank.token? d s.due.expectation with
  | none =>
    rw [Cursor.scan_of_token?_eq_none htoken, Assembly.read]
    have hstep := step_of_token?_eq_none htoken
    cases hfinish : s.assembly.finish ⟨s.cursor.skipBlank.peek?, s.cursor.skipBlank.position⟩ with
    | error e =>
      rw [hfinish] at hstep
      rw [run_of_step_eq_error hstep]
    | ok f =>
      rw [hfinish] at hstep
      rw [run_of_step_eq_inl hstep]
  | some taken =>
    obtain ⟨t, rest⟩ := taken
    rw [Cursor.scan_of_token?_eq_some htoken, Assembly.read]
    have hstep := step_of_token?_eq_some htoken
    cases hfeed : s.assembly.feed ⟨t, s.cursor.skipBlank.position⟩ with
    | error e =>
      rw [hfeed] at hstep
      rw [run_of_step_eq_error hstep]
    | ok a =>
      rw [hfeed] at hstep
      have hexpectation := (Assembly.feed_eq_ok_iff.1 hfeed).expectation_eq
      rw [run_of_step_eq_inr hstep, run_eq_read d ⟨rest, a.numbering, a.spine, a.due⟩]
      simp only [hexpectation]
      rfl
termination_by s.cursor.remaining.length
decreasing_by
  exact Nat.lt_of_lt_of_le (Cursor.length_remaining_token? htoken)
    (Cursor.length_remaining_skipBlank_le s.cursor)

end ParseState

/-- What a text is read as depends on its tokens and on where they end. All that is proved of formulas
    is proved of tokens because of it. -/
theorem parseWith_eq_read {M : Type → Type} [PrefixMap M] (d : Dialect M) (text : List Char) :
    parseWith d text =
      (Assembly.start.read (d.scan text).stop (d.scan text).lexemes).map Parsed.ofFormula := by
  rw [parseWith, ParseState.run_eq_read]
  rfl

/-- The accepted texts and what they are read as. Nothing is left behind the tokens, they can be put in
    their places, and the last of them ends an operand. -/
theorem parseWith_eq_ok_iff {M : Type → Type} [PrefixMap M] {d : Dialect M} {text : List Char}
    {p : Parsed} :
    parseWith d text = .ok p ↔ (d.scan text).stop.found = none ∧ ∃ last left,
      Assembly.start.takeAll? (d.scan text).tokens = some last ∧ last.due = .operator left ∧
        p = Parsed.ofFormula (last.spine.complete left) := by
  rw [parseWith_eq_read]
  constructor
  · intro h
    cases hread : Assembly.start.read (d.scan text).stop (d.scan text).lexemes with
    | error e => simp [hread, Except.map] at h
    | ok f =>
      obtain ⟨hstop, last, left, htake, hdue, rfl⟩ := Assembly.read_eq_ok_iff.1 hread
      obtain rfl := by simpa [hread, Except.map] using h
      exact ⟨hstop, last, left, htake, hdue, rfl⟩
  · rintro ⟨hstop, last, left, htake, hdue, rfl⟩
    rw [Assembly.read_eq_ok_iff.2 ⟨hstop, last, left, htake, hdue, rfl⟩]
    rfl

/-- That a text is read as a given formula can be decided by reading it. Equality of parses themselves
    is not decidable here. -/
theorem parseWith_eq_ok_ofFormula_iff {M : Type → Type} [PrefixMap M] {d : Dialect M}
    {text : List Char} {f : Formula NodeId} :
    parseWith d text = .ok (Parsed.ofFormula f) ↔
      ((ParseState.start text).run d).toOption = some f := by
  rw [parseWith]
  cases (ParseState.start text).run d with
  | error e => simp [Except.map, Except.toOption]
  | ok g =>
    simp only [Except.map, Except.toOption, Except.ok.injEq, Option.some.injEq]
    exact ⟨congrArg Parsed.formula, congrArg Parsed.ofFormula⟩

/-- What `a|!b&(c` stands for. -/
def Formula.openAtRight : Formula Unit :=
  .binary () ⟨"|", .binary, 10, Rule.ofFunction fun left right => left.getD false || right⟩
    (.leaf () (.atom "a"))
    (.binary () ⟨"&", .binary, 15, Rule.ofFunction fun left right => left.getD false && right⟩
      (.unary () ⟨"!", .unary, 1000, Rule.ofFunction fun _ right => !right⟩ (.leaf () (.atom "b")))
      (.group () ⟨"(", .unary⟩ false (.leaf () (.atom "c"))))

/-- The group that is open at the end of the text is the right operand of the conjunction. The
    conjunction binds tighter than the disjunction, and the negation tighter than both. -/
theorem parseWith_openAtRight :
    parseWith (Dialect.ofRegistry Registry.standard : Dialect PrefixMap.Trie) "a|!b&(c".toList =
      .ok (Parsed.ofFormula Formula.openAtRight.numbered) :=
  parseWith_eq_ok_ofFormula_iff.2 (by decide +kernel)

/-- A formula consists of the tokens of its text in their order, labelled in that order. It is the one
    fact about reading that numbers are derived from. -/
theorem labelledTokens_of_parseWith {M : Type → Type} [PrefixMap M] {d : Dialect M}
    {text : List Char} {p : Parsed} (h : parseWith d text = .ok p) :
    p.formula.labelledTokens = (Numbering.empty.takeAll (d.scan text).tokens).1 := by
  obtain ⟨-, last, left, htake, hdue, rfl⟩ := parseWith_eq_ok_iff.1 h
  have htokens := Assembly.labelledTokens_of_takeAll? htake
  rw [Assembly.labelledTokens, hdue] at htokens
  exact (Spine.labelledTokens_complete last.spine left).trans htokens

/-- A formula consists of the tokens of its text in their order. None is left out, and none is added. -/
theorem sourceTokens_of_parseWith {M : Type → Type} [PrefixMap M] {d : Dialect M} {text : List Char}
    {p : Parsed} (h : parseWith d text = .ok p) : p.formula.sourceTokens = (d.scan text).tokens := by
  rw [← Formula.map_snd_labelledTokens, labelledTokens_of_parseWith h, Numbering.map_snd_takeAll]

end Sentential
