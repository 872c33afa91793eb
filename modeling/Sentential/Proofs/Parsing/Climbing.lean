import Sentential.Proofs.Parsing.Assembly
import Sentential.Proofs.Parsing.Spine

namespace Sentential.Climbing

/-- A formula read off the front of some lexemes, the numbers given by then and the lexemes that are
    left, which are fewer than `bound`. -/
structure Excerpt (bound : Nat) where
  formula : Formula NodeId
  numbering : Numbering
  rest : List Lexeme
  length_rest_lt : rest.length < bound

/-- Whether a right parenthesis comes next. -/
def closes : List Lexeme → Bool
  | ⟨.closer, _⟩ :: _ => true
  | _ => false

/-- The error where an operand is due and none begins. Only inside a group can a right parenthesis
    be taken for an operator that is not known. -/
def operandFault (enclosed : Bool) : Stop → SyntaxError
  | ⟨none, position⟩ => .unexpectedEnd position
  | ⟨some found, position⟩ =>
    if found = ')' ∧ enclosed = false then .unmatchedRightParenthesis position
    else .unknownUnaryOperator found position

mutual

/-- Reads an operand, and goes on as long as binary operators follow that bind tighter than `floor`.
    `enclosed` tells whether this is inside a group. -/
def expression (stop : Stop) (enclosed : Bool) (floor : Int) (numbering : Numbering)
    (ls : List Lexeme) : Except SyntaxError (Excerpt ls.length) := do
  let first ← operand stop enclosed numbering ls
  let whole ← operators stop enclosed floor first.formula first.numbering first.rest
  return ⟨whole.formula, whole.numbering, whole.rest,
    by have := first.length_rest_lt; have := whole.length_rest_lt; omega⟩
termination_by (ls.length, 1)
decreasing_by
  · exact Prod.Lex.right _ Nat.one_pos
  · exact Prod.Lex.left _ _ first.length_rest_lt

/-- Reads an identifier, or a unary operator with the expression that it binds, or a group. A group
    is closed if a right parenthesis follows its body. -/
def operand (stop : Stop) (enclosed : Bool) (numbering : Numbering) (ls : List Lexeme) :
    Except SyntaxError (Excerpt ls.length) :=
  match ls with
  | [] => .error (operandFault enclosed stop)
  | ⟨.operand p, _⟩ :: rest =>
    .ok ⟨.leaf (numbering.leaf p.name).1 p, (numbering.leaf p.name).2, rest, Nat.lt_succ_self _⟩
  | ⟨.connective c, _⟩ :: rest => do
    let body ← expression stop enclosed c.precedence numbering.operator.2 rest
    return ⟨.unary numbering.operator.1 c body.formula, body.numbering, body.rest,
      Nat.lt_succ_of_lt body.length_rest_lt⟩
  | ⟨.opener o, _⟩ :: rest => do
    let body ← expression stop true openPrecedence numbering.operator.2 rest
    if closes body.rest then
      return ⟨.group numbering.operator.1 o true body.formula, body.numbering, body.rest.tail,
        by have := body.length_rest_lt; simp only [List.length_tail, List.length_cons]; omega⟩
    else
      return ⟨.group numbering.operator.1 o false body.formula, body.numbering, body.rest,
        Nat.lt_succ_of_lt body.length_rest_lt⟩
  | ⟨.closer, position⟩ :: _ => .error (operandFault enclosed ⟨some ')', position⟩)
termination_by (ls.length, 0)

/-- Goes on behind the operand `left`, which becomes the left operand of an operator that binds
    tighter than `floor`. Inside a group a right parenthesis ends the reading. -/
def operators (stop : Stop) (enclosed : Bool) (floor : Int) (left : Formula NodeId)
    (numbering : Numbering) (ls : List Lexeme) : Except SyntaxError (Excerpt (ls.length + 1)) :=
  match ls with
  | [] =>
    match stop.found with
    | some found => .error (.unknownBinaryOperator found stop.position)
    | none => .ok ⟨left, numbering, [], Nat.lt_succ_self _⟩
  | ⟨.connective c, position⟩ :: rest =>
    if floor < c.precedence then do
      let right ← expression stop enclosed c.precedence numbering.operator.2 rest
      let whole ← operators stop enclosed floor
        (.binary numbering.operator.1 c left right.formula) right.numbering right.rest
      return ⟨whole.formula, whole.numbering, whole.rest, by
        have := right.length_rest_lt
        have := whole.length_rest_lt
        simp only [List.length_cons]
        omega⟩
    else .ok ⟨left, numbering, ⟨.connective c, position⟩ :: rest, Nat.lt_succ_self _⟩
  | ⟨.closer, position⟩ :: rest =>
    if enclosed then .ok ⟨left, numbering, ⟨.closer, position⟩ :: rest, Nat.lt_succ_self _⟩
    else .error (.unmatchedRightParenthesis position)
  | ⟨t, position⟩ :: _ => .error (.unknownBinaryOperator (t.text.toList.headD ' ') position)
termination_by (ls.length, 0)
decreasing_by
  · exact Prod.Lex.left _ _ (Nat.lt_succ_self _)
  · exact Prod.Lex.left _ _ (Nat.lt_succ_of_lt right.length_rest_lt)

end

/-- Reads a whole text. -/
def read (scan : Scan) : Except SyntaxError (Formula NodeId) := do
  let whole ← expression scan.stop false wholePrecedence Numbering.empty scan.lexemes
  return whole.formula

@[simp] private theorem ok_bind {ε α β : Type} (a : α) (f : α → Except ε β) :
    (Except.ok a >>= f) = f a := rfl

@[simp] private theorem error_bind {ε α β : Type} (e : ε) (f : α → Except ε β) :
    (Except.error e >>= f) = .error e := rfl

/-- What is left to do when an operand has been read under a spine: each frame is a call that awaits
    its right operand. -/
def resume (stop : Stop) (spine : Spine) (left : Formula NodeId) (numbering : Numbering)
    (ls : List Lexeme) : Except SyntaxError (Formula NodeId) := do
  let part ← operators stop spine.hasGroup spine.floor left numbering ls
  match spine with
  | [] => return part.formula
  | frame :: rest =>
    if frame.isGroup && closes part.rest then
      resume stop rest (frame.fill true part.formula) part.numbering part.rest.tail
    else resume stop rest (frame.fill false part.formula) part.numbering part.rest

/-- Behind the end of the text all calls return, and groups that are open stay so. -/
private theorem resume_nil_of_none {stop : Stop} (hstop : stop.found = none) (spine : Spine)
    (left : Formula NodeId) (numbering : Numbering) :
    resume stop spine left numbering [] = .ok (spine.complete left) := by
  induction spine generalizing left with
  | nil =>
    rw [resume, operators, hstop]
    rfl
  | cons frame rest ih =>
    rw [resume, operators, hstop]
    simpa [closes, Spine.complete] using ih (frame.fill false left)

private theorem resume_nil_of_some {stop : Stop} {found : Char} (hstop : stop.found = some found)
    (spine : Spine) (left : Formula NodeId) (numbering : Numbering) :
    resume stop spine left numbering [] = .error (.unknownBinaryOperator found stop.position) := by
  rw [resume.eq_def, operators, hstop]
  rfl

/-- At a right parenthesis all calls return up to that of the innermost group. If there is none, the
    parenthesis is unmatched. -/
theorem resume_closer (stop : Stop) (position : Nat) (spine : Spine) (left : Formula NodeId)
    (numbering : Numbering) (ls : List Lexeme) :
    resume stop spine left numbering (⟨.closer, position⟩ :: ls) =
      match spine.close? left with
      | some (group, spine) => resume stop spine group numbering ls
      | none => .error (.unmatchedRightParenthesis position) := by
  induction spine generalizing left with
  | nil =>
    rw [resume, operators]
    rfl
  | cons frame rest ih =>
    rw [resume, operators, Spine.close?]
    cases hgroup : frame.isGroup with
    | true => simp [Spine.hasGroup, hgroup, closes]
    | false =>
      have hsame : Spine.hasGroup (frame :: rest) = Spine.hasGroup rest := by
        simp [Spine.hasGroup, hgroup]
      cases houter : Spine.hasGroup rest with
      | true => simpa [hsame, houter, hgroup] using ih (frame.fill false left)
      | false =>
        have hnone := Spine.isSome_close? (frame.fill false left) rest
        rw [houter, Option.isSome_eq_false_iff, Option.isNone_iff_eq_none] at hnone
        simp [hsame, houter, hnone]

/-- An operator that binds tighter than the spine takes the operand as its left one. A call for its
    right operand is made under the same calls as before. -/
theorem resume_connective_of_lt (stop : Stop) {c : Connective} {spine : Spine}
    (hc : spine.floor < c.precedence) (position : Nat) (left : Formula NodeId)
    (numbering : Numbering) (ls : List Lexeme) :
    resume stop spine left numbering (⟨.connective c, position⟩ :: ls) = (do
      let right ← expression stop spine.hasGroup c.precedence numbering.operator.2 ls
      resume stop spine (.binary numbering.operator.1 c left right.formula) right.numbering
        right.rest) := by
  rw [resume.eq_def, operators, if_pos hc]
  simp only [bind_assoc, pure_bind]
  congr 1
  funext right
  rw [resume.eq_def]

/-- A call that awaits its right operand goes on when the first part of it has been read. This is where
    a frame of the spine becomes a call. -/
theorem resume_cons (stop : Stop) (frame : Frame) (spine : Spine) (numbering : Numbering)
    (ls : List Lexeme) :
    (do
      let first ← operand stop (Spine.hasGroup (frame :: spine)) numbering ls
      resume stop (frame :: spine) first.formula first.numbering first.rest) = (do
        let body ← expression stop (Spine.hasGroup (frame :: spine)) frame.precedence numbering ls
        if frame.isGroup && closes body.rest then
          resume stop spine (frame.fill true body.formula) body.numbering body.rest.tail
        else resume stop spine (frame.fill false body.formula) body.numbering body.rest) := by
  rw [expression]
  simp only [bind_assoc, pure_bind]
  rfl

/-- The calls that an operator climbs over return to it. Climbing over frames is returning from calls. -/
theorem resume_climb (stop : Stop) (c : Connective) (position : Nat) (spine : Spine)
    (left : Formula NodeId) (numbering : Numbering) (ls : List Lexeme) :
    resume stop spine left numbering (⟨.connective c, position⟩ :: ls) =
      resume stop (spine.climb c.precedence left).2 (spine.climb c.precedence left).1 numbering
        (⟨.connective c, position⟩ :: ls) := by
  induction spine generalizing left with
  | nil => rfl
  | cons frame rest ih =>
    rw [Spine.climb]
    split
    · rename_i hclimb
      have hnot : ¬ Spine.floor (frame :: rest) < c.precedence := Int.not_lt.2 hclimb
      rw [← ih, resume, operators, if_neg hnot]
      simp [closes]
    · rfl

/-- What the recursive reader makes of the lexemes ahead. -/
def proceed (stop : Stop) (a : Assembly) (ls : List Lexeme) : Except SyntaxError (Formula NodeId) :=
  match a.due with
  | .operator left => resume stop a.spine left a.numbering ls
  | .operand => do
    let first ← operand stop a.spine.hasGroup a.numbering ls
    resume stop a.spine first.formula first.numbering first.rest

private theorem proceed_nil (stop : Stop) (a : Assembly) : proceed stop a [] = a.finish stop := by
  obtain ⟨numbering, spine, due⟩ := a
  obtain ⟨found, position⟩ := stop
  cases due with
  | operand =>
    rw [proceed, operand]
    cases found <;> rfl
  | operator left =>
    rw [proceed]
    cases found with
    | none => exact resume_nil_of_none rfl spine left numbering
    | some found => exact resume_nil_of_some rfl spine left numbering

/-- A token leads to the same calls whether it is read by recursion or put in its place. It is the one
    step of the simulation, with one case for each way of taking a token. -/
theorem proceed_cons (stop : Stop) {a : Assembly} {l : Lexeme}
    (hl : l.token.Stands a.due.expectation) (ls : List Lexeme) :
    proceed stop a (l :: ls) = match a.feed l with
      | .ok next => proceed stop next ls
      | .error e => .error e := by
  obtain ⟨numbering, spine, due⟩ := a
  obtain ⟨t, position⟩ := l
  cases due with
  | operand =>
    cases hl with
    | operand p =>
      rw [proceed, operand]
      rfl
    | @unary c hc =>
      rw [proceed, operand]
      simp only [bind_assoc, pure_bind]
      exact (resume_cons stop (.unary numbering.operator.1 c) spine numbering.operator.2 ls).symm
    | opener o =>
      rw [proceed, operand]
      refine Eq.trans ?_
        (resume_cons stop (.group numbering.operator.1 o) spine numbering.operator.2 ls).symm
      simp only [bind_assoc]
      congr 1
      funext body
      cases closes body.rest <;> simp [Frame.isGroup, Frame.fill]
  | operator left =>
    cases hl with
    | closer =>
      simp only [proceed, Assembly.feed, resume_closer]
      cases spine.close? left <;> rfl
    | @binary c hc =>
      have hfloor := Spine.floor_climb_lt (Int.lt_trans (by decide) hc) spine left
      have hcall := resume_cons stop
        (.binary numbering.operator.1 c (spine.climb c.precedence left).1)
        (spine.climb c.precedence left).2 numbering.operator.2 ls
      simp only [proceed]
      rw [resume_climb, resume_connective_of_lt stop hfloor]
      exact hcall.symm

private theorem read_eq_proceed (stop : Stop) (ls : List Lexeme) (a : Assembly)
    (hls : Token.Orderly a.due.expectation (ls.map Lexeme.token)) :
    a.read stop ls = proceed stop a ls := by
  induction ls generalizing a with
  | nil => exact (proceed_nil stop a).symm
  | cons l rest ih =>
    cases hls with
    | cons hl hrest =>
      rw [Assembly.read, proceed_cons stop hl]
      cases hfeed : a.feed l with
      | error e => rfl
      | ok next =>
        rw [← (Assembly.feed_eq_ok_iff.1 hfeed).expectation_eq] at hrest
        exact ih next hrest

private theorem read_eq_proceed_start (scan : Scan) :
    read scan = proceed scan.stop Assembly.start scan.lexemes := by
  simp only [read, proceed, Assembly.start]
  rw [expression]
  simp only [bind_assoc, pure_bind]
  rfl

/-- The spine is the stack of the calls that recursive precedence climbing would have open: under a
    validated registry, every text is read as the recursive reader reads it, with the same numbers and
    up to the same error at the same character. The recursive reader has no spine and no state but the
    numbers given so far. -/
theorem parseWith_eq_read_climbing {M : Type → Type} [PrefixMap M] [LawfulPrefixMap M] {r : Registry}
    (hr : r.Validated) (text : List Char) :
    parseWith (Dialect.ofRegistry r : Dialect M) text =
      (read ((Dialect.ofRegistry r : Dialect M).scan text)).map Parsed.ofFormula := by
  have hsound : (Dialect.ofRegistry r : Dialect M).Sound := Dialect.sound_ofRegistry hr
  have hread := read_eq_proceed ((Dialect.ofRegistry r : Dialect M).scan text).stop
    ((Dialect.ofRegistry r : Dialect M).scan text).lexemes Assembly.start
    (Dialect.orderly_scan hsound text)
  rw [parseWith_eq_read, hread, read_eq_proceed_start]

/-- Implication as an operator of more than one character. -/
def arrow : Operator :=
  .connective ⟨"->", .binary, 7, Rule.ofFunction fun left right => !left.getD false || right⟩

/-- A registered operator of two characters, a negation in front of a group, and a group in a group.
    There are blanks between tokens. -/
theorem parseWith_eq_read_climbing_arrow :
    (Registry.standard.put arrow).Validated ∧
      parseWith (Dialect.ofRegistry (Registry.standard.put arrow) : Dialect PrefixMap.Trie)
          "!(a -> b & c -> (d".toList =
        (read ((Dialect.ofRegistry (Registry.standard.put arrow) : Dialect PrefixMap.Trie).scan
          "!(a -> b & c -> (d".toList)).map Parsed.ofFormula := by
  have hregister : Registry.standard.register arrow =
      .ok ((Registry.standard.lookup "->" .binary).toOption, Registry.standard.put arrow) := rfl
  have hvalidated := Registry.Validated.register .standard hregister
  exact ⟨hvalidated, parseWith_eq_read_climbing hvalidated _⟩

end Sentential.Climbing
