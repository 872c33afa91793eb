import Sentential.Proofs.Parsing.Depth
import Sentential.Proofs.Parsing.Plain

namespace Sentential

/-- A token is the same in front of another text, unless that goes on with its identifier. The front
    that the token takes is the same as well. -/
theorem Token.Begins.exists_front {known : Operator → Prop} {t : Token} {text rest : List Char}
    (h : t.Begins known text rest) : ∃ front, front ≠ [] ∧ text = front ++ rest ∧
      ∀ other : List Char, (t.expectation = .operator → ∀ c ∈ other.head?,
        c ∈ rest.head? ∨ Text.isIdentifierChar c = false) → t.Begins known (front ++ other) other := by
  cases h with
  | @identifier name rest hname hrun hend =>
    refine ⟨name, hname, rfl, fun other hother => .identifier hname hrun fun c hc => ?_⟩
    exact (hother rfl c hc).elim (hend c) id
  | @symbol op hop hsymbol rest =>
    have hne : op.symbol.toList ≠ [] := fun hnil => hsymbol (String.toList_eq_nil_iff.1 hnil)
    exact ⟨_, hne, rfl, fun other _ => .symbol hop hsymbol other⟩
  | closer rest => exact ⟨[')'], List.cons_ne_nil _ _, rfl, fun other _ => .closer other⟩

/-- Some tokens are the same in front of another text, unless that goes on with an identifier at their
    end. This is what makes an error depend on nothing behind it. -/
theorem Spells.exists_front {known : Operator → Prop} {r : Registry} {text rest : List Char}
    {ts : List Token} (h : Spells known text ts rest) {expected last : Expectation}
    (hleads : r.Leads expected ts last) : ∃ front, (front = [] → ts = []) ∧ text = front ++ rest ∧
      ∀ other : List Char, (last = .operator → ∀ c ∈ other.head?,
        c ∈ rest.head? ∨ Text.isIdentifierChar c = false) → Spells known (front ++ other) ts other := by
  induction h generalizing expected with
  | done rest => exact ⟨[], fun _ => rfl, rfl, fun other _ => .done other⟩
  | @blank c text rest ts hc _ ih =>
    obtain ⟨front, -, rfl, hreplace⟩ := ih hleads
    exact ⟨c :: front, fun hnil => absurd hnil (List.cons_ne_nil _ _), rfl, fun other hother =>
      .blank hc (hreplace other hother)⟩
  | @token text middle rest t ts ht _ ih =>
    cases hleads with
    | cons hoffers hbehind =>
      obtain ⟨own, hne, rfl, hbegins⟩ := ht.exists_front
      obtain ⟨front, hempty, rfl, hreplace⟩ := ih hbehind
      refine ⟨own ++ front, fun hnil => absurd (List.append_eq_nil_iff.1 hnil).1 hne,
        (List.append_assoc ..).symm, fun other hother => ?_⟩
      rw [List.append_assoc]
      refine .token (hbegins _ fun hexpectation c hc => ?_) (hreplace other hother)
      -- If nothing stands between the token and the other text, the token is the last one.
      cases front with
      | nil =>
        obtain rfl := hempty rfl
        cases hbehind
        exact hother hexpectation c hc
      | cons first others => exact .inl hc

/-- A right parenthesis is no symbol. -/
private theorem Registry.Plain.getElem?_unary_closer {r : Registry} (hplain : r.Plain) (hr : r.Sound) :
    r.unary[String.singleton ')']? = none := by
  cases hfound : r.unary[String.singleton ')']? with
  | none => rfl
  | some op =>
    have hsymbol := (hr.unary _ _ hfound).1
    obtain ⟨c, hc, -, -, hcloser⟩ := hplain op (.inl (hsymbol ▸ hfound))
    rw [hsymbol, String.toList_singleton] at hc
    exact absurd (List.singleton_inj.1 hc).symm hcloser

namespace ParseState

/-- The errors at a character that fits nowhere. -/
inductive Misfit (r : Registry) (spine : Spine) (c : Char) (position : Nat) :
    Expectation → SyntaxError → Prop where
  | operand (hname : Text.isIdentifierChar c = false)
    (hsymbol : r.unary[String.singleton c]? = none) (hcloser : c = ')' → spine.hasGroup = true) :
    Misfit r spine c position .operand (.unknownUnaryOperator c position)
  | operator (hsymbol : r.binary[String.singleton c]? = none) (hcloser : c ≠ ')') :
    Misfit r spine c position .operator (.unknownBinaryOperator c position)
  | unmatched (expected : Expectation) (hcloser : c = ')') (hgroup : spine.hasGroup = false) :
    Misfit r spine c position expected (.unmatchedRightParenthesis position)

end ParseState

section

variable {M : Type → Type} [PrefixMap M] {r : Registry}

namespace ParseState

private theorem step_nil_eq_error_iff {d : Dialect M} {position : Nat} {numbering : Numbering}
    {spine : Spine} {due : Due} {e : SyntaxError} :
    step d ⟨⟨[], position⟩, numbering, spine, due⟩ = .error e ↔
      due = .operand ∧ e = .unexpectedEnd position := by
  cases due with
  | operand => simp [step, stepOperand, Cursor.skipBlank, Cursor.advance, Cursor.peek?, Except.map, eq_comm]
  | operator left => simp [step, Cursor.skipBlank, Cursor.advance, Cursor.peek?]

variable [LawfulPrefixMap M]

private theorem stepOperand_cons_eq_error_iff (hplain : r.Plain) (hr : r.Sound) {c : Char}
    {rest : List Char} {position : Nat} {numbering : Numbering} {spine : Spine} {e : SyntaxError} :
    stepOperand (Dialect.ofRegistry r : Dialect M) ⟨c :: rest, position⟩ numbering spine = .error e ↔
      Misfit r spine c position .operand e := by
  have hpeek : Cursor.peek? ⟨c :: rest, position⟩ = some c := rfl
  have hcloser := hplain.getElem?_unary_closer hr
  have hsymbol := hplain.symbol?_unary (M := M) hr c rest position
  unfold stepOperand
  cases hname : Text.isIdentifierChar c with
  | true =>
    cases hidentifier : Cursor.identifier? ⟨c :: rest, position⟩ with
    | none => cases hname.symm.trans (Cursor.identifier?_eq_none_iff.1 hidentifier c rfl)
    | some taken =>
      simp only [hpeek, reduceCtorEq, false_iff]
      intro h
      cases h with
      | operand hother _ _ => cases hname.symm.trans hother
      | unmatched _ hc _ =>
        subst hc
        cases hname
  | false =>
    have hidentifier : Cursor.identifier? ⟨c :: rest, position⟩ = none :=
      Cursor.identifier?_eq_none_iff.2 fun other hother => Option.some.inj hother ▸ hname
    simp only [hpeek, hidentifier, hsymbol]
    cases hfound : r.unary[String.singleton c]? with
    | some op =>
      simp only [Option.map_some, reduceCtorEq, false_iff]
      intro h
      cases h with
      | operand _ hnone _ => cases hfound.symm.trans hnone
      | unmatched _ hc _ => cases (hc ▸ hfound).symm.trans hcloser
    | none =>
      simp only [Option.map_none]
      split
      · rename_i hunmatched
        rw [Except.error.injEq]
        constructor
        · rintro rfl
          exact .unmatched _ hunmatched.1 hunmatched.2
        · intro h
          cases h with
          | operand _ _ hgroup => cases hunmatched.2.symm.trans (hgroup hunmatched.1)
          | unmatched _ _ _ => rfl
      · rename_i hunmatched
        rw [Except.error.injEq]
        constructor
        · rintro rfl
          refine .operand hname hfound fun hc => ?_
          rw [← Bool.not_eq_false]
          exact fun hgroup => hunmatched ⟨hc, hgroup⟩
        · intro h
          cases h with
          | operand _ _ _ => rfl
          | unmatched _ hc hgroup => exact absurd ⟨hc, hgroup⟩ hunmatched

private theorem stepOperator_cons_eq_error_iff (hplain : r.Plain) (hr : r.Sound) {c : Char}
    {rest : List Char} {position : Nat} {numbering : Numbering} {spine : Spine} {left : Formula NodeId}
    {e : SyntaxError} :
    stepOperator (Dialect.ofRegistry r : Dialect M) c ⟨c :: rest, position⟩ numbering spine left =
      .error e ↔ Misfit r spine c position .operator e := by
  have hsymbol := hplain.symbol?_binary (M := M) hr c rest position
  unfold stepOperator
  by_cases hc : c = ')'
  · rw [if_pos hc]
    have hgroup := spine.isSome_close? left
    cases hclose : spine.close? left with
    | none =>
      rw [hclose] at hgroup
      simp only [Except.error.injEq]
      constructor
      · rintro rfl
        exact .unmatched _ hc hgroup.symm
      · intro h
        cases h with
        | operator _ hother => exact absurd hc hother
        | unmatched _ _ _ => rfl
    | some closed =>
      rw [hclose] at hgroup
      simp only [reduceCtorEq, false_iff]
      intro h
      cases h with
      | operator _ hother => exact hother hc
      | unmatched _ _ hnone => cases hgroup.trans hnone
  · rw [if_neg hc, hsymbol]
    cases hfound : r.binary[String.singleton c]? with
    | some op =>
      simp only [Option.map_some, reduceCtorEq, false_iff]
      intro h
      cases h with
      | operator hnone _ => cases hfound.symm.trans hnone
      | unmatched _ hother _ => exact hc hother
    | none =>
      simp only [Option.map_none, Except.error.injEq]
      constructor
      · rintro rfl
        exact .operator hfound hc
      · intro h
        cases h with
        | operator _ _ => rfl
        | unmatched _ hother _ => exact absurd hother hc

/-- Under a plain registry, whether a character fits depends on nothing behind it. All symbols are
    single characters there, so none of them can begin in one place and turn out wrong in another. -/
theorem step_cons_eq_error_iff (hplain : r.Plain) (hr : r.Sound) {c : Char}
    (hc : Text.isBlank c = false) {rest : List Char} {position : Nat} {numbering : Numbering}
    {spine : Spine} {due : Due} {e : SyntaxError} :
    step (Dialect.ofRegistry r : Dialect M) ⟨⟨c :: rest, position⟩, numbering, spine, due⟩ =
      .error e ↔ Misfit r spine c position due.expectation e := by
  have hskip : Cursor.skipBlank ⟨c :: rest, position⟩ = ⟨c :: rest, position⟩ :=
    Cursor.skipBlank_of_head? fun other hother => Option.some.inj hother ▸ hc
  have hpeek : Cursor.peek? ⟨c :: rest, position⟩ = some c := rfl
  cases due with
  | operand =>
    have hiff : stepOperand (Dialect.ofRegistry r : Dialect M) ⟨c :: rest, position⟩ numbering spine =
        .error e ↔ Misfit r spine c position .operand e :=
      stepOperand_cons_eq_error_iff hplain hr
    rw [Due.expectation, ← hiff]
    simp only [step, hskip]
    cases stepOperand (Dialect.ofRegistry r : Dialect M) ⟨c :: rest, position⟩ numbering spine <;>
      simp [Except.map]
  | operator left =>
    have hiff : stepOperator (Dialect.ofRegistry r : Dialect M) c ⟨c :: rest, position⟩ numbering
        spine left = .error e ↔ Misfit r spine c position .operator e :=
      stepOperator_cons_eq_error_iff hplain hr
    rw [Due.expectation, ← hiff]
    simp only [step, hskip, hpeek]
    cases stepOperator (Dialect.ofRegistry r : Dialect M) c ⟨c :: rest, position⟩ numbering spine left <;>
      simp [Except.map]

section

variable {spine : Spine} {c : Char} {position : Nat} {expected : Expectation} {e : SyntaxError}

/-- The error at a character is reported at its position. All kinds of errors count characters in the
    same way. -/
theorem Misfit.position_eq (h : Misfit r spine c position expected e) : e.position = position := by
  cases h <;> rfl

private theorem Misfit.eq_of_mem_found? (h : Misfit r spine c position expected e) {found : Char}
    (hfound : found ∈ e.found?) : found = c := by
  cases h with
  | operand _ _ _ => exact (Option.some.inj hfound).symm
  | operator _ _ => exact (Option.some.inj hfound).symm
  | unmatched _ _ _ => cases hfound

private theorem Misfit.ne_unexpectedEnd (h : Misfit r spine c position expected e) (other : Nat) :
    e ≠ .unexpectedEnd other := by
  rintro rfl
  cases h

/-- A right parenthesis is unmatched where no group is open, and nothing else is. -/
private theorem Misfit.eq_unmatched_iff (h : Misfit r spine c position expected e) :
    e = .unmatchedRightParenthesis position ↔ c = ')' ∧ spine.hasGroup = false := by
  cases h with
  | operand hname hsymbol hcloser =>
    simp only [reduceCtorEq, false_iff]
    exact fun ⟨hc, hgroup⟩ => by cases hgroup.symm.trans (hcloser hc)
  | operator hsymbol hcloser =>
    simp only [reduceCtorEq, false_iff]
    exact fun ⟨hc, _⟩ => hcloser hc
  | unmatched _ hcloser hgroup => exact ⟨fun _ => ⟨hcloser, hgroup⟩, fun _ => rfl⟩

/-- Where a group is open, a right parenthesis fits anywhere but in the place of an operand. -/
private theorem Misfit.eq_unknownUnaryOperator (h : Misfit r spine ')' position expected e)
    (hgroup : spine.hasGroup ≠ false) :
    expected = .operand ∧ e = .unknownUnaryOperator ')' position := by
  cases h with
  | operand _ _ _ => exact ⟨rfl, rfl⟩
  | operator _ hcloser => exact absurd rfl hcloser
  | unmatched _ _ hnone => exact absurd hnone hgroup

end

/-- The cursor is at a place of the text and counts the characters in front of it. What was read is that
    front, with blanks in it. -/
theorem Reads.exists_front {text : List Char} {ts : List Token} {last : ParseState}
    (h : (start text).Reads r ts last) : ∃ front,
      text = front ++ last.cursor.remaining ∧ last.cursor.position = front.length := by
  obtain ⟨front, -, htext, -⟩ := h.spells.exists_front h.leads
  refine ⟨front, htext, ?_⟩
  have htotal : last.cursor.total = text.length := h.total.trans (Nat.zero_add _)
  have hlength : text.length = front.length + last.cursor.remaining.length :=
    (congrArg List.length htext).trans List.length_append
  rw [Cursor.total] at htotal
  omega

/-- What was read of a text stands in every other text that begins in the same way. The other text may
    differ in the very next character, if that does not make an identifier longer. -/
theorem Reads.spells_front {text front : List Char} {ts : List Token} {last : ParseState}
    (h : (start text).Reads r ts last) (htext : text = front ++ last.cursor.remaining)
    {other : List Char} (hother : last.due.expectation = .operator → ∀ c ∈ other.head?,
      c ∈ last.cursor.remaining.head? ∨ Text.isIdentifierChar c = false) :
    Spells r.Knows (front ++ other) ts other := by
  obtain ⟨own, -, hown, hreplace⟩ := h.spells.exists_front h.leads
  obtain rfl : own = front := List.append_cancel_right (hown.symm.trans htext)
  exact hreplace other hother

private theorem Reads.run_front (hplain : r.Plain) (hr : r.Sound) {text front : List Char}
    {ts : List Token} {last : ParseState} (h : (start text).Reads r ts last)
    (htext : text = front ++ last.cursor.remaining) {other : List Char}
    (hother : last.due.expectation = .operator → ∀ c ∈ other.head?,
      c ∈ last.cursor.remaining.head? ∨ Text.isIdentifierChar c = false) :
    run (Dialect.ofRegistry r : Dialect M) (start (front ++ other)) =
      run (Dialect.ofRegistry r : Dialect M) { last with cursor := ⟨other, front.length⟩ } := by
  refine run_of_reads hplain hr ⟨h.spells_front htext hother, h.leads, h.taken, ?_⟩
  simp [Cursor.total, start, Cursor.ofList]

section

variable {text front : List Char} {ts : List Token} {last : ParseState}

/-- What was read of a text is a formula by itself if an operator is due behind it. Groups that are open
    then stay so. -/
theorem Reads.parseWith_front (hplain : r.Plain) (hr : r.Sound) (h : (start text).Reads r ts last)
    (htext : text = front ++ last.cursor.remaining) {left : Formula NodeId}
    (hdue : last.due = .operator left) :
    parseWith (Dialect.ofRegistry r : Dialect M) front =
      .ok (Parsed.ofFormula (last.spine.complete left)) := by
  have hspells : Spells r.Knows (front ++ []) ts [] := h.spells_front htext (by simp)
  have hleads := h.leads
  rw [List.append_nil] at hspells
  rw [hdue] at hleads
  exact parseWith_of_spells hplain hr hspells hleads h.taken hdue

private theorem Reads.parseWith_front_eq_error (hplain : r.Plain) (hr : r.Sound)
    (h : (start text).Reads r ts last) (htext : text = front ++ last.cursor.remaining)
    (hdue : last.due = .operand) :
    parseWith (Dialect.ofRegistry r : Dialect M) front = .error (.unexpectedEnd front.length) := by
  have hrun : run (Dialect.ofRegistry r : Dialect M) (start (front ++ [])) = _ :=
    h.run_front hplain hr htext (by simp)
  have hstep : step (Dialect.ofRegistry r : Dialect M) { last with cursor := ⟨[], front.length⟩ } =
      .error (.unexpectedEnd front.length) :=
    step_nil_eq_error_iff.2 ⟨hdue, rfl⟩
  rw [List.append_nil] at hrun
  rw [parseWith, hrun, run_of_step_eq_error hstep]
  rfl

/-- If an operand is due, an identifier completes what was read. An operand that is missing is thus the
    only thing that is missing. -/
theorem Reads.exists_parseWith_append (hplain : r.Plain) (hr : r.Sound)
    (h : (start text).Reads r ts last) (htext : text = front ++ last.cursor.remaining)
    (hdue : last.due = .operand) :
    ∃ p, parseWith (Dialect.ofRegistry r : Dialect M) (front ++ ['a']) = .ok p := by
  obtain ⟨cursor, numbering, spine, due⟩ := last
  obtain rfl := hdue
  have hrun : run (Dialect.ofRegistry r : Dialect M) (start (front ++ ['a'])) = _ :=
    h.run_front hplain hr htext fun hoperator => by cases hoperator
  have hstep : step (Dialect.ofRegistry r : Dialect M)
      ⟨⟨['a'], front.length⟩, numbering, spine, .operand⟩ =
        .ok (.inr ⟨⟨[], front.length + 1⟩, (numbering.leaf "a").2, spine,
          .operator (.leaf (numbering.leaf "a").1 (.ofIdentifier "a"))⟩) := rfl
  have hend : step (Dialect.ofRegistry r : Dialect M)
      ⟨⟨[], front.length + 1⟩, (numbering.leaf "a").2, spine,
        .operator (.leaf (numbering.leaf "a").1 (.ofIdentifier "a"))⟩ = .ok (.inl _) :=
    step_eq_ok_inl_iff.2 ⟨rfl, _, rfl, rfl⟩
  rw [parseWith, hrun, run_of_step_eq_inr hstep, run_of_step_eq_inl hend]
  exact ⟨_, rfl⟩

end

/-- A text that is no formula is read up to its end, where an operand is due, or up to a character that
    fits nowhere. All errors are one of these two. -/
theorem exists_reads_of_parseWith_eq_error (hplain : r.Plain) (hr : r.Sound) {text : List Char}
    {e : SyntaxError} (h : parseWith (Dialect.ofRegistry r : Dialect M) text = .error e) :
    ∃ ts last front, (start text).Reads r ts last ∧ text = front ++ last.cursor.remaining ∧
      (last.cursor.remaining = [] ∧ last.due = .operand ∧ e = .unexpectedEnd front.length ∨
        ∃ c rest, last.cursor.remaining = c :: rest ∧ Text.isBlank c = false ∧
          Misfit r last.spine c front.length last.due.expectation e) := by
  obtain ⟨ts, last, hreads, hblank, houtcome⟩ := exists_reads (M := M) hr (start text)
  obtain ⟨front, htext, hposition⟩ := hreads.exists_front
  refine ⟨ts, last, front, hreads, htext, ?_⟩
  rw [parseWith] at h
  cases hrun : (start text).run (Dialect.ofRegistry r : Dialect M) with
  | ok f => simp [hrun, Except.map] at h
  | error other =>
    obtain rfl := by simpa [hrun, Except.map] using h
    rw [hrun] at houtcome
    obtain ⟨⟨remaining, position⟩, numbering, spine, due⟩ := last
    obtain rfl : position = front.length := hposition
    cases remaining with
    | nil =>
      obtain ⟨hdue, he⟩ := step_nil_eq_error_iff.1 houtcome
      exact .inl ⟨rfl, hdue, he⟩
    | cons c rest =>
      have hc := hblank c rfl
      exact .inr ⟨c, rest, rfl, hc, (step_cons_eq_error_iff hplain hr hc).1 houtcome⟩

end ParseState

/-- What an error at a character tells of the text. No text that begins in the same way, with that
    character, is a formula. What stands in front of it is one, or is one with an identifier
    behind it. -/
structure FailsAt (d : Dialect M) (text : List Char) (e : SyntaxError) (found : Char) : Prop where
  getElem?_position : text[e.position]? = some found
  isBlank_eq_false : Text.isBlank found = false
  eq_of_mem_found? : ∀ c ∈ e.found?, c = found
  parseWith_eq_error : ∀ other : List Char,
    other.take (e.position + 1) = text.take (e.position + 1) → parseWith d other = .error e
  exists_parseWith_eq_ok : (∃ p, parseWith d (text.take e.position) = .ok p) ∨
    ∃ p, parseWith d (text.take e.position ++ ['a']) = .ok p

private theorem ParseState.Misfit.failsAt [LawfulPrefixMap M] (hplain : r.Plain) (hr : r.Sound)
    {text front : List Char} {ts : List Token} {last : ParseState}
    (hreads : (start text).Reads r ts last) (htext : text = front ++ last.cursor.remaining) {c : Char}
    {rest : List Char} (hremaining : last.cursor.remaining = c :: rest)
    (hc : Text.isBlank c = false) {e : SyntaxError}
    (h : Misfit r last.spine c front.length last.due.expectation e) :
    FailsAt (Dialect.ofRegistry r : Dialect M) text e c := by
  have hposition := h.position_eq
  have htake : text.take front.length = front := by rw [htext, List.take_left]
  have htakeFound : text.take (front.length + 1) = front ++ [c] := by
    rw [htext, hremaining, List.take_length_add_append]
    rfl
  refine ⟨?_, hc, fun found => h.eq_of_mem_found?, fun other hother => ?_, ?_⟩
  · rw [hposition, htext, hremaining, List.getElem?_append_right (Nat.le_refl _), Nat.sub_self]
    rfl
  · rw [hposition, htakeFound] at hother
    have hsplit := List.take_append_drop (front.length + 1) other
    rw [hother, List.append_assoc, List.singleton_append] at hsplit
    have hstep : step (Dialect.ofRegistry r : Dialect M)
        { last with cursor := ⟨c :: other.drop (front.length + 1), front.length⟩ } = .error e :=
      (step_cons_eq_error_iff hplain hr hc).2 h
    have hfront : run (Dialect.ofRegistry r : Dialect M)
        (start (front ++ c :: other.drop (front.length + 1))) = _ :=
      hreads.run_front hplain hr htext fun _ found hfound => .inl (hremaining ▸ hfound)
    rw [hsplit] at hfront
    rw [parseWith, hfront, run_of_step_eq_error hstep]
    rfl
  · rw [hposition, htake]
    cases hdue : last.due with
    | operand => exact .inr (hreads.exists_parseWith_append hplain hr htext hdue)
    | operator left => exact .inl ⟨_, hreads.parseWith_front hplain hr htext hdue⟩

end

section

variable {known : Operator → Prop} (hknown : ∀ op, known op → op ∈ Operator.standard)

include hknown

/-- Among the standard symbols `(` stands for openers only, and `)` is none of them. Counting characters
    is therefore counting groups. -/
theorem Token.Begins.count_parentheses {t : Token} {text rest : List Char}
    (h : t.Begins known text rest) {depth behind : Nat} (hdepth : t.depth? depth = some behind) :
    depth + text.count '(' + rest.count ')' = behind + text.count ')' + rest.count '(' := by
  cases h with
  | @identifier name rest hname hrun hend =>
    have hnone : ∀ c, Text.isIdentifierChar c = false → name.count c = 0 := fun c hc =>
      List.count_eq_zero.2 fun hmem => by cases hc.symm.trans (hrun c hmem)
    obtain rfl := Option.some.inj hdepth
    rw [List.count_append, List.count_append, hnone '(' (by decide), hnone ')' (by decide)]
    omega
  | @symbol op hop hsymbol rest =>
    have hcounts : ∀ op ∈ Operator.standard, op.symbol.toList.count ')' = 0 ∧
        op.token.depth? 0 = some (op.symbol.toList.count '(') := by
      decide
    obtain ⟨hclosers, hopeners⟩ := hcounts op (hknown op hop)
    rw [List.count_append, List.count_append, hclosers]
    cases op with
    | connective c =>
      obtain rfl := Option.some.inj hdepth
      have hzero := Option.some.inj hopeners
      omega
    | opener o =>
      obtain rfl := Option.some.inj hdepth
      have hone := Option.some.inj hopeners
      omega
  | closer rest =>
    rw [depth?] at hdepth
    split at hdepth
    · cases hdepth
    · obtain rfl := Option.some.inj hdepth
      simp
      omega

/-- Over some tokens, what is open grows by the left parentheses and shrinks by the right ones. Both
    sides are sums, since a difference would fall below zero. -/
theorem Spells.count_parentheses {text rest : List Char} {ts : List Token}
    (h : Spells known text ts rest) {depth behind : Nat}
    (hdepth : ts.foldlM Token.depth? depth = some behind) :
    depth + text.count '(' + rest.count ')' = behind + text.count ')' + rest.count '(' := by
  induction h generalizing depth with
  | done rest =>
    obtain rfl := Option.some.inj hdepth
    omega
  | @blank c text rest ts hc _ ih =>
    have hne : ∀ d, Text.isBlank d = false → c ≠ d := by
      rintro d hd rfl
      cases hc.symm.trans hd
    rw [List.count_cons_of_ne (hne '(' (by decide)), List.count_cons_of_ne (hne ')' (by decide))]
    exact ih hdepth
  | @token text middle rest t ts ht _ ih =>
    obtain ⟨next, hnext, hrest⟩ := Option.bind_eq_some_iff.1 hdepth
    have hfirst := ht.count_parentheses hknown hnext
    have hothers := ih hrest
    omega

end

/-- Behind what was read, as many groups are open as there are more left parentheses than right ones.
    The groups of a reader can be counted in the text. -/
theorem ParseState.Reads.count_parentheses {text front : List Char} {ts : List Token}
    {last : ParseState} (h : (start text).Reads Registry.standard ts last)
    (htext : text = front ++ last.cursor.remaining) :
    front.count '(' = last.spine.groups + front.count ')' := by
  have horderly := Registry.sound_standard.orderly_of_leads h.leads
  have hgroups := Assembly.map_groups_takeAll? (a := (start text).assembly) horderly
  rw [h.taken] at hgroups
  have hdepth : ts.foldlM Token.depth? 0 = some last.spine.groups := hgroups.symm
  have hcount := h.spells.count_parentheses (fun op => Registry.knows_standard_iff.1) hdepth
  have hremaining : (start text).cursor.remaining = front ++ last.cursor.remaining := htext
  rw [hremaining, List.count_append, List.count_append] at hcount
  omega

/-- An error is at the first character that fits nowhere, or at the end of the text if an operand is
    missing there. A right parenthesis that fits nowhere is reported as unmatched if all left
    parentheses in front of it are matched. If not, it stands in the place of an operand. No text that
    begins in the same way up to that character is a formula, and all of them fail with the same error. -/
theorem failsAt_of_parse_eq_error {text : List Char} {e : SyntaxError} (h : parse text = .error e) :
    (e = .unexpectedEnd text.length ∧ ∃ p, parse (text ++ ['a']) = .ok p) ∨
      ∃ found, e ≠ .unexpectedEnd e.position ∧ FailsAt Dialect.standard text e found ∧
        (e = .unmatchedRightParenthesis e.position ↔
          found = ')' ∧ (text.take e.position).count ')' = (text.take e.position).count '(') ∧
        (found = ')' → e ≠ .unmatchedRightParenthesis e.position →
          e = .unknownUnaryOperator ')' e.position ∧
            parse (text.take e.position) = .error (.unexpectedEnd e.position)) := by
  have hplain := Registry.plain_standard
  have hsound := Registry.sound_standard
  obtain ⟨ts, last, front, hreads, htext, hend | ⟨c, rest, hremaining, hc, hmisfit⟩⟩ :=
    ParseState.exists_reads_of_parseWith_eq_error hplain hsound h
  · left
    obtain ⟨hremaining, hdue, rfl⟩ := hend
    obtain rfl : text = front := by rw [htext, hremaining, List.append_nil]
    exact ⟨rfl, hreads.exists_parseWith_append hplain hsound htext hdue⟩
  · right
    have htake : text.take front.length = front := by rw [htext, List.take_left]
    have hcount := hreads.count_parentheses htext
    have hgroup : last.spine.hasGroup = false ↔ front.count ')' = front.count '(' := by
      rw [Spine.hasGroup_eq_false_iff]
      omega
    refine ⟨c, hmisfit.ne_unexpectedEnd _,
      hmisfit.failsAt hplain hsound hreads htext hremaining hc, ?_, ?_⟩
    · rw [hmisfit.position_eq, htake, ← hgroup]
      exact hmisfit.eq_unmatched_iff
    · rintro rfl hne
      rw [hmisfit.position_eq] at hne ⊢
      rw [htake]
      have hopen : last.spine.hasGroup ≠ false :=
        fun hnone => hne (hmisfit.eq_unmatched_iff.2 ⟨rfl, hnone⟩)
      obtain ⟨hexpected, he⟩ := hmisfit.eq_unknownUnaryOperator hopen
      refine ⟨he, ?_⟩
      cases hdue : last.due with
      | operand => exact hreads.parseWith_front_eq_error hplain hsound htext hdue
      | operator left =>
        rw [hdue] at hexpected
        cases hexpected

/-- That a text fails with a given error can be decided by reading it. What is compared are errors only. -/
theorem parseWith_eq_error_iff {M : Type → Type} [PrefixMap M] {d : Dialect M} {text : List Char}
    {e : SyntaxError} : parseWith d text = .error e ↔
      (match (ParseState.start text).run d with
        | .error found => some found
        | .ok _ => none) = some e := by
  rw [parseWith]
  cases (ParseState.start text).run d <;> simp [Except.map]

/-- The right parenthesis closes nothing, because an operand is missing in front of it. The text up to
    there is no formula either, and lacks the operand at its end. -/
theorem failsAt_of_parse_eq_error_closer :
    parse "(p & ) | q".toList = .error (.unknownUnaryOperator ')' 5) ∧
      FailsAt Dialect.standard "(p & ) | q".toList (.unknownUnaryOperator ')' 5) ')' ∧
        parse "(p & ".toList = .error (.unexpectedEnd 5) := by
  have hparse : parse "(p & ) | q".toList = .error (.unknownUnaryOperator ')' 5) :=
    parseWith_eq_error_iff.2 (by decide +kernel)
  rcases failsAt_of_parse_eq_error hparse with ⟨hend, -⟩ | ⟨found, -, hfails, -, hcloser⟩
  · cases hend
  · obtain rfl : ')' = found := hfails.eq_of_mem_found? ')' rfl
    exact ⟨hparse, hfails, (hcloser rfl (by decide)).2⟩

end Sentential
