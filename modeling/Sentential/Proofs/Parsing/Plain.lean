import Sentential.Proofs.Parsing.Spelling

namespace Sentential

/-- Where all keys are single characters, the next character decides which key is taken. The search is
    replaced by a lookup. -/
theorem Cursor.symbol?_of_length_keys {M : Type → Type} [PrefixMap M] [LawfulPrefixMap M] {V : Type}
    {table : Std.TreeMap String V}
    (htable : ∀ (key : String) (value : V), table[key]? = some value → key.toList.length = 1) (c : Char)
    (rest : List Char) (position : Nat) :
    symbol? (PrefixMap.ofList table.toList : M V) ⟨c :: rest, position⟩ =
      table[String.singleton c]?.map fun value => (value, ⟨rest, position + 1⟩) := by
  have hsound : ∀ {value : V} {behind : Cursor},
      symbol? (PrefixMap.ofList table.toList : M V) ⟨c :: rest, position⟩ = some (value, behind) →
        table[String.singleton c]? = some value ∧ behind = ⟨rest, position + 1⟩ := by
    intro value behind h
    obtain ⟨key, hmem, -, hremaining, hposition⟩ := exists_mem_of_symbol? h
    have hfound := Std.TreeMap.mem_toList_iff_getElem?_eq_some.1 hmem
    obtain ⟨first, hfirst⟩ := List.length_eq_one_iff.1 (htable key value hfound)
    obtain ⟨back, behindPosition⟩ := behind
    simp only [hfirst, List.singleton_append, List.cons.injEq, List.length_singleton] at hremaining hposition
    obtain ⟨rfl, rfl⟩ := hremaining
    have hkey : key = String.singleton c := String.toList_inj.1 (by rw [hfirst, String.toList_singleton])
    exact ⟨hkey ▸ hfound, by rw [hposition]⟩
  cases hsymbol : symbol? (PrefixMap.ofList table.toList : M V) ⟨c :: rest, position⟩ with
  | some taken =>
    obtain ⟨value, behind⟩ := taken
    obtain ⟨hfound, rfl⟩ := hsound hsymbol
    rw [hfound]
    rfl
  | none =>
    cases hfound : table[String.singleton c]? with
    | none => rfl
    | some value =>
      have hmem := Std.TreeMap.mem_toList_iff_getElem?_eq_some.2 hfound
      obtain ⟨last, hlast⟩ := Option.isSome_iff_exists.1 (PrefixMap.isSome_lastValue?_of_mem hmem)
      have hlongest := LawfulPrefixMap.isLongest_ofList (M := M) table.toList (c :: rest)
      unfold symbol? at hsymbol
      split at hsymbol
      · -- The empty key is no single character.
        rename_i key other hkey
        split at hsymbol
        · rename_i hempty
          rw [hkey] at hlongest
          have hkeyFound := Std.TreeMap.mem_toList_iff_getElem?_eq_some.1
            (PrefixMap.mem_of_lastValue? hlongest.1)
          have hlength := htable key other hkeyFound
          rw [hempty] at hlength
          cases hlength
        · cases hsymbol
      · rename_i hnone
        rw [hnone] at hlongest
        refine absurd ?_ (hlongest _ last hlast)
        rw [PrefixMap.Begins, String.toList_singleton]
        exact ⟨rest, rfl⟩

namespace Registry

/-- Every symbol is a single character that stands for nothing else: no blank, no part of an
    identifier and no right parenthesis. -/
def Plain (r : Registry) : Prop :=
  ∀ op, r.Knows op → ∃ c, op.symbol.toList = [c] ∧ Text.isBlank c = false ∧
    Text.isIdentifierChar c = false ∧ c ≠ ')'

/-- The standard registry has the standard operators and no others. None of them is replaced by another
    one. -/
theorem knows_standard_iff {op : Operator} : standard.Knows op ↔ op ∈ Operator.standard := by
  constructor
  · have hunary : ∀ entry ∈ standard.unary.toList, entry.2 ∈ Operator.standard := by decide +kernel
    have hbinary : ∀ entry ∈ standard.binary.toList, entry.2 ∈ Operator.standard := by decide +kernel
    rintro (h | h)
    · exact hunary _ (Std.TreeMap.mem_toList_iff_getElem?_eq_some.2 h)
    · exact hbinary _ (Std.TreeMap.mem_toList_iff_getElem?_eq_some.2 h)
  · have hall : ∀ op ∈ Operator.standard,
        standard.unary[op.symbol]? = some op ∨ standard.binary[op.symbol]? = some op := by
      decide +kernel
    exact hall op

/-- Every standard symbol is a single character that stands for nothing else. It is no blank, no right
    parenthesis and no part of an identifier. -/
theorem plain_standard : standard.Plain := by
  have hall : ∀ op ∈ Operator.standard, op.symbol.toList.length = 1 ∧
      op.symbol.toList.all (fun c => !Text.isBlank c && !Text.isIdentifierChar c && c != ')') := by
    decide +kernel
  intro op hop
  obtain ⟨hlength, hchars⟩ := hall op (knows_standard_iff.1 hop)
  obtain ⟨c, hc⟩ := List.length_eq_one_iff.1 hlength
  refine ⟨c, hc, ?_⟩
  simpa [hc, and_assoc] using hchars

end Registry

section

variable {M : Type → Type} [PrefixMap M] [LawfulPrefixMap M] {r : Registry}

private theorem Registry.Plain.length_symbol (hplain : r.Plain) {op : Operator} (hop : r.Knows op) :
    op.symbol.toList.length = 1 := by
  obtain ⟨c, hc, -⟩ := hplain op hop
  rw [hc, List.length_singleton]

/-- A symbol of one character is not empty. -/
theorem Registry.Plain.symbol_ne_empty (hplain : r.Plain) {op : Operator} (hop : r.Knows op) :
    op.symbol ≠ "" := by
  intro hempty
  have hlength := hplain.length_symbol hop
  rw [hempty] at hlength
  cases hlength

/-- Where symbols are single characters, the next one decides which unary operator is taken. -/
theorem Registry.Plain.symbol?_unary (hplain : r.Plain) (hr : r.Sound) (c : Char) (rest : List Char)
    (position : Nat) :
    Cursor.symbol? (Dialect.ofRegistry r : Dialect M).unary ⟨c :: rest, position⟩ =
      r.unary[String.singleton c]?.map fun op => (op, ⟨rest, position + 1⟩) := by
  refine Cursor.symbol?_of_length_keys (fun key op hop => ?_) c rest position
  obtain rfl := (hr.unary key op hop).1
  exact hplain.length_symbol (.inl hop)

/-- Where symbols are single characters, the next one decides which binary operator is taken. -/
theorem Registry.Plain.symbol?_binary (hplain : r.Plain) (hr : r.Sound) (c : Char)
    (rest : List Char) (position : Nat) :
    Cursor.symbol? (Dialect.ofRegistry r : Dialect M).binary ⟨c :: rest, position⟩ =
      r.binary[String.singleton c]?.map fun op => (op, ⟨rest, position + 1⟩) := by
  refine Cursor.symbol?_of_length_keys (fun key op hop => ?_) c rest position
  obtain rfl := (hr.binary key op hop).1
  exact hplain.length_symbol (.inr hop)

/-- No token begins with a blank, so blanks are skipped in front of tokens only. -/
private theorem Token.Begins.isBlank_head? (hplain : r.Plain) {t : Token} {text rest : List Char}
    (h : t.Begins r.Knows text rest) : ∀ c ∈ text.head?, Text.isBlank c = false := by
  cases h with
  | @identifier name rest hname hrun hend =>
    intro c hc
    cases name with
    | nil => exact absurd rfl hname
    | cons first others =>
      obtain rfl := Option.some.inj hc
      cases hblank : Text.isBlank first with
      | false => rfl
      | true =>
        have hidentifier := hrun first List.mem_cons_self
        rw [Text.isIdentifierChar_eq_false_of_isBlank hblank] at hidentifier
        cases hidentifier
  | symbol hop hsymbol rest =>
    obtain ⟨first, hfirst, hblank, -⟩ := hplain _ hop
    intro c hc
    rw [hfirst] at hc
    obtain rfl := Option.some.inj hc
    exact hblank
  | closer rest =>
    intro c hc
    obtain rfl := Option.some.inj hc
    decide

/-- A token that begins the text is the one that is taken, if it is offered. There is no other way to
    cut the text there. -/
theorem Cursor.token?_of_begins (hplain : r.Plain) (hr : r.Sound) {expected : Expectation} {t : Token}
    {text rest : List Char} (hoffers : r.Offers expected t) (ht : t.Begins r.Knows text rest)
    (position : Nat) : ∃ behind, behind.remaining = rest ∧
      token? (Dialect.ofRegistry r : Dialect M) expected ⟨text, position⟩ = some (t, behind) := by
  cases ht with
  | @identifier name rest hname hrun hend =>
    have hidentifier : identifier? ⟨name ++ rest, position⟩ =
        some (String.ofList name, ⟨rest, position + name.length⟩) :=
      identifier?_eq_some_iff.2 ⟨name, hname, rfl, rfl, rfl, hrun, hend⟩
    obtain ⟨first, others, rfl⟩ := List.exists_cons_of_ne_nil hname
    refine ⟨⟨rest, position + (first :: others).length⟩, rfl, ?_⟩
    obtain rfl : expected = .operand := by
      generalize Proposition.ofIdentifier (String.ofList (first :: others)) = p at hoffers
      cases hoffers
      rfl
    have hpeek : peek? ⟨first :: others ++ rest, position⟩ = some first := rfl
    simp only [token?, hpeek, hidentifier]
  | @symbol op hop hsymbol rest =>
    obtain ⟨first, hfirst, -, hidentifierChar, hcloser⟩ := hplain _ hop
    have hkey : String.singleton first = op.symbol :=
      String.toList_inj.1 (by rw [hfirst, String.toList_singleton])
    have hidentifier : identifier? ⟨first :: rest, position⟩ = none :=
      identifier?_eq_none_iff.2 fun c hc => by
        obtain rfl := Option.some.inj hc
        exact hidentifierChar
    refine ⟨⟨rest, position + 1⟩, rfl, ?_⟩
    rw [hfirst, List.singleton_append]
    cases expected with
    | operand =>
      have hfound : r.unary[String.singleton first]? = some op := by
        rw [hkey]
        cases op <;> cases hoffers <;> assumption
      simp [token?, peek?, hidentifier, hplain.symbol?_unary hr, hfound]
    | operator =>
      have hfound : r.binary[String.singleton first]? = some op := by
        rw [hkey]
        cases op <;> cases hoffers <;> assumption
      simp [token?, peek?, hcloser, hplain.symbol?_binary hr, hfound]
  | closer rest =>
    cases hoffers
    exact ⟨_, rfl, rfl⟩

end

namespace ParseState

variable {M : Type → Type} [PrefixMap M]

private theorem run_congr_of_step {d : Dialect M} {s other : ParseState} (h : step d s = step d other) :
    run d s = run d other := by
  cases hstep : step d other with
  | error e => rw [run_of_step_eq_error hstep, run_of_step_eq_error (h.trans hstep)]
  | ok outcome =>
    cases outcome with
    | inl f => rw [run_of_step_eq_inl hstep, run_of_step_eq_inl (h.trans hstep)]
    | inr next => rw [run_of_step_eq_inr hstep, run_of_step_eq_inr (h.trans hstep)]

/-- Under a plain registry, what a text spells is what is read. Nothing is said about how the text was
    cut, because there is only one way. -/
theorem run_of_reads [LawfulPrefixMap M] {r : Registry} (hplain : r.Plain) (hr : r.Sound)
    {s last : ParseState} {ts : List Token} (h : s.Reads r ts last) :
    run (Dialect.ofRegistry r : Dialect M) s = run (Dialect.ofRegistry r : Dialect M) last := by
  obtain ⟨hspells, hleads, htaken, htotal⟩ := h
  generalize htext : s.cursor.remaining = text at hspells
  generalize hrest : last.cursor.remaining = rest at hspells
  induction hspells generalizing s with
  | done rest =>
    obtain ⟨⟨_, position⟩, numbering, spine, due⟩ := s
    obtain ⟨⟨_, lastPosition⟩, lastNumbering, lastSpine, lastDue⟩ := last
    cases htext
    cases hrest
    cases htaken
    obtain rfl : lastPosition = position := Nat.add_right_cancel htotal
    rfl
  | @blank c text rest ts hc _ ih =>
    have hnext : step (Dialect.ofRegistry r : Dialect M) s = step (Dialect.ofRegistry r : Dialect M)
        { s with cursor := ⟨text, s.cursor.position + 1⟩ } := by
      have hskip := Cursor.skipBlank_cons hc text s.cursor.position
      rw [← htext] at hskip
      simp only [step, hskip]
    rw [run_congr_of_step hnext]
    refine ih hleads htaken ?_ rfl hrest
    have happend : s.cursor.remaining = [c] ++ text := htext
    have hbehind : Cursor.total ⟨text, s.cursor.position + 1⟩ = s.cursor.total :=
      Cursor.total_eq_of_append happend rfl
    exact htotal.trans hbehind.symm
  | @token text middle rest t ts ht _ ih =>
    cases hleads with
    | cons hoffers hbehind =>
      obtain ⟨next, htake, hrestTaken⟩ := Option.bind_eq_some_iff.1 htaken
      have htakes := Assembly.take?_eq_some_iff.1 htake
      obtain ⟨behind, hmiddle, htoken⟩ :=
        Cursor.token?_of_begins (M := M) hplain hr hoffers ht s.cursor.position
      have hcursor : (⟨text, s.cursor.position⟩ : Cursor) = s.cursor := by rw [← htext]
      have hskip : s.cursor.skipBlank = s.cursor :=
        Cursor.skipBlank_of_head? (htext ▸ ht.isBlank_head? hplain)
      rw [hcursor] at htoken
      have hbehindTotal := (Cursor.token?_eq_some hr htoken).2.2
      rw [← hskip] at htoken
      have hstep := step_of_token?_eq_some htoken
      rw [Assembly.feed_eq_ok_iff.2 htakes] at hstep
      rw [run_of_step_eq_inr hstep]
      rw [← htakes.expectation_eq] at hbehind
      exact ih hbehind hrestTaken (htotal.trans hbehindTotal.symm) hmiddle hrest

end ParseState

/-- Tokens that are spelled by a whole text and end with an operand make a formula. Together with
    `parseWith_eq_ok_iff` it makes spelling and reading the same. -/
theorem parseWith_of_spells {M : Type → Type} [PrefixMap M] [LawfulPrefixMap M] {r : Registry}
    (hplain : r.Plain) (hr : r.Sound) {text : List Char} {ts : List Token}
    (hspells : Spells r.Knows text ts []) (hleads : r.Leads .operand ts .operator) {last : Assembly}
    {left : Formula NodeId} (htaken : Assembly.start.takeAll? ts = some last)
    (hdue : last.due = .operator left) :
    parseWith (Dialect.ofRegistry r : Dialect M) text =
      .ok (Parsed.ofFormula (last.spine.complete left)) := by
  obtain ⟨numbering, spine, _⟩ := last
  obtain rfl := hdue
  have hreads : (ParseState.start text).Reads r ts
      ⟨⟨[], text.length⟩, numbering, spine, .operator left⟩ :=
    ⟨hspells, hleads, htaken, Nat.add_comm _ _⟩
  have hstep : ParseState.step (Dialect.ofRegistry r : Dialect M)
      ⟨⟨[], text.length⟩, numbering, spine, .operator left⟩ = .ok (.inl (spine.complete left)) :=
    ParseState.step_eq_ok_inl_iff.2 ⟨rfl, left, rfl, rfl⟩
  rw [parseWith, ParseState.run_of_reads hplain hr hreads, ParseState.run_of_step_eq_inl hstep]
  rfl

end Sentential
