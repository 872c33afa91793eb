import Sentential.Proofs.Cursor
import Sentential.Proofs.Parsing.Offered

namespace Sentential

/-- How a text begins with a token and what it goes on with. An identifier is a run of identifier
    characters that the text does not go on with. -/
inductive Token.Begins (known : Operator → Prop) : List Char → Token → List Char → Prop where
  | identifier {name rest : List Char} (hname : name ≠ [])
    (hrun : ∀ c ∈ name, Text.isIdentifierChar c = true)
    (hend : ∀ c ∈ rest.head?, Text.isIdentifierChar c = false) :
    Begins known (name ++ rest) (.operand (.ofIdentifier (String.ofList name))) rest
  | symbol {op : Operator} (hop : known op) (hsymbol : op.symbol ≠ "") (rest : List Char) :
    Begins known (op.symbol.toList ++ rest) op.token rest
  | closer (rest : List Char) : Begins known (')' :: rest) .closer rest

/-- A text that begins with some tokens, with any blanks before and between them, and goes on with
    `rest`. -/
inductive Spells (known : Operator → Prop) : List Char → List Token → List Char → Prop where
  | done (rest : List Char) : Spells known rest [] rest
  | blank {c : Char} {text rest : List Char} {ts : List Token} (hc : Text.isBlank c = true)
    (h : Spells known text ts rest) : Spells known (c :: text) ts rest
  | token {text middle rest : List Char} {t : Token} {ts : List Token}
    (ht : t.Begins known text middle) (h : Spells known middle ts rest) :
    Spells known text (t :: ts) rest

namespace Spells

variable {known : Operator → Prop}

/-- Any blanks may stand in front of the tokens. Between tokens they are in front of the rest. -/
theorem blanks {blanks text rest : List Char} {ts : List Token}
    (hblanks : ∀ c ∈ blanks, Text.isBlank c = true) (h : Spells known text ts rest) :
    Spells known (blanks ++ text) ts rest := by
  induction blanks with
  | nil => exact h
  | cons c blanks ih =>
    obtain ⟨hc, hrest⟩ := List.forall_mem_cons.1 hblanks
    exact .blank hc (ih hrest)

/-- A text spells what it spells behind the blanks at its front. -/
theorem skipBlank {cursor : Cursor} {ts : List Token} {rest : List Char}
    (h : Spells known cursor.skipBlank.remaining ts rest) : Spells known cursor.remaining ts rest := by
  rw [Cursor.skipBlank_eq] at h
  have hblanks : ∀ c ∈ cursor.remaining.takeWhile Text.isBlank, Text.isBlank c = true :=
    List.all_eq_true.1 List.all_takeWhile
  simpa using h.blanks hblanks

end Spells

namespace Cursor

variable {M : Type → Type} [PrefixMap M] [LawfulPrefixMap M] {r : Registry}

/-- What is known of a token that is taken: it is offered there, the text begins with it, and the cursor
    moves behind it. -/
theorem token?_eq_some (hr : r.Sound) {expected : Expectation} {cursor rest : Cursor} {t : Token}
    (h : cursor.token? (Dialect.ofRegistry r : Dialect M) expected = some (t, rest)) :
    r.Offers expected t ∧ t.Begins r.Knows cursor.remaining rest.remaining ∧
      rest.total = cursor.total := by
  cases takes_of_token? h with
  | identifier hname =>
    obtain ⟨run, hne, rfl, hremaining, hposition, hrun, hend⟩ := identifier?_eq_some_iff.1 hname
    refine ⟨.operand _, ?_, total_eq_of_append hremaining hposition⟩
    rw [hremaining]
    exact .identifier hne hrun hend
  | unary _ _ hsymbol =>
    obtain ⟨key, hmem, hne, hremaining, hposition⟩ := exists_mem_of_symbol? hsymbol
    have hfound := Std.TreeMap.mem_toList_iff_getElem?_eq_some.1 hmem
    obtain rfl := (hr.unary key _ hfound).1
    refine ⟨Registry.offers_unary hfound, ?_, total_eq_of_append hremaining hposition⟩
    rw [hremaining]
    exact .symbol (.inl hfound) hne _
  | closer hpeek =>
    obtain ⟨hremaining, hposition⟩ := advance_one_of_peek? hpeek
    have happend : cursor.remaining = [')'] ++ (cursor.advance 1).remaining := hremaining
    refine ⟨.closer, ?_, total_eq_of_append happend hposition⟩
    rw [hremaining]
    exact .closer _
  | binary _ _ hsymbol =>
    obtain ⟨key, hmem, hne, hremaining, hposition⟩ := exists_mem_of_symbol? hsymbol
    have hfound := Std.TreeMap.mem_toList_iff_getElem?_eq_some.1 hmem
    obtain rfl := (hr.binary key _ hfound).1
    refine ⟨Registry.offers_binary hfound, ?_, total_eq_of_append hremaining hposition⟩
    rw [hremaining]
    exact .symbol (.inr hfound) hne _

end Cursor

namespace ParseState

/-- Some tokens lead from one state to another: the text spells them, the registry offers them, and
    they can all be put in their places. -/
structure Reads (r : Registry) (s : ParseState) (ts : List Token) (last : ParseState) : Prop where
  spells : Spells r.Knows s.cursor.remaining ts last.cursor.remaining
  leads : r.Leads s.due.expectation ts last.due.expectation
  taken : s.assembly.takeAll? ts = some last.assembly
  total : last.cursor.total = s.cursor.total

/-- Skipping blanks reads no token. -/
theorem Reads.skipBlank (r : Registry) (s : ParseState) :
    s.Reads r [] { s with cursor := s.cursor.skipBlank } :=
  ⟨(Spells.done _).skipBlank, .nil _, rfl, s.cursor.total_skipBlank⟩

variable {M : Type → Type} [PrefixMap M]

private theorem step_skipBlank (d : Dialect M) (s : ParseState) :
    step d { s with cursor := s.cursor.skipBlank } = step d s := by
  simp only [step, Cursor.skipBlank_skipBlank]

/-- A step to another state takes one token, in front of which blanks may stand. -/
private theorem Reads.of_step [LawfulPrefixMap M] {r : Registry} (hr : r.Sound)
    {s next last : ParseState} {ts : List Token}
    (hstep : step (Dialect.ofRegistry r : Dialect M) s = .ok (.inr next))
    (h : next.Reads r ts last) : ∃ t, s.Reads r (t :: ts) last := by
  cases htoken : s.cursor.skipBlank.token? (Dialect.ofRegistry r : Dialect M) s.due.expectation with
  | none =>
    rw [step_of_token?_eq_none htoken] at hstep
    cases hfinish : s.assembly.finish ⟨s.cursor.skipBlank.peek?, s.cursor.skipBlank.position⟩ <;>
      simp [hfinish, Except.map] at hstep
  | some taken =>
    obtain ⟨t, rest⟩ := taken
    obtain ⟨hoffers, hbegins, htotal⟩ := Cursor.token?_eq_some hr htoken
    rw [step_of_token?_eq_some htoken] at hstep
    cases hfeed : s.assembly.feed ⟨t, s.cursor.skipBlank.position⟩ with
    | error e => simp [hfeed, Except.map] at hstep
    | ok a =>
      obtain rfl := by simpa [hfeed, Except.map] using hstep
      have htakes : s.assembly.Takes t a := Assembly.feed_eq_ok_iff.1 hfeed
      obtain ⟨hspells, hleads, htaken, hlast⟩ := h
      refine ⟨t, (Spells.token hbegins hspells).skipBlank, .cons hoffers ?_, ?_, ?_⟩
      · rwa [← htakes.expectation_eq]
      · rw [Assembly.takeAll?, Assembly.take?_eq_some_iff.2 htakes]
        exact htaken
      · exact hlast.trans (htotal.trans s.cursor.total_skipBlank)

/-- Reading takes tokens up to a last state, whose step gives the outcome. It stands in front of no
    blank then, so an error is reported at a character. -/
theorem exists_reads [LawfulPrefixMap M] {r : Registry} (hr : r.Sound) (s : ParseState) :
    ∃ ts last, s.Reads r ts last ∧ (∀ c ∈ last.cursor.remaining.head?, Text.isBlank c = false) ∧
      step (Dialect.ofRegistry r : Dialect M) last =
        (run (Dialect.ofRegistry r : Dialect M) s).map .inl := by
  have hblank : ∀ c ∈ s.cursor.skipBlank.remaining.head?, Text.isBlank c = false :=
    fun c hc => Cursor.isBlank_of_mem_head?_skipBlank hc
  cases hstep : step (Dialect.ofRegistry r : Dialect M) s with
  | error e =>
    refine ⟨[], _, .skipBlank r s, hblank, ?_⟩
    rw [step_skipBlank, hstep, run_of_step_eq_error hstep]
    rfl
  | ok outcome =>
    cases outcome with
    | inl f =>
      refine ⟨[], _, .skipBlank r s, hblank, ?_⟩
      rw [step_skipBlank, hstep, run_of_step_eq_inl hstep]
      rfl
    | inr next =>
      obtain ⟨ts, last, hreads, hhead, houtcome⟩ := exists_reads hr next
      obtain ⟨t, hall⟩ := hreads.of_step hr hstep
      rw [run_of_step_eq_inr hstep]
      exact ⟨t :: ts, last, hall, hhead, houtcome⟩
termination_by s.cursor.remaining.length
decreasing_by exact length_remaining_step hstep

/-- A formula is complete where the text ends behind an operand, and nowhere else. Groups that are open
    do not matter. -/
theorem step_eq_ok_inl_iff {d : Dialect M} {s : ParseState} {f : Formula NodeId} :
    step d s = .ok (.inl f) ↔ s.cursor.skipBlank.peek? = none ∧
      ∃ left, s.due = .operator left ∧ f = s.spine.complete left := by
  obtain ⟨cursor, numbering, spine, due⟩ := s
  unfold step
  cases due with
  | operand =>
    cases hstep : stepOperand d cursor.skipBlank numbering spine <;> simp [hstep, Except.map]
  | operator left =>
    cases hpeek : cursor.skipBlank.peek? with
    | none => simp [hpeek, eq_comm]
    | some found =>
      cases hstep : stepOperator d found cursor.skipBlank numbering spine left <;>
        simp [hpeek, hstep, Except.map]

/-- The formula at the end of a reading consists of the tokens that were read. Blanks between them are
    gone. -/
theorem Reads.sourceTokens_complete {r : Registry} {text : List Char} {ts : List Token}
    {last : ParseState} (h : (start text).Reads r ts last) {left : Formula NodeId}
    (hdue : last.due = .operator left) : (last.spine.complete left).sourceTokens = ts := by
  have hdue' : last.assembly.due = .operator left := hdue
  have hlabelled := Assembly.labelledTokens_of_takeAll? h.taken
  rw [Assembly.labelledTokens, hdue'] at hlabelled
  rw [← Formula.map_snd_labelledTokens, Spine.labelledTokens_complete]
  exact (congrArg (List.map Prod.snd) hlabelled).trans (Numbering.map_snd_takeAll _ ts)

end ParseState

/-- An accepted text spells the tokens of what it is read as, and the registry offers them. Most of what
    is proved of accepted texts starts from this. -/
theorem reads_of_parseWith {M : Type → Type} [PrefixMap M] [LawfulPrefixMap M] {r : Registry}
    (hr : r.Sound) {text : List Char} {p : Parsed}
    (h : parseWith (Dialect.ofRegistry r : Dialect M) text = .ok p) :
    Spells r.Knows text p.formula.sourceTokens [] ∧
      r.Leads .operand p.formula.sourceTokens .operator := by
  obtain ⟨ts, last, hreads, hblank, houtcome⟩ :=
    ParseState.exists_reads (M := M) hr (ParseState.start text)
  rw [parseWith] at h
  cases hrun : (ParseState.start text).run (Dialect.ofRegistry r : Dialect M) with
  | error e => simp [hrun, Except.map] at h
  | ok f =>
    obtain rfl := by simpa [hrun, Except.map] using h
    rw [hrun] at houtcome
    obtain ⟨hpeek, left, hdue, rfl⟩ := ParseState.step_eq_ok_inl_iff.1 houtcome
    have hrest : last.cursor.remaining = [] := by
      rw [Cursor.skipBlank_of_head? hblank] at hpeek
      exact List.head?_eq_none_iff.1 hpeek
    have hspells := hreads.spells
    have hleads := hreads.leads
    rw [hrest] at hspells
    rw [hdue] at hleads
    simp only [Parsed.ofFormula, hreads.sourceTokens_complete hdue]
    exact ⟨hspells, hleads⟩

end Sentential
