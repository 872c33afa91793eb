import Sentential.Proofs.Linked.Reachable
import Sentential.Proofs.Parsing.Symbols
import Sentential.Proofs.SymbolTable

namespace Sentential

variable {M : Type → Type} [PrefixMap M]

namespace ParseState

/-- The states that reading a text comes to. -/
inductive Reached (d : Dialect M) (text : List Char) : ParseState → Prop where
  | start : Reached d text (start text)
  | step {s next : ParseState} (hs : Reached d text s) (hstep : step d s = .ok (.inr next)) :
    Reached d text next

variable {d : Dialect M} {text : List Char}

/-- What a state has ahead of it are the last tokens of the text. -/
private theorem Reached.exists_tokens_eq_append {s : ParseState} (h : Reached d text s) :
    ∃ before, (d.scan text).tokens = before ++ (s.cursor.scan d s.due.expectation).tokens := by
  induction h with
  | start => exact ⟨[], rfl⟩
  | @step s next _ hstep ih =>
    obtain ⟨before, hbefore⟩ := ih
    obtain ⟨t, htoken, htakes⟩ := exists_takes_of_step hstep
    have hexpectation : next.due.expectation = t.expectation := htakes.expectation_eq
    refine ⟨before ++ [t], ?_⟩
    rw [hbefore, Cursor.scan_of_token?_eq_some htoken, hexpectation, List.append_assoc]
    rfl

/-- A token that a successful reader has ahead of it is the next one of some state that it comes to. -/
private theorem Reached.exists_token?_eq_some {s : ParseState} (hs : Reached d text s)
    {f : Formula NodeId} (hrun : run d s = .ok f) {t : Token}
    (ht : t ∈ (s.cursor.scan d s.due.expectation).tokens) :
    ∃ other rest, Reached d text other ∧
      other.cursor.skipBlank.token? d other.due.expectation = some (t, rest) := by
  cases htoken : s.cursor.skipBlank.token? d s.due.expectation with
  | none =>
    rw [Cursor.scan_of_token?_eq_none htoken] at ht
    cases ht
  | some taken =>
    obtain ⟨first, rest⟩ := taken
    rw [Cursor.scan_of_token?_eq_some htoken] at ht
    rcases List.mem_cons.1 ht with rfl | hbehind
    · exact ⟨s, rest, hs, htoken⟩
    · have hstep := step_of_token?_eq_some htoken
      cases hfeed : s.assembly.feed ⟨first, s.cursor.skipBlank.position⟩ with
      | error e =>
        rw [hfeed] at hstep
        rw [run_of_step_eq_error hstep] at hrun
        cases hrun
      | ok a =>
        rw [hfeed] at hstep
        rw [run_of_step_eq_inr hstep] at hrun
        have hexpectation : a.due.expectation = first.expectation :=
          (Assembly.feed_eq_ok_iff.1 hfeed).expectation_eq
        rw [← hexpectation] at hbehind
        exact (hs.step hstep).exists_token?_eq_some hrun hbehind
termination_by s.cursor.remaining.length
decreasing_by
  exact Nat.lt_of_lt_of_le (Cursor.length_remaining_token? htoken)
    (Cursor.length_remaining_skipBlank_le s.cursor)

end ParseState

/-- The name stands as an operand in the text: where the reader waits for one, a run of identifier
    characters follows, behind blanks, that the text does not go on with. -/
def Dialect.HasOperand (d : Dialect M) (text : List Char) (name : String) : Prop :=
  ∃ s, ParseState.Reached d text s ∧ s.due = .operand ∧ ∃ blanks run rest,
    s.cursor.remaining = blanks ++ (run ++ rest) ∧ (∀ c ∈ blanks, Text.isBlank c = true) ∧
      run ≠ [] ∧ (∀ c ∈ run, Text.isIdentifierChar c = true) ∧
        (∀ c ∈ rest.head?, Text.isIdentifierChar c = false) ∧ String.ofList run = name

/-- The blanks ahead are skipped up to the first character that is none. -/
private theorem Cursor.remaining_skipBlank_of_eq_append {cursor : Cursor} {blanks text : List Char}
    (hremaining : cursor.remaining = blanks ++ text) (hblanks : ∀ c ∈ blanks, Text.isBlank c = true)
    (htext : ∀ c ∈ text.head?, Text.isBlank c = false) : cursor.skipBlank.remaining = text := by
  rw [skipBlank_eq, hremaining, List.dropWhile_append_of_pos hblanks]
  cases text with
  | nil => rfl
  | cons c rest =>
    have hc : ¬ Text.isBlank c = true := by
      rw [htext c rfl]
      decide
    exact List.dropWhile_cons_of_neg hc

/-- An identifier is taken where the reader waits for an operand. The definition says so in terms of
    characters, and this in terms of the cursor. -/
theorem Dialect.hasOperand_iff {d : Dialect M} {text : List Char} {name : String} :
    d.HasOperand text name ↔ ∃ s rest, ParseState.Reached d text s ∧ s.due = .operand ∧
      s.cursor.skipBlank.identifier? = some (name, rest) := by
  constructor
  · rintro ⟨s, hs, hdue, blanks, run, rest, hremaining, hblanks, hrun, hchars, hend, rfl⟩
    refine ⟨s, ⟨rest, s.cursor.skipBlank.position + run.length⟩, hs, hdue, ?_⟩
    refine Cursor.identifier?_eq_some_iff.2 ⟨run, hrun, rfl, ?_, rfl, hchars, hend⟩
    refine Cursor.remaining_skipBlank_of_eq_append hremaining hblanks fun c hc => ?_
    cases hblank : Text.isBlank c with
    | false => rfl
    | true =>
      have hmem : c ∈ run := by
        obtain ⟨first, others, rfl⟩ := List.exists_cons_of_ne_nil hrun
        exact List.mem_cons.2 (.inl (Option.some.inj hc).symm)
      rw [← hchars c hmem, Text.isIdentifierChar_eq_false_of_isBlank hblank]
  · rintro ⟨s, rest, hs, hdue, hname⟩
    obtain ⟨run, hrun, rfl, hremaining, -, hchars, hend⟩ := Cursor.identifier?_eq_some_iff.1 hname
    refine ⟨s, hs, hdue, s.cursor.remaining.takeWhile Text.isBlank, run, rest.remaining, ?_, ?_, hrun,
      hchars, hend, rfl⟩
    · rw [← hremaining, Cursor.skipBlank_eq, List.takeWhile_append_dropWhile]
    · exact fun c hc => List.all_eq_true.1 List.all_takeWhile c hc

private theorem Cursor.token?_of_identifier? (d : Dialect M) {cursor rest : Cursor} {name : String}
    (h : cursor.identifier? = some (name, rest)) :
    cursor.token? d .operand = some (.operand (.ofIdentifier name), rest) := by
  cases hpeek : cursor.peek? with
  | none =>
    have hnil : cursor.remaining = [] := List.head?_eq_none_iff.1 hpeek
    simp [identifier?, hnil] at h
  | some found => simp only [token?, hpeek, h]

private theorem Proposition.ofIdentifier_eq_atom_iff {name other : String} :
    ofIdentifier name = .atom other ↔ name = other ∧ other ≠ "T" ∧ other ≠ "F" := by
  constructor
  · intro h
    unfold ofIdentifier at h
    split at h
    · cases h
    · rename_i hT
      split at h
      · cases h
      · rename_i hF
        obtain rfl := Proposition.atom.inj h
        exact ⟨rfl, hT, hF⟩
  · rintro ⟨rfl, hT, hF⟩
    rw [ofIdentifier, if_neg hT, if_neg hF]

/-- The atoms among the tokens of an accepted text are its operands, constants apart. What is a token is
    here said without mentioning tokens. -/
theorem atom_mem_tokens_iff {d : Dialect M} {text : List Char} {p : Parsed}
    (hp : parseWith d text = .ok p) {name : String} :
    .operand (.atom name) ∈ (d.scan text).tokens ↔ name ≠ "T" ∧ name ≠ "F" ∧ d.HasOperand text name := by
  constructor
  · intro hmem
    obtain ⟨f, hrun, -⟩ := Linked.exists_of_map_eq_ok hp
    obtain ⟨s, rest, hs, htoken⟩ := ParseState.Reached.start.exists_token?_eq_some hrun hmem
    generalize ht : Token.operand (.atom name) = t at htoken
    generalize hexpected : s.due.expectation = expected at htoken
    cases Cursor.takes_of_token? htoken with
    | identifier hname =>
      obtain ⟨rfl, hT, hF⟩ := Proposition.ofIdentifier_eq_atom_iff.1 (Token.operand.inj ht).symm
      have hdue : s.due = .operand := by
        cases hdue : s.due with
        | operand => rfl
        | operator left => simp [hdue, Due.expectation] at hexpected
      exact ⟨hT, hF, Dialect.hasOperand_iff.2 ⟨s, _, hs, hdue, hname⟩⟩
    | @unary _ op => cases op <;> cases ht
    | closer _ => cases ht
    | @binary _ op => cases op <;> cases ht
  · rintro ⟨hT, hF, hoperand⟩
    obtain ⟨s, rest, hs, hdue, hname⟩ := Dialect.hasOperand_iff.1 hoperand
    obtain ⟨before, hbefore⟩ := hs.exists_tokens_eq_append
    have htoken := Cursor.token?_of_identifier? d hname
    have hexpected : s.due.expectation = .operand := congrArg Due.expectation hdue
    rw [← hexpected, Proposition.ofIdentifier_eq_atom_iff.2 ⟨rfl, hT, hF⟩] at htoken
    rw [hbefore, Cursor.scan_of_token?_eq_some htoken]
    exact List.mem_append_right before List.mem_cons_self

private theorem Formula.mem_atoms_iff_mem_sourceTokens {ι : Type} {f : Formula ι} {name : String} :
    name ∈ f.atoms ↔ .operand (.atom name) ∈ f.sourceTokens := by
  have hclosing : ∀ closed, Token.operand (.atom name) ∉ closing closed := by
    intro closed
    cases closed <;> simp [closing]
  induction f with
  | leaf label p => cases p <;> simp [atoms, sourceTokens]
  | unary label c operand ih => simp [atoms, sourceTokens, ih]
  | binary label c left right ihl ihr => simp [atoms, sourceTokens, ihl, ihr]
  | group label o closed body ih => simp [atoms, sourceTokens, ih, hclosing]
  | regroup label o closed discarded body ihd ih => simp [atoms, sourceTokens, ihd, ih, hclosing]

namespace Parsed

/-- A symbol table that has the operands of a formula, constants apart, each with the one leaf that
    stands for all its occurrences. -/
structure ListsOperands (p : Parsed) (operand : String → Prop) : Prop where
  isSome_get?_iff : ∀ name, (p.symbols.get? name).isSome ↔ name ≠ "T" ∧ name ≠ "F" ∧ operand name
  get?_eq_some_iff : ∀ name id, p.symbols.get? name = some id ↔
    ∃ node, p.nodes[id]? = some node ∧ node.formula = .leaf id (.atom name)
  get?_of_mem_walk : ∀ node ∈ p.formula.walk none, ∀ name, node.proposition? = some (.atom name) →
    p.symbols.get? name = some node.formula.label
  mem_symbols_iff : ∀ s, s ∈ p.symbols.symbols ↔ p.symbols.get? s.name = some s.id
  nodup_names : (p.symbols.symbols.map Symbol.name).Nodup
  nodup_ids : (p.symbols.symbols.map Symbol.id).Nodup

variable {d : Dialect M} {text : List Char} {p : Parsed}

private theorem listsOperands_of_parseWith (hp : parseWith d text = .ok p) :
    p.ListsOperands (d.HasOperand text) where
  isSome_get?_iff name := by
    rw [← atom_mem_tokens_iff hp, ← sourceTokens_of_parseWith hp,
      ← Formula.mem_atoms_iff_mem_sourceTokens, mem_atoms_iff hp, Option.isSome_iff_exists]
    exact exists_congr fun id => get?_symbols_eq_some_iff hp
  get?_eq_some_iff name id := (get?_symbols_eq_some_iff hp).trans atom?_eq_some_iff
  get?_of_mem_walk node hmem name hname := by
    rw [get?_symbols_eq_some_iff hp]
    refine atom?_of_mem_walk hp ?_
    have houtermost := Formula.eq_outermost_of_mem_walk hmem
    rw [Node.proposition?_eq_some_iff.1 hname] at houtermost
    rwa [houtermost] at hmem
  mem_symbols_iff s := by
    rw [get?_symbols_eq_some_iff hp]
    exact ⟨atom?_of_mem_symbols, mem_symbols_of_atom?⟩
  nodup_names := nodup_names_symbols hp
  nodup_ids := p.nodup_ids_symbols

end Parsed

/-- What sorting a symbol table by a comparison owes: each symbol once, in strictly ascending order,
    which is one list only, in whatever order the table held the symbols. -/
structure SymbolTable.SortsBy (table : SymbolTable) (compare : Symbol → Symbol → Ordering) : Prop where
  perm : (table.orderedBy fun a b => (compare a b).isLE).Perm table.symbols
  pairwise : (table.orderedBy fun a b => (compare a b).isLE).Pairwise fun a b => compare a b = .lt
  unique : ∀ listing : List Symbol, listing.Perm table.symbols →
    listing.Pairwise (fun a b => compare a b = .lt) →
      listing = table.orderedBy fun a b => (compare a b).isLE
  eq_of_perm : ∀ other : SymbolTable, other.symbols.Perm table.symbols →
    (other.orderedBy fun a b => (compare a b).isLE) = table.orderedBy fun a b => (compare a b).isLE

private theorem Symbol.TotalOn.sortsBy {table : SymbolTable} {compare : Symbol → Symbol → Ordering}
    (h : TotalOn compare table.symbols) (hnodup : table.symbols.Nodup) : table.SortsBy compare where
  perm := List.mergeSort_perm _ _
  pairwise := h.pairwise_mergeSort hnodup
  unique _ hlisting hsorted :=
    h.eq_of_perm hlisting (List.mergeSort_perm _ _) hsorted (h.pairwise_mergeSort hnodup)
  eq_of_perm _ hother := h.mergeSort_eq_of_perm hnodup hother

/-- The symbol table of an accepted text has exactly the identifiers that stand as operands, constants
    apart, each with its one leaf. A strict total order sorts it in one way, whatever order the table
    held the symbols in, and the order by name is that of the bytes. A word that stands as an operator
    in one place can be an operand in another, and is in the table for that. -/
theorem Parsed.symbols_of_parseWith {d : Dialect M} {text : List Char} {p : Parsed}
    (hp : parseWith d text = .ok p) :
    p.ListsOperands (d.HasOperand text) ∧
      (∀ compare, Symbol.TotalOn compare p.symbols.symbols → p.symbols.SortsBy compare) ∧
      (p.symbols.ordered .name).Perm p.symbols.symbols ∧
      (p.symbols.ordered .name).Pairwise fun a b =>
        PrefixMap.bytes a.name.toList < PrefixMap.bytes b.name.toList := by
  have hnodup : p.symbols.symbols.Nodup :=
    (List.pairwise_map.1 p.nodup_ids_symbols).imp fun hne heq => hne (congrArg Symbol.id heq)
  exact ⟨listsOperands_of_parseWith hp, fun compare hcompare => hcompare.sortsBy hnodup,
    List.mergeSort_perm _ _, SymbolTable.pairwise_ordered_name (nodup_names_symbols hp)⟩

/-- A word between two operands is an operator. The same word behind it is an operand. -/
theorem Parsed.symbols_of_parseWith_words :
    let word := Connective.mk "and" .binary 15
      (Rule.ofFunction fun left right => left.getD false && right)
    let d : Dialect PrefixMap.Trie := Dialect.ofRegistry (Registry.standard.put (.connective word))
    let f : Formula Unit := .binary () word (.leaf () (.atom "band")) (.leaf () (.atom "and"))
    parseWith d "band and and".toList = .ok (ofFormula f.numbered) ∧
      (ofFormula f.numbered).ListsOperands (d.HasOperand "band and and".toList) ∧
      (ofFormula f.numbered).symbols.SortsBy (fun a b => compare b.id a.id) ∧
      (ofFormula f.numbered).symbols.symbols = [⟨"band", 0⟩, ⟨"and", 2⟩] := by
  intro word d f
  have hparse : parseWith d "band and and".toList = .ok (ofFormula f.numbered) :=
    parseWith_eq_ok_ofFormula_iff.2 (by decide +kernel)
  have hsymbols : (ofFormula f.numbered).symbols.symbols = [⟨"band", 0⟩, ⟨"and", 2⟩] := by
    decide +kernel
  have htotal : Symbol.TotalOn (fun a b => compare b.id a.id) (ofFormula f.numbered).symbols.symbols := by
    rw [hsymbols]
    constructor <;> decide
  obtain ⟨hlists, hsorts, -⟩ := symbols_of_parseWith hparse
  exact ⟨hparse, hlists, hsorts _ htotal, hsymbols⟩

end Sentential
