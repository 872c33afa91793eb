import Mathlib.Data.List.Induction
import Sentential.PrefixMap.Hashed
import Sentential.Proofs.Parsing.Agreement
import Sentential.Proofs.PrefixMap.Searches

namespace Sentential

namespace Registry

/-- Why an operator may not be registered. Of several reasons the first one in this order is given. -/
inductive Faulty : Operator → RegistryError → Prop
  | precedence {c : Connective} (hprecedence : c.precedence ≤ 0 ∨ 2147483647 ≤ c.precedence) :
    Faulty (.connective c) (.invalidPrecedence c.symbol c.precedence)
  | symbol {c : Connective} (hprecedence : 0 < c.precedence ∧ c.precedence < 2147483647)
    (hsymbol : c.symbol = "") : Faulty (.connective c) .emptySymbol
  | arity {c : Connective} (hprecedence : 0 < c.precedence ∧ c.precedence < 2147483647)
    (hsymbol : c.symbol ≠ "") (hkind : c.kind = .value) :
    Faulty (.connective c) (.invalidArity .value)
  | openerSymbol {o : Opener} (hsymbol : o.symbol = "") : Faulty (.opener o) .emptySymbol
  | openerArity {o : Opener} (hsymbol : o.symbol ≠ "") (hkind : o.kind ≠ .unary) :
    Faulty (.opener o) (.invalidArity o.kind)

/-- The check that registration makes refuses an operator for the reasons there are, and for the first
    of them in the order of the check. There is one reason at most for each operator. -/
theorem refusal?_eq_some_iff {op : Operator} {e : RegistryError} :
    refusal? op = some e ↔ Faulty op e := by
  constructor
  · intro h
    cases op with
    | connective c =>
      rw [refusal?] at h
      split at h
      · rename_i hprecedence
        obtain rfl := Option.some.inj h
        exact .precedence hprecedence
      · rename_i hprecedence
        rw [not_or, Int.not_le, Int.not_le] at hprecedence
        split at h
        · rename_i hsymbol
          obtain rfl := Option.some.inj h
          exact .symbol hprecedence hsymbol
        · rename_i hsymbol
          split at h
          · rename_i hkind
            obtain rfl := Option.some.inj h
            exact .arity hprecedence hsymbol hkind
          · cases h
    | opener o =>
      rw [refusal?] at h
      split at h
      · rename_i hsymbol
        obtain rfl := Option.some.inj h
        exact .openerSymbol hsymbol
      · rename_i hsymbol
        split at h
        · cases h
        · rename_i hkind
          obtain rfl := Option.some.inj h
          exact .openerArity hsymbol hkind
  · intro h
    have hinside : ∀ {c : Connective}, 0 < c.precedence ∧ c.precedence < 2147483647 →
        ¬ (c.precedence ≤ openPrecedence ∨ closedPrecedence ≤ c.precedence) := by
      intro c hprecedence
      rwa [not_or, Int.not_le, Int.not_le]
    cases h with
    | precedence hprecedence => exact if_pos hprecedence
    | symbol hprecedence hsymbol => rw [refusal?, if_neg (hinside hprecedence), if_pos hsymbol]
    | arity hprecedence hsymbol hkind =>
      rw [refusal?, if_neg (hinside hprecedence), if_neg hsymbol, if_pos hkind]
    | openerSymbol hsymbol => exact if_pos hsymbol
    | openerArity hsymbol hkind => rw [refusal?, if_neg hsymbol, if_neg hkind]

/-- The last operator of a list that has this symbol and kind. -/
def latest? (ops : List Operator) (symbol : String) (kind : Kind) : Option Operator :=
  ops.reverse.find? fun op => op.symbol = symbol ∧ op.kind = kind

private theorem latest?_append (ops others : List Operator) (symbol : String) (kind : Kind) :
    latest? (ops ++ others) symbol kind = (latest? others symbol kind).or (latest? ops symbol kind) := by
  rw [latest?, List.reverse_append, List.find?_append]
  rfl

private theorem latest?_singleton (op : Operator) (symbol : String) (kind : Kind) :
    latest? [op] symbol kind = if op.symbol = symbol ∧ op.kind = kind then some op else none := by
  simp [latest?, List.find?_singleton]

/-- Of some operators put one after the other, the last one with the symbol and kind is found, or else
    what was there before. Operators of the other kind with the same symbol do not get in the way. -/
theorem lookup_foldl_put (r : Registry) (ops : List Operator) (symbol : String) {kind : Kind}
    (hkind : kind ≠ .value) :
    (ops.foldl put r).lookup symbol kind =
      (latest? ops symbol kind).elim (r.lookup symbol kind) .ok := by
  induction ops using List.reverseRecOn with
  | nil => rfl
  | append_singleton ops op ih =>
    rw [List.foldl_concat, lookup_put, latest?_append, latest?_singleton]
    by_cases hsame : op.symbol = symbol ∧ op.kind = kind
    · rw [if_pos ⟨hkind, hsame⟩, if_pos hsame]
      rfl
    · rw [if_neg fun h => hsame h.2, if_neg hsame, ih]
      rfl

/-- What a call to register an operator answers: why it fails, or which operator it replaced. -/
abbrev Answer := Except RegistryError (Option Operator)

/-- Calls with their answers in the order in which they were made, and the registry that they led to.
    A call that fails leaves the registry as it is. -/
structure History where
  log : List (Operator × Answer)
  registry : Registry

namespace History

/-- Makes one more call. -/
def call (h : History) (op : Operator) : History :=
  match h.registry.register op with
  | .ok (replaced, next) => ⟨h.log ++ [(op, .ok replaced)], next⟩
  | .error e => ⟨h.log ++ [(op, .error e)], h.registry⟩

/-- The history of calls to a registry that held some operators before. -/
def ofCalls (first calls : List Operator) : History :=
  calls.foldl call ⟨[], ofList first⟩

/-- The operators of the calls that did not fail. -/
def accepted (h : History) : List Operator :=
  h.log.filterMap fun (op, answer) => answer.toOption.map fun _ => op

end History

/-- What one call owes. It fails for the reason that there is and then changes nothing. Otherwise it
    answers what was found before, and changes what is found under its own symbol and kind. -/
structure Answers (before : Registry) (op : Operator) (answer : Answer) (after : Registry) : Prop where
  eq_error_iff : ∀ e, answer = .error e ↔ Faulty op e
  eq_before : ∀ e, answer = .error e → after = before
  replaced_eq : ∀ replaced, answer = .ok replaced →
    replaced = (before.lookup op.symbol op.kind).toOption
  lookup_self : ∀ replaced, answer = .ok replaced → after.lookup op.symbol op.kind = .ok op
  lookup_other : ∀ symbol kind, ¬ (symbol = op.symbol ∧ kind = op.kind) →
    after.lookup symbol kind = before.lookup symbol kind

namespace History

variable {h : History} {op : Operator}

private theorem call_of_refusal?_eq_some {e : RegistryError} (hop : refusal? op = some e) :
    h.call op = ⟨h.log ++ [(op, .error e)], h.registry⟩ := by
  simp only [call, register, hop]

private theorem call_of_refusal?_eq_none (hop : refusal? op = none) :
    h.call op = ⟨h.log ++ [(op, .ok (h.registry.lookup op.symbol op.kind).toOption)],
      h.registry.put op⟩ := by
  simp only [call, register, hop]

/-- Every call answers what it owes: it fails for a reason there is and changes nothing, or tells what
    was found before and changes what is found under its own symbol and kind only. -/
theorem exists_answers_call (h : History) (op : Operator) :
    ∃ answer, (h.call op).log = h.log ++ [(op, answer)] ∧
      h.registry.Answers op answer (h.call op).registry := by
  cases hop : refusal? op with
  | some e =>
    rw [call_of_refusal?_eq_some hop]
    refine ⟨_, rfl, fun other => ?_, fun _ _ => rfl, fun _ hok => ?_, fun _ hok => ?_, fun _ _ _ => rfl⟩
    · rw [← refusal?_eq_some_iff, hop, Except.error.injEq, Option.some.injEq]
    · cases hok
    · cases hok
  | none =>
    rw [call_of_refusal?_eq_none hop]
    have hkind : op.kind ≠ .value := by
      cases op with
      | connective c => exact (refusal?_connective_eq_none_iff.1 hop).2.2.2
      | opener o =>
        have hunary : Operator.kind (.opener o) = .unary := (refusal?_opener_eq_none_iff.1 hop).2
        rw [hunary]
        decide
    refine ⟨_, rfl, fun e => ?_, fun e he => ?_, fun replaced hok => ?_, fun _ _ => ?_,
      fun symbol kind hother => ?_⟩
    · rw [← refusal?_eq_some_iff, hop]
      simp
    · cases he
    · exact (Except.ok.inj hok).symm
    · rw [lookup_put, if_pos ⟨hkind, rfl, rfl⟩]
    · rw [lookup_put, if_neg fun hsame => hother ⟨hsame.2.1.symm, hsame.2.2.symm⟩]

private theorem ofCalls_concat (first calls : List Operator) (op : Operator) :
    ofCalls first (calls ++ [op]) = (ofCalls first calls).call op :=
  List.foldl_concat _ _ _ _

private theorem map_log_ofCalls (first calls : List Operator) :
    (ofCalls first calls).log.map Prod.fst = calls := by
  induction calls using List.reverseRecOn with
  | nil => rfl
  | append_singleton calls op ih =>
    obtain ⟨answer, hlog, -⟩ := (ofCalls first calls).exists_answers_call op
    rw [ofCalls_concat, hlog, List.map_append, ih]
    rfl

/-- A history leads to the registry of the operators that were there before and of those that were
    accepted, none of which would be refused. The calls that failed play no part. -/
theorem registry_ofCalls (first calls : List Operator) :
    (ofCalls first calls).registry = ofList (first ++ (ofCalls first calls).accepted) ∧
      ∀ op ∈ (ofCalls first calls).accepted, refusal? op = none := by
  induction calls using List.reverseRecOn with
  | nil => exact ⟨by rw [ofCalls, accepted, List.foldl_nil, List.filterMap_nil, List.append_nil], nofun⟩
  | append_singleton calls op ih =>
    obtain ⟨hregistry, haccepted⟩ := ih
    rw [ofCalls_concat]
    cases hop : refusal? op with
    | some e =>
      have hnone : ((ofCalls first calls).call op).accepted = (ofCalls first calls).accepted := by
        simp [accepted, call_of_refusal?_eq_some hop, Except.toOption]
      rw [hnone, call_of_refusal?_eq_some hop]
      exact ⟨hregistry, haccepted⟩
    | none =>
      have hlast : ((ofCalls first calls).call op).accepted = (ofCalls first calls).accepted ++ [op] := by
        simp [accepted, call_of_refusal?_eq_none hop, Except.toOption]
      rw [hlast, call_of_refusal?_eq_none hop]
      refine ⟨?_, List.forall_mem_append.2 ⟨haccepted, List.forall_mem_singleton.2 hop⟩⟩
      rw [← List.append_assoc, ofList, List.foldl_concat, hregistry]
      rfl

end History

/-- Nothing is found in an empty registry. The error names what was asked for. -/
theorem lookup_empty (symbol : String) {kind : Kind} (hkind : kind ≠ .value) :
    empty.lookup symbol kind = .error (.unknownOperator symbol kind) := by
  cases kind with
  | unary | binary => simp [lookup, table, empty]; rfl
  | value => exact absurd rfl hkind

/-- Where an operator stands in a registry, and which operators there are. -/
structure IsEntry (kind : Kind) (symbol : String) (op : Operator) : Prop where
  kind_eq : op.kind = kind
  symbol_eq : op.symbol = symbol
  symbol_ne : symbol ≠ ""
  precedence : ∀ c, op = .connective c →
    openPrecedence < c.precedence ∧ c.precedence < closedPrecedence
  unary : ∀ o, op = .opener o → kind = .unary

private theorem isEntry_of_refusal?_eq_none {op : Operator} (hop : refusal? op = none) :
    IsEntry op.kind op.symbol op := by
  cases op with
  | connective c =>
    obtain ⟨hopen, hclosed, hsymbol, -⟩ := refusal?_connective_eq_none_iff.1 hop
    refine ⟨rfl, rfl, hsymbol, fun other hother => ?_, nofun⟩
    obtain rfl := Operator.connective.inj hother
    exact ⟨hopen, hclosed⟩
  | opener o =>
    obtain ⟨hsymbol, hkind⟩ := refusal?_opener_eq_none_iff.1 hop
    exact ⟨rfl, rfl, hsymbol, nofun, fun _ _ => hkind⟩

private theorem Sound.isEntry {r : Registry} (hr : r.Sound) {kind : Kind}
    {entries : Std.TreeMap String Operator} (hentries : r.table kind = .ok entries) {symbol : String}
    {op : Operator} (hop : entries[symbol]? = some op) : IsEntry kind symbol op := by
  cases kind with
  | unary =>
    obtain rfl := Except.ok.inj hentries
    obtain ⟨rfl, hkind, hrefusal⟩ := hr.unary symbol op hop
    exact hkind ▸ isEntry_of_refusal?_eq_none hrefusal
  | binary =>
    obtain rfl := Except.ok.inj hentries
    obtain ⟨rfl, hkind, hrefusal⟩ := hr.binary symbol op hop
    exact hkind ▸ isEntry_of_refusal?_eq_none hrefusal
  | value => cases hentries

end Registry

/-- A lawful map looks up the last entry of a key. It is a search for the longest key in the key itself. -/
theorem PrefixMap.get?_ofList {M : Type → Type} [PrefixMap M] [LawfulPrefixMap M] {V : Type}
    (entries : List (String × V)) (key : String) :
    get? (ofList entries : M V) key = lastValue? entries key :=
  (get?_eq_exactly? entries key).trans ((measures_found? entries).exactly?_eq key)

/-- What the prefix maps of a dialect look up is what the registry holds that they were filled from. The
    order in which they were filled does not matter, since no key has two entries. -/
theorem Dialect.Freezes.lookup_eq {M : Type → Type} [PrefixMap M] [LawfulPrefixMap M]
    {d : Dialect M} {r : Registry} (h : d.Freezes r) (symbol : String) (kind : Kind) :
    d.lookup symbol kind = r.lookup symbol kind := by
  obtain ⟨⟨unary, hunary, hdUnary⟩, ⟨binary, hbinary, hdBinary⟩⟩ := h
  have hget : ∀ {entries : List (String × Operator)} {table : Std.TreeMap String Operator},
      entries.Perm table.toList →
        PrefixMap.get? (PrefixMap.ofList entries : M Operator) symbol = table[symbol]? :=
    fun hperm => (PrefixMap.get?_ofList _ symbol).trans (PrefixMap.lastValue?_of_perm hperm symbol)
  cases kind with
  | unary =>
    simp only [lookup, operators, hdUnary, bind, Except.bind, hget hunary]
    rfl
  | binary =>
    simp only [lookup, operators, hdBinary, bind, Except.bind, hget hbinary]
    rfl
  | value => rfl

namespace Registry

/-- After any calls on an empty or standard registry, failing ones included, the last operator that was
    accepted for a symbol and kind is found, or else the standard one. Every call owes what it answers,
    every entry stands where it belongs and keeps its precedence between those of open and closed
    groups, and a dialect that is filled from the registry finds the same, in whatever map and order. -/
theorem lookup_ofCalls {first : List Operator} (hfirst : first = [] ∨ first = Operator.standard)
    (calls : List Operator) :
    (History.ofCalls first calls).log.map Prod.fst = calls ∧
      (∀ op, ∃ answer,
        (History.ofCalls first (calls ++ [op])).log =
            (History.ofCalls first calls).log ++ [(op, answer)] ∧
          (History.ofCalls first calls).registry.Answers op answer
            (History.ofCalls first (calls ++ [op])).registry) ∧
      (∀ symbol kind, kind ≠ .value → (History.ofCalls first calls).registry.lookup symbol kind =
        ((latest? (History.ofCalls first calls).accepted symbol kind).or
          (latest? first symbol kind)).elim (.error (.unknownOperator symbol kind)) .ok) ∧
      (∀ kind entries symbol op, (History.ofCalls first calls).registry.table kind = .ok entries →
        entries[symbol]? = some op → IsEntry kind symbol op) ∧
      ∀ (M : Type → Type) [PrefixMap M] [LawfulPrefixMap M] (d : Dialect M),
        d.Freezes (History.ofCalls first calls).registry → ∀ symbol kind,
          d.lookup symbol kind = (History.ofCalls first calls).registry.lookup symbol kind := by
  obtain ⟨hregistry, haccepted⟩ := History.registry_ofCalls first calls
  have hsound : (History.ofCalls first calls).registry.Sound := by
    have hstandard : ∀ op ∈ first, refusal? op = none := by
      rcases hfirst with rfl | rfl <;> decide
    rw [hregistry]
    exact sound_ofList (List.forall_mem_append.2 ⟨hstandard, haccepted⟩)
  refine ⟨History.map_log_ofCalls first calls, fun op => ?_, fun symbol kind hkind => ?_,
    fun _ _ _ _ hentries hop => hsound.isEntry hentries hop, fun _ _ _ _ hd => hd.lookup_eq⟩
  · rw [History.ofCalls_concat]
    exact History.exists_answers_call _ op
  · rw [hregistry, ofList, lookup_foldl_put _ _ _ hkind, lookup_empty _ hkind, latest?_append]

/-- Implication is registered twice under an arrow, the first time too loosely, and the bracket is
    refused where it would stand behind an operand. -/
theorem lookup_ofCalls_arrows :
    let arrow := fun precedence => Operator.connective
      ⟨"->", .binary, precedence, Rule.ofFunction fun left right => !left.getD false || right⟩
    let h := History.ofCalls Operator.standard
      [arrow 0, arrow 7, .opener ⟨"[", .binary⟩, .opener ⟨"", .binary⟩, arrow 9]
    h.log.map (fun entry => entry.2.toOption.isSome) = [false, true, false, false, true] ∧
      h.registry.lookup "->" .binary = .ok (arrow 9) ∧
      h.registry.lookup "[" .binary = .error (.unknownOperator "[" .binary) ∧
      (Dialect.ofRegistry h.registry : Dialect (PrefixMap.Hashed PrefixMap.fnv1a)).lookup "->" .binary =
        .ok (arrow 9) := by
  intro arrow h
  have hstandard : Operator.standard = [] ∨ Operator.standard = Operator.standard := .inr rfl
  obtain ⟨-, -, hlookup, -, hdialect⟩ := lookup_ofCalls hstandard
    [arrow 0, arrow 7, .opener ⟨"[", .binary⟩, .opener ⟨"", .binary⟩, arrow 9]
  have harrow : h.registry.lookup "->" .binary = .ok (arrow 9) := by
    rw [hlookup "->" .binary (by decide)]
    decide +kernel
  have hbracket : h.registry.lookup "[" .binary = .error (.unknownOperator "[" .binary) := by
    rw [hlookup "[" .binary (by decide)]
    decide +kernel
  refine ⟨by decide +kernel, harrow, hbracket, ?_⟩
  rw [hdialect _ _ (Dialect.freezes_ofRegistry _)]
  exact harrow

end Registry

end Sentential
