import Mathlib.Data.Set.Defs
import Sentential.Proofs.Formula.Regrading
import Sentential.Proofs.Operator.History

namespace Sentential

/-- A change of precedences that keeps the order of those among `grades`, and keeps them above that of
    an open group. -/
structure Regrades (m : Int → Int) (grades : Set Int) : Prop where
  map_lt_map : ∀ p ∈ grades, ∀ q ∈ grades, p < q → m p < m q
  openPrecedence_lt : ∀ p ∈ grades, openPrecedence < p
  openPrecedence_lt_map : ∀ p ∈ grades, openPrecedence < m p

/-- Of two precedences in use, the new ones compare as the old ones did. A climb therefore stops at the
    same operator. -/
theorem Regrades.map_le_map_iff {m : Int → Int} {grades : Set Int} (h : Regrades m grades) {p q : Int}
    (hp : p ∈ grades) (hq : q ∈ grades) : m p ≤ m q ↔ p ≤ q := by
  constructor
  · intro hle
    refine Int.not_lt.1 fun hlt => ?_
    exact Int.not_lt.2 hle (h.map_lt_map q hq p hp hlt)
  · intro hle
    rcases Int.lt_or_eq_of_le hle with hlt | rfl
    · exact Int.le_of_lt (h.map_lt_map p hp q hq hlt)
    · exact Int.le_refl _

namespace Operator

/-- The operator with another precedence if it is a connective. -/
def mapPrecedence (m : Int → Int) : Operator → Operator
  | connective c => connective (c.mapPrecedence m)
  | opener o => opener o

/-- An operator with a new precedence is written as before. -/
theorem token_mapPrecedence (m : Int → Int) (op : Operator) :
    (op.mapPrecedence m).token = op.token.mapPrecedence m := by
  cases op <;> rfl

private theorem symbol_mapPrecedence (m : Int → Int) (op : Operator) :
    (op.mapPrecedence m).symbol = op.symbol := by
  cases op <;> rfl

private theorem kind_mapPrecedence (m : Int → Int) (op : Operator) :
    (op.mapPrecedence m).kind = op.kind := by
  cases op <;> rfl

end Operator

namespace Registry

/-- What a table holds is found in the registry. -/
theorem lookup_of_table {r : Registry} {symbol : String} {kind : Kind}
    {table : Std.TreeMap String Operator} {op : Operator} (htable : r.table kind = .ok table)
    (hop : table[symbol]? = some op) : r.lookup symbol kind = .ok op := by
  simp only [lookup, htable, bind, Except.bind, hop]
  rfl

private theorem lookup_eq_ok {r : Registry} {symbol : String} {kind : Kind} {op : Operator}
    (h : (r.lookup symbol kind).toOption = some op) : r.lookup symbol kind = .ok op := by
  cases hlookup : r.lookup symbol kind with
  | error e => simp [hlookup, Except.toOption] at h
  | ok found =>
    rw [hlookup] at h
    exact congrArg Except.ok (Option.some.inj h)

private theorem lookup_eq_error {r : Registry} {symbol : String} {kind : Kind} (hkind : kind ≠ .value)
    (h : (r.lookup symbol kind).toOption = none) :
    r.lookup symbol kind = .error (.unknownOperator symbol kind) := by
  cases kind with
  | unary =>
    rw [lookup_unary] at h
    simp only [lookup, table, bind, Except.bind, h]
    rfl
  | binary =>
    rw [lookup_binary] at h
    simp only [lookup, table, bind, Except.bind, h]
    rfl
  | value => exact absurd rfl hkind

private theorem Sound.of_lookup {r : Registry} (hr : r.Sound) {symbol : String} {kind : Kind}
    {op : Operator} (h : r.lookup symbol kind = .ok op) :
    op.symbol = symbol ∧ op.kind = kind ∧ refusal? op = none := by
  cases kind with
  | unary => exact hr.unary symbol op (by rw [← lookup_unary, h]; rfl)
  | binary => exact hr.binary symbol op (by rw [← lookup_binary, h]; rfl)
  | value => cases h

/-- What is found in a registry is an operator that its texts can be written with. It is found under its
    own symbol and kind. -/
theorem Sound.knows_of_lookup {r : Registry} (hr : r.Sound) {symbol : String} {kind : Kind}
    {op : Operator} (h : r.lookup symbol kind = .ok op) : r.Knows op := by
  obtain ⟨rfl, rfl, -⟩ := hr.of_lookup h
  rw [Knows, ← lookup_unary, ← lookup_binary]
  cases hkind : op.kind with
  | unary => exact .inl (by rw [← hkind, h]; rfl)
  | binary => exact .inr (by rw [← hkind, h]; rfl)
  | value =>
    rw [hkind] at h
    cases h

/-- All operators, unary ones first. -/
def listed (r : Registry) : List Operator :=
  (r.unary.toList ++ r.binary.toList).map Prod.snd

private theorem Sound.mem_listed_iff {r : Registry} (hr : r.Sound) {op : Operator} :
    op ∈ r.listed ↔ r.lookup op.symbol op.kind = .ok op := by
  constructor
  · intro h
    obtain ⟨⟨symbol, op⟩, hmem, rfl⟩ := List.mem_map.1 h
    rcases List.mem_append.1 hmem with hunary | hbinary
    · have hfound := Std.TreeMap.mem_toList_iff_getElem?_eq_some.1 hunary
      obtain ⟨rfl, hkind, -⟩ := hr.unary symbol op hfound
      rw [hkind]
      exact lookup_of_table rfl hfound
    · have hfound := Std.TreeMap.mem_toList_iff_getElem?_eq_some.1 hbinary
      obtain ⟨rfl, hkind, -⟩ := hr.binary symbol op hfound
      rw [hkind]
      exact lookup_of_table rfl hfound
  · intro h
    refine List.mem_map.2 ⟨(op.symbol, op), List.mem_append.2 ?_, rfl⟩
    exact (hr.knows_of_lookup h).imp Std.TreeMap.mem_toList_iff_getElem?_eq_some.2
      Std.TreeMap.mem_toList_iff_getElem?_eq_some.2

private theorem Sound.latest?_listed {r : Registry} (hr : r.Sound) (symbol : String) (kind : Kind) :
    latest? r.listed symbol kind = (r.lookup symbol kind).toOption := by
  cases hlatest : latest? r.listed symbol kind with
  | some op =>
    rw [latest?] at hlatest
    obtain ⟨rfl, rfl⟩ : op.symbol = symbol ∧ op.kind = kind := by simpa using List.find?_some hlatest
    have hmem := List.mem_reverse.1 (List.mem_of_find?_eq_some hlatest)
    rw [hr.mem_listed_iff.1 hmem]
    rfl
  | none =>
    cases hlookup : r.lookup symbol kind with
    | error e => rfl
    | ok op =>
      obtain ⟨rfl, rfl, -⟩ := hr.of_lookup hlookup
      have hmem := List.mem_reverse.2 (hr.mem_listed_iff.2 hlookup)
      rw [latest?] at hlatest
      exact absurd (List.find?_eq_none.1 hlatest op hmem) (by simp)

private theorem Validated.foldl_put {r : Registry} (hr : r.Validated) {ops : List Operator}
    (hops : ∀ op ∈ ops, refusal? op = none) : (ops.foldl put r).Validated := by
  induction ops generalizing r with
  | nil => exact hr
  | cons op rest ih =>
    obtain ⟨hop, hrest⟩ := List.forall_mem_cons.1 hops
    have hregister : r.register op = .ok ((r.lookup op.symbol op.kind).toOption, r.put op) := by
      simp only [Registry.register, hop]
    exact ih (hr.register hregister) hrest

/-- A registry that holds nothing that registration would refuse can be made by registrations. Only what
    is found matters, not the order of the calls. -/
theorem Sound.exists_validated {r : Registry} (hr : r.Sound) :
    ∃ s : Registry, s.Validated ∧ ∀ symbol kind, s.lookup symbol kind = r.lookup symbol kind := by
  have hops : ∀ op ∈ r.listed, refusal? op = none :=
    fun op hop => (hr.of_lookup (hr.mem_listed_iff.1 hop)).2.2
  refine ⟨_, Validated.empty.foldl_put hops, fun symbol kind => ?_⟩
  by_cases hkind : kind = .value
  · subst hkind
    rfl
  · rw [lookup_foldl_put _ _ _ hkind, hr.latest?_listed, lookup_empty _ hkind]
    cases hlookup : (r.lookup symbol kind).toOption with
    | none => exact (lookup_eq_error hkind hlookup).symm
    | some op => exact (lookup_eq_ok hlookup).symm

/-- The precedences of the connectives of a registry. -/
def grades (r : Registry) : Set Int :=
  {p | ∃ symbol kind c, r.lookup symbol kind = .ok (.connective c) ∧ c.precedence = p}

/-- The precedences in use are between those of open and closed groups. Registration has checked this
    for each of them. -/
theorem Sound.between_of_mem_grades {r : Registry} (hr : r.Sound) {p : Int} (hp : p ∈ r.grades) :
    openPrecedence < p ∧ p < closedPrecedence := by
  obtain ⟨symbol, kind, c, hlookup, rfl⟩ := hp
  obtain ⟨-, -, hrefusal⟩ := hr.of_lookup hlookup
  obtain ⟨hopen, hclosed, -⟩ := refusal?_connective_eq_none_iff.1 hrefusal
  exact ⟨hopen, hclosed⟩

/-- The second registry has the operators of the first one with new precedences, and no others. -/
def RegradesTo (m : Int → Int) (r s : Registry) : Prop :=
  ∀ symbol kind, s.lookup symbol kind = (r.lookup symbol kind).map (Operator.mapPrecedence m)

/-- The unary table has the operators of the other one with their new precedences. -/
theorem RegradesTo.unary {m : Int → Int} {r s : Registry} (h : r.RegradesTo m s) (symbol : String) :
    s.unary[symbol]? = r.unary[symbol]?.map (Operator.mapPrecedence m) := by
  rw [← lookup_unary, ← lookup_unary, h symbol .unary]
  cases r.lookup symbol .unary <;> rfl

/-- The binary table has the operators of the other one with their new precedences. -/
theorem RegradesTo.binary {m : Int → Int} {r s : Registry} (h : r.RegradesTo m s) (symbol : String) :
    s.binary[symbol]? = r.binary[symbol]?.map (Operator.mapPrecedence m) := by
  rw [← lookup_binary, ← lookup_binary, h symbol .binary]
  cases r.lookup symbol .binary <;> rfl

/-- New precedences between those of open and closed groups are not refused. -/
private theorem refusal?_mapPrecedence {m : Int → Int} {op : Operator} (hop : refusal? op = none)
    (hm : ∀ c, op = .connective c → openPrecedence < m c.precedence ∧ m c.precedence < closedPrecedence) :
    refusal? (op.mapPrecedence m) = none := by
  cases op with
  | opener o => exact hop
  | connective c =>
    obtain ⟨hopen, hclosed⟩ := hm c rfl
    obtain ⟨-, -, hsymbol, hkind⟩ := refusal?_connective_eq_none_iff.1 hop
    exact refusal?_connective_eq_none_iff.2 ⟨hopen, hclosed, hsymbol, hkind⟩

/-- Every operator with its new precedence. -/
def mapPrecedence (m : Int → Int) (r : Registry) : Registry :=
  ⟨r.unary.map fun _ => Operator.mapPrecedence m, r.binary.map fun _ => Operator.mapPrecedence m⟩

private theorem regradesTo_mapPrecedence (m : Int → Int) (r : Registry) :
    r.RegradesTo m (r.mapPrecedence m) := by
  intro symbol kind
  cases kind with
  | unary =>
    simp only [lookup, table, mapPrecedence, bind, Except.bind, Std.TreeMap.getElem?_map]
    cases r.unary[symbol]? <;> rfl
  | binary =>
    simp only [lookup, table, mapPrecedence, bind, Except.bind, Std.TreeMap.getElem?_map]
    cases r.binary[symbol]? <;> rfl
  | value => rfl

/-- A registry that registration accepts is accepted with new precedences between those of open and
    closed groups. The order of the new ones plays no part here. -/
theorem Sound.mapPrecedence {r : Registry} (hr : r.Sound) {m : Int → Int}
    (hm : ∀ p ∈ r.grades, openPrecedence < m p ∧ m p < closedPrecedence) :
    (r.mapPrecedence m).Sound := by
  have hentry : ∀ {kind : Kind} {symbol : String} {op : Operator}, r.lookup symbol kind = .ok op →
      (op.mapPrecedence m).symbol = symbol ∧ (op.mapPrecedence m).kind = kind ∧
        refusal? (op.mapPrecedence m) = none := by
    intro kind symbol op hlookup
    obtain ⟨hsymbol, hkind, hrefusal⟩ := hr.of_lookup hlookup
    refine ⟨(op.symbol_mapPrecedence m).trans hsymbol, (op.kind_mapPrecedence m).trans hkind,
      refusal?_mapPrecedence hrefusal fun c hc => ?_⟩
    exact hm _ ⟨symbol, kind, c, hc ▸ hlookup, rfl⟩
  have hregrades := regradesTo_mapPrecedence m r
  refine ⟨fun symbol op hop => ?_, fun symbol op hop => ?_⟩
  · rw [hregrades.unary] at hop
    obtain ⟨old, hold, rfl⟩ := Option.map_eq_some_iff.1 hop
    exact hentry (lookup_of_table rfl hold)
  · rw [hregrades.binary] at hop
    obtain ⟨old, hold, rfl⟩ := Option.map_eq_some_iff.1 hop
    exact hentry (lookup_of_table rfl hold)

/-- New precedences between those of open and closed groups can be had by registrations. So there are
    registries for what is said of two that differ in precedences only. -/
theorem Sound.exists_regradesTo {r : Registry} (hr : r.Sound) {m : Int → Int}
    (hm : ∀ p ∈ r.grades, openPrecedence < m p ∧ m p < closedPrecedence) :
    ∃ s : Registry, s.Validated ∧ r.RegradesTo m s := by
  obtain ⟨s, hs, hlookup⟩ := (hr.mapPrecedence hm).exists_validated
  exact ⟨s, hs, fun symbol kind => (hlookup symbol kind).trans (regradesTo_mapPrecedence m r symbol kind)⟩

end Registry

end Sentential
