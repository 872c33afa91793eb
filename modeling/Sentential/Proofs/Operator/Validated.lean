import Sentential.Cursor
import Sentential.Operator.Dialect

namespace Sentential

namespace PrefixMap

variable {V : Type}

/-- The last value of a key is one of its values. What a map holds thus comes from its entries. -/
theorem mem_of_lastValue? {entries : List (String × V)} {key : String} {value : V}
    (h : lastValue? entries key = some value) : (key, value) ∈ entries := by
  -- The fold carries the value found so far, so the induction is over any value found before.
  have hgeneral : ∀ found : Option V,
      entries.foldl (fun found entry => if entry.1 = key then some entry.2 else found) found
        = some value → found = some value ∨ (key, value) ∈ entries := by
    clear h
    induction entries with
    | nil => exact fun found hfound => Or.inl hfound
    | cons entry rest ih =>
      intro found hfound
      rw [List.foldl_cons] at hfound
      rcases ih _ hfound with hstart | hmem
      · split at hstart
        · rename_i hkey
          obtain rfl := Option.some.inj hstart
          exact Or.inr (by simp [← hkey])
        · exact Or.inl hstart
      · exact Or.inr (List.mem_cons_of_mem entry hmem)
  rcases hgeneral none h with hnone | hmem
  · cases hnone
  · exact hmem

/-- A key that has a value has a last one. -/
theorem isSome_lastValue?_of_mem {entries : List (String × V)} {key : String} {value : V}
    (h : (key, value) ∈ entries) : (lastValue? entries key).isSome := by
  -- A value that is found is replaced, but never lost.
  have hgeneral : ∀ found : Option V, found.isSome ∨ (key, value) ∈ entries →
      (entries.foldl (fun found entry => if entry.1 = key then some entry.2 else found)
        found).isSome := by
    clear h
    induction entries with
    | nil => exact fun found hfound => hfound.resolve_right (List.not_mem_nil)
    | cons entry rest ih =>
      intro found hfound
      refine ih _ ?_
      rcases hfound with hsome | hmem
      · left
        dsimp only
        split
        · rfl
        · exact hsome
      · rcases List.mem_cons.1 hmem with rfl | hrest
        · simp
        · exact .inr hrest
  exact hgeneral none (.inr h)

/-- A search of a lawful map finds nothing but what the map was built from. Its key and its value belong
    together. -/
theorem mem_of_longest?_ofList {M : Type → Type} [PrefixMap M] [LawfulPrefixMap M]
    {entries : List (String × V)} {text : List Char} {key : String} {value : V}
    (h : longest? (ofList entries : M V) text = some (key, value)) : (key, value) ∈ entries := by
  have hlongest := LawfulPrefixMap.isLongest_ofList (M := M) entries text
  rw [h] at hlongest
  exact mem_of_lastValue? hlongest.1

end PrefixMap

private theorem Cursor.exists_longest?_of_symbol? {M : Type → Type} [PrefixMap M] {V : Type} {map : M V}
    {cursor rest : Cursor} {value : V} (h : cursor.symbol? map = some (value, rest)) :
    ∃ key, PrefixMap.longest? map cursor.remaining = some (key, value) := by
  unfold symbol? at h
  split at h
  · rename_i key found hlongest
    split at h
    · cases h
    · obtain ⟨rfl, -⟩ := by simpa using h
      exact ⟨key, hlongest⟩
  · cases h

namespace Registry

/-- A connective is accepted if it has a symbol and an arity, and binds more tightly than an open group
    and less tightly than a closed one. -/
theorem refusal?_connective_eq_none_iff {c : Connective} :
    refusal? (.connective c) = none ↔
      openPrecedence < c.precedence ∧ c.precedence < closedPrecedence ∧ c.symbol ≠ "" ∧
        c.kind ≠ .value := by
  by_cases hrange : c.precedence ≤ openPrecedence ∨ closedPrecedence ≤ c.precedence
  · have hout : ¬ (openPrecedence < c.precedence ∧ c.precedence < closedPrecedence) := by omega
    simp only [refusal?, hrange, if_true, reduceCtorEq, false_iff]
    exact fun h => hout ⟨h.1, h.2.1⟩
  · have hbounds : openPrecedence < c.precedence ∧ c.precedence < closedPrecedence := by omega
    by_cases hsymbol : c.symbol = ""
    · simp [refusal?, hrange, hsymbol]
    · by_cases hkind : c.kind = .value <;> simp [refusal?, hrange, hbounds, hsymbol, hkind]

/-- An opener is accepted if it has a symbol and stands in front of an operand. It has no precedence of
    its own to be checked. -/
theorem refusal?_opener_eq_none_iff {o : Opener} :
    refusal? (.opener o) = none ↔ o.symbol ≠ "" ∧ o.kind = .unary := by
  by_cases hsymbol : o.symbol = ""
  · simp [refusal?, hsymbol]
  · by_cases hkind : o.kind = .unary <;> simp [refusal?, hsymbol, hkind]

/-- Every operator stands in the table of its own arity under its own symbol, and registration
    would not refuse it. -/
structure Sound (r : Registry) : Prop where
  unary : ∀ symbol op, r.unary[symbol]? = some op →
    op.symbol = symbol ∧ op.kind = .unary ∧ refusal? op = none
  binary : ∀ symbol op, r.binary[symbol]? = some op →
    op.symbol = symbol ∧ op.kind = .binary ∧ refusal? op = none

private theorem sound_empty : Registry.empty.Sound where
  unary symbol op h := by simp [Registry.empty] at h
  binary symbol op h := by simp [Registry.empty] at h

/-- Putting an operator that passed the check keeps a registry sound. It goes to the table of its kind,
    under its own symbol. -/
theorem Sound.put {r : Registry} (hsound : r.Sound) {op : Operator} (hop : refusal? op = none) :
    (r.put op).Sound := by
  unfold Registry.put
  cases hkind : op.kind with
  | unary =>
    refine ⟨fun symbol found hfound => ?_, hsound.binary⟩
    rw [Std.TreeMap.getElem?_insert] at hfound
    split at hfound
    · rename_i heq
      obtain rfl := Option.some.inj hfound
      exact ⟨Std.LawfulEqCmp.eq_of_compare heq, hkind, hop⟩
    · exact hsound.unary symbol found hfound
  | binary =>
    refine ⟨hsound.unary, fun symbol found hfound => ?_⟩
    rw [Std.TreeMap.getElem?_insert] at hfound
    split at hfound
    · rename_i heq
      obtain rfl := Option.some.inj hfound
      exact ⟨Std.LawfulEqCmp.eq_of_compare heq, hkind, hop⟩
    · exact hsound.binary symbol found hfound
  | value => exact hsound

/-- A registry of operators that pass the check is sound. Later entries may replace earlier ones. -/
theorem sound_ofList {ops : List Operator} (hops : ∀ op ∈ ops, refusal? op = none) :
    (ofList ops).Sound := by
  have hfold : ∀ r : Registry, r.Sound → (ops.foldl Registry.put r).Sound := by
    induction ops with
    | nil => exact fun r hr => hr
    | cons op rest ih =>
      intro r hr
      exact ih (fun other hother => hops other (List.mem_cons_of_mem op hother)) _
        (hr.put (hops op List.mem_cons_self))
  exact hfold Registry.empty sound_empty

/-- The standard operators pass the check that registration makes. They are checked one by one. -/
theorem sound_standard : Registry.standard.Sound :=
  sound_ofList (by decide)

/-- The registries that come of the empty or the standard one by registrations that were not
    refused. -/
inductive Validated : Registry → Prop where
  | empty : Validated Registry.empty
  | standard : Validated Registry.standard
  | register {r next : Registry} {op : Operator} {replaced : Option Operator} (hr : Validated r)
    (hregister : r.register op = .ok (replaced, next)) : Validated next

/-- What comes of registrations that were not refused is sound. Reading is proved from this, not from
    the way in which the registry was made. -/
theorem Validated.sound {r : Registry} (h : r.Validated) : r.Sound := by
  induction h with
  | empty => exact sound_empty
  | standard => exact sound_standard
  | @register r next op replaced _ hregister ih =>
    unfold Registry.register at hregister
    split at hregister
    · cases hregister
    · rename_i hop
      obtain ⟨-, rfl⟩ := by simpa using hregister
      exact ih.put hop

end Registry

namespace Dialect

variable {M : Type → Type} [PrefixMap M]

/-- What a reader may rely on: of each arity, only operators that passed registration are found. -/
structure Sound (d : Dialect M) : Prop where
  unary : ∀ {cursor rest : Cursor} {op : Operator}, cursor.symbol? d.unary = some (op, rest) →
    op.kind = .unary ∧ Registry.refusal? op = none
  binary : ∀ {cursor rest : Cursor} {op : Operator}, cursor.symbol? d.binary = some (op, rest) →
    op.kind = .binary ∧ Registry.refusal? op = none

/-- A reader with the operators of a validated registry finds only operators that passed registration,
    whatever map it searches. What is proved of reading needs no more of the dialect than this. -/
theorem sound_ofRegistry [LawfulPrefixMap M] {r : Registry} (h : r.Validated) :
    (ofRegistry r : Dialect M).Sound where
  unary {cursor rest op} hsymbol := by
    obtain ⟨key, hlongest⟩ := Cursor.exists_longest?_of_symbol? hsymbol
    have hmem := PrefixMap.mem_of_longest?_ofList hlongest
    exact (h.sound.unary key op (Std.TreeMap.mem_toList_iff_getElem?_eq_some.1 hmem)).2
  binary {cursor rest op} hsymbol := by
    obtain ⟨key, hlongest⟩ := Cursor.exists_longest?_of_symbol? hsymbol
    have hmem := PrefixMap.mem_of_longest?_ofList hlongest
    exact (h.sound.binary key op (Std.TreeMap.mem_toList_iff_getElem?_eq_some.1 hmem)).2

/-- A validated operator behind an operand is a connective that binds tighter than an open group. No
    group is opened there, and no climb goes past an open one. -/
theorem Sound.connective_of_symbol? {d : Dialect M} (hsound : d.Sound) {cursor rest : Cursor}
    {op : Operator} (h : cursor.symbol? d.binary = some (op, rest)) :
    ∃ c, op = .connective c ∧ openPrecedence < c.precedence := by
  obtain ⟨hkind, hrefusal⟩ := hsound.binary h
  cases op with
  | connective c => exact ⟨c, rfl, (Registry.refusal?_connective_eq_none_iff.1 hrefusal).1⟩
  | opener o =>
    have hunary := (Registry.refusal?_opener_eq_none_iff.1 hrefusal).2
    have hbinary : o.kind = .binary := hkind
    rw [hunary] at hbinary
    cases hbinary

end Dialect

end Sentential
