import Sentential.PrefixMap.Sorted
import Sentential.Proofs.Parsing.Climbing
import Sentential.Proofs.Parsing.Plain
import Sentential.Proofs.PrefixMap.Bytewise

namespace Sentential

namespace PrefixMap

variable {V : Type}

/-- Entries that come of a table in any order have the values of the table, since no key of a table has
    two. The order in which a map is filled plays no part because of it. -/
theorem lastValue?_of_perm {entries : List (String × V)} {table : Std.TreeMap String V}
    (h : entries.Perm table.toList) (key : String) : lastValue? entries key = table[key]? := by
  have hsound : ∀ value, lastValue? entries key = some value → table[key]? = some value :=
    fun value hlast =>
      Std.TreeMap.mem_toList_iff_getElem?_eq_some.1 (h.mem_iff.1 (mem_of_lastValue? hlast))
  cases htable : table[key]? with
  | some value =>
    have hmem := h.mem_iff.2 (Std.TreeMap.mem_toList_iff_getElem?_eq_some.2 htable)
    obtain ⟨last, hlast⟩ := Option.isSome_iff_exists.1 (isSome_lastValue?_of_mem hmem)
    rw [hlast, ← hsound last hlast, htable]
  | none =>
    cases hlast : lastValue? entries key with
    | none => rfl
    | some last => simp [hsound last hlast] at htable

/-- A search that does not count the empty key owes the longest of the other ones. A cursor never takes
    the empty key, so only these matter to it. -/
theorem IsLongest.filter_ne_empty {holds : String → V → Prop} {text : List Char}
    {result : Option (String × V)} (h : IsLongest holds text result) :
    IsLongest (fun key value => key ≠ "" ∧ Begins key text ∧ holds key value) text
      (result.filter fun entry => entry.1 ≠ "") := by
  rcases result with _ | ⟨key, value⟩
  · exact fun other w hother hbegins => h other w hother.2.2 hbegins
  · obtain ⟨hholds, hbegins, hmax⟩ := h
    by_cases hkey : key = ""
    · have hnone : (some (key, value)).filter (fun entry => decide (entry.1 ≠ "")) = none := by
        simp [hkey]
      rw [hnone]
      rintro other w ⟨hother, -, hheld⟩ hstarts
      have hsize := hmax other w hheld hstarts
      rw [hkey] at hsize
      exact hother (String.utf8ByteSize_eq_zero_iff.1 (Nat.le_zero.1 hsize))
    · have hsome : (some (key, value)).filter (fun entry => decide (entry.1 ≠ "")) =
          some (key, value) := by
        simp [hkey]
      rw [hsome]
      exact ⟨⟨hkey, hbegins, hholds⟩, hbegins, fun other w hother => hmax other w hother.2.2⟩

/-- A search of changed values owes the changed value of the same key. Which key is longest does not
    depend on the values. -/
theorem IsLongest.map {holds : String → V → Prop} {text : List Char} {result : Option (String × V)}
    {W : Type} (g : V → W) (h : IsLongest holds text result) :
    IsLongest (fun key w => ∃ v, holds key v ∧ g v = w) text (result.map (Prod.map id g)) := by
  rcases result with _ | ⟨key, value⟩
  · rintro other w ⟨v, hv, -⟩
    exact h other v hv
  · obtain ⟨hvalue, hbegins, hmax⟩ := h
    refine ⟨⟨value, hvalue, rfl⟩, hbegins, ?_⟩
    rintro other w ⟨v, hv, -⟩
    exact hmax other v hv

end PrefixMap

namespace Cursor

variable {M N : Type → Type} [PrefixMap M] [PrefixMap N] {V : Type}

/-- What a cursor takes is what the map finds there, the empty key apart. It turns facts about searches
    into facts about cursors. -/
theorem symbol?_eq_map_filter (map : M V) (cursor : Cursor) :
    cursor.symbol? map =
      ((PrefixMap.longest? map cursor.remaining).filter fun entry => entry.1 ≠ "").map
        fun entry => (entry.2, cursor.advance entry.1.length) := by
  unfold symbol?
  rcases PrefixMap.longest? map cursor.remaining with _ | ⟨key, value⟩
  · rfl
  · by_cases hkey : key = "" <;> simp [hkey, Option.filter]

/-- Only the keys that begin what is ahead have a say in what a cursor takes, whichever way the map
    stores them. Where one map has the values of another under a function, so have the searches. -/
theorem symbol?_map [LawfulPrefixMap M] [LawfulPrefixMap N] {W : Type} {entries : List (String × V)}
    {others : List (String × W)} {g : V → W} {cursor : Cursor}
    (h : ∀ key, key ≠ "" → PrefixMap.Begins key cursor.remaining →
      PrefixMap.lastValue? others key = (PrefixMap.lastValue? entries key).map g) :
    cursor.symbol? (PrefixMap.ofList others : N W) =
      (cursor.symbol? (PrefixMap.ofList entries : M V)).map (Prod.map g id) := by
  rw [symbol?_eq_map_filter, symbol?_eq_map_filter, Option.map_map]
  have hleft := (LawfulPrefixMap.isLongest_ofList (M := N) others cursor.remaining).filter_ne_empty
  have hright := (LawfulPrefixMap.isLongest_ofList (M := M) entries cursor.remaining).filter_ne_empty
  have hmapped := hright.map g
  have hsame := hleft.unique ?_ (hmapped.congr fun key value => ?_)
  · rw [hsame, Option.map_map]
    rfl
  · rintro key v w ⟨-, -, hv⟩ ⟨-, -, hw⟩
    exact Option.some.inj (hv.symm.trans hw)
  · constructor
    · rintro ⟨v, ⟨hkey, hbegins, hvalue⟩, rfl⟩
      exact ⟨hkey, hbegins, by rw [h key hkey hbegins, hvalue]; rfl⟩
    · rintro ⟨hkey, hbegins, hvalue⟩
      rw [h key hkey hbegins] at hvalue
      obtain ⟨v, hv, rfl⟩ := Option.map_eq_some_iff.1 hvalue
      exact ⟨v, ⟨hkey, hbegins, hv⟩, rfl⟩

private theorem symbol?_congr [LawfulPrefixMap M] [LawfulPrefixMap N]
    {entries others : List (String × V)} {cursor : Cursor}
    (h : ∀ key, key ≠ "" → PrefixMap.Begins key cursor.remaining →
      PrefixMap.lastValue? entries key = PrefixMap.lastValue? others key) :
    cursor.symbol? (PrefixMap.ofList entries : M V) =
      cursor.symbol? (PrefixMap.ofList others : N V) := by
  have hmap := symbol?_map (M := N) (N := M) (g := id) fun key hkey hbegins =>
    (h key hkey hbegins).trans Option.map_id'.symm
  simpa using hmap

private theorem token?_congr {d : Dialect M} {e : Dialect N} {cursor : Cursor}
    (hunary : cursor.symbol? d.unary = cursor.symbol? e.unary)
    (hbinary : cursor.symbol? d.binary = cursor.symbol? e.binary) (expected : Expectation) :
    cursor.token? d expected = cursor.token? e expected := by
  unfold token?
  rw [hunary, hbinary]

/-- Taking a token is moving ahead. What is ahead afterwards is therefore an end of the text. -/
theorem exists_advance_of_token? {d : Dialect M} {expected : Expectation} {cursor rest : Cursor}
    {t : Token} (h : cursor.token? d expected = some (t, rest)) :
    ∃ n, rest = cursor.advance n := by
  have hsymbol : ∀ {map : M Operator} {op : Operator} {behind : Cursor},
      cursor.symbol? map = some (op, behind) → ∃ n, behind = cursor.advance n := by
    intro map op behind hsymbol
    rw [symbol?_eq_map_filter] at hsymbol
    obtain ⟨entry, -, hentry⟩ := Option.map_eq_some_iff.1 hsymbol
    exact ⟨entry.1.length, (Prod.mk.inj hentry).2.symm⟩
  cases takes_of_token? h with
  | identifier hname =>
    unfold identifier? at hname
    split at hname
    · cases hname
    · obtain ⟨-, rfl⟩ := by simpa using hname
      exact ⟨_, rfl⟩
  | unary _ _ hop => exact hsymbol hop
  | closer _ => exact ⟨1, rfl⟩
  | binary _ _ hop => exact hsymbol hop

private theorem advance_suffix (cursor : Cursor) (n : Nat) :
    (cursor.advance n).remaining <:+ cursor.remaining :=
  List.drop_suffix n cursor.remaining

end Cursor

namespace ParseState

variable {M N : Type → Type} [PrefixMap M] [PrefixMap N]

/-- A step depends on the dialect through the token that it takes. -/
private theorem step_congr {d : Dialect M} {e : Dialect N} {s : ParseState}
    (h : s.cursor.skipBlank.token? d s.due.expectation =
      s.cursor.skipBlank.token? e s.due.expectation) : step d s = step e s := by
  cases htoken : s.cursor.skipBlank.token? e s.due.expectation with
  | none => rw [step_of_token?_eq_none htoken, step_of_token?_eq_none (h.trans htoken)]
  | some taken =>
    obtain ⟨t, rest⟩ := taken
    rw [step_of_token?_eq_some htoken, step_of_token?_eq_some (h.trans htoken)]

/-- What is ahead of a step goes on with what is ahead of the next one. Reading never comes to a place
    that is not in the text. -/
theorem suffix_of_step {d : Dialect M} {s next : ParseState} (h : step d s = .ok (.inr next)) :
    next.cursor.remaining <:+ s.cursor.remaining := by
  cases htoken : s.cursor.skipBlank.token? d s.due.expectation with
  | none =>
    rw [step_of_token?_eq_none htoken] at h
    cases hfinish : s.assembly.finish
        ⟨s.cursor.skipBlank.peek?, s.cursor.skipBlank.position⟩ <;>
      simp [hfinish, Except.map] at h
  | some taken =>
    obtain ⟨t, rest⟩ := taken
    rw [step_of_token?_eq_some htoken] at h
    obtain ⟨n, rfl⟩ := Cursor.exists_advance_of_token? htoken
    cases hfeed : s.assembly.feed ⟨t, s.cursor.skipBlank.position⟩ with
    | error fault => simp [hfeed, Except.map] at h
    | ok a =>
      obtain rfl := by simpa [hfeed, Except.map] using h
      exact (Cursor.advance_suffix _ n).trans (Cursor.advance_suffix s.cursor _)

/-- Two dialects that take the same symbols at every place of a text read the same formula, or fail in
    the same way. Symbols that occur nowhere in the text play no part. -/
theorem run_congr {d : Dialect M} {e : Dialect N} (s : ParseState)
    (h : ∀ cursor : Cursor, cursor.remaining <:+ s.cursor.remaining →
      cursor.symbol? d.unary = cursor.symbol? e.unary ∧
        cursor.symbol? d.binary = cursor.symbol? e.binary) : run d s = run e s := by
  obtain ⟨hunary, hbinary⟩ := h s.cursor.skipBlank (Cursor.advance_suffix s.cursor _)
  have hstep : step d s = step e s := step_congr (Cursor.token?_congr hunary hbinary _)
  cases hnext : step e s with
  | error fault => rw [run_of_step_eq_error hnext, run_of_step_eq_error (hstep.trans hnext)]
  | ok outcome =>
    cases outcome with
    | inl f => rw [run_of_step_eq_inl hnext, run_of_step_eq_inl (hstep.trans hnext)]
    | inr next =>
      rw [run_of_step_eq_inr hnext, run_of_step_eq_inr (hstep.trans hnext)]
      exact run_congr next fun cursor hcursor => h cursor (hcursor.trans (suffix_of_step hnext))
termination_by s.cursor.remaining.length
decreasing_by exact length_remaining_step hnext

end ParseState

/-- Two registries have the same operators for all symbols that occur in a text. The empty symbol
    occurs nowhere. -/
def Registry.AgreeOn (r s : Registry) (text : List Char) : Prop :=
  ∀ (symbol : String) (kind : Kind), symbol ≠ "" → symbol.toList <:+: text →
    r.lookup symbol kind = s.lookup symbol kind

/-- The prefix maps of a dialect hold the operators of a registry, in whatever order these were
    listed when the maps were built. -/
structure Dialect.Freezes {M : Type → Type} [PrefixMap M] (d : Dialect M) (r : Registry) : Prop where
  unary : ∃ entries : List (String × Operator), entries.Perm r.unary.toList ∧
    d.unary = PrefixMap.ofList entries
  binary : ∃ entries : List (String × Operator), entries.Perm r.binary.toList ∧
    d.binary = PrefixMap.ofList entries

/-- A dialect made from a registry holds what the registry does. Nothing is asked of the prefix map. -/
theorem Dialect.freezes_ofRegistry {M : Type → Type} [PrefixMap M] (r : Registry) :
    (Dialect.ofRegistry r : Dialect M).Freezes r :=
  ⟨⟨_, List.Perm.refl _, rfl⟩, ⟨_, List.Perm.refl _, rfl⟩⟩

namespace Registry

/-- Looking up a unary operator is looking into the table of unary ones. -/
theorem lookup_unary (r : Registry) (symbol : String) :
    (r.lookup symbol .unary).toOption = r.unary[symbol]? := by
  simp only [lookup, table, bind, Except.bind]
  cases r.unary[symbol]? <;> rfl

/-- Looking up a binary operator is looking into the table of binary ones. -/
theorem lookup_binary (r : Registry) (symbol : String) :
    (r.lookup symbol .binary).toOption = r.binary[symbol]? := by
  simp only [lookup, table, bind, Except.bind]
  cases r.binary[symbol]? <;> rfl

/-- An operator that is put into a registry is found under its symbol and kind, and nothing else
    changes. One without an arity is put nowhere. -/
theorem lookup_put (r : Registry) (op : Operator) (symbol : String) (kind : Kind) :
    (r.put op).lookup symbol kind =
      if kind ≠ .value ∧ op.symbol = symbol ∧ op.kind = kind then .ok op else r.lookup symbol kind := by
  unfold put
  by_cases hsymbol : op.symbol = symbol
  · cases hop : op.kind <;> cases kind <;>
      simp [lookup, table, hsymbol] <;> rfl
  · cases hop : op.kind <;> cases kind <;>
      simp [lookup, table, Std.TreeMap.getElem?_insert, Std.LawfulEqCmp.compare_eq_iff_eq, hsymbol]

/-- An operator whose symbol does not occur in a text changes nothing for it. It may still replace
    another one with its symbol. -/
theorem agreeOn_put {op : Operator} {text : List Char} (h : ¬ op.symbol.toList <:+: text)
    (r : Registry) : r.AgreeOn (r.put op) text := by
  intro symbol kind _ hoccurs
  rw [lookup_put, if_neg]
  rintro ⟨-, rfl, -⟩
  exact h hoccurs

/-- Where two registries agree on a text, the same symbols are taken at every place of it, whatever maps
    hold them and in whatever order these were filled. The maps are only asked to be lawful. -/
theorem AgreeOn.symbol?_eq {M N : Type → Type} [PrefixMap M] [PrefixMap N] [LawfulPrefixMap M]
    [LawfulPrefixMap N] {r s : Registry} {text : List Char} (h : r.AgreeOn s text) {d : Dialect M}
    {e : Dialect N} (hd : d.Freezes r) (he : e.Freezes s) {cursor : Cursor}
    (hcursor : cursor.remaining <:+ text) :
    cursor.symbol? d.unary = cursor.symbol? e.unary ∧
      cursor.symbol? d.binary = cursor.symbol? e.binary := by
  have hoccurs : ∀ {key : String}, PrefixMap.Begins key cursor.remaining → key.toList <:+: text :=
    fun hbegins => hbegins.isInfix.trans hcursor.isInfix
  obtain ⟨⟨_, hunary, hdUnary⟩, ⟨_, hbinary, hdBinary⟩⟩ := hd
  obtain ⟨⟨_, hunary', heUnary⟩, ⟨_, hbinary', heBinary⟩⟩ := he
  rw [hdUnary, hdBinary, heUnary, heBinary]
  constructor
  · refine Cursor.symbol?_congr fun key hkey hbegins => ?_
    rw [PrefixMap.lastValue?_of_perm hunary, PrefixMap.lastValue?_of_perm hunary', ← lookup_unary,
      ← lookup_unary, h key .unary hkey (hoccurs hbegins)]
  · refine Cursor.symbol?_congr fun key hkey hbegins => ?_
    rw [PrefixMap.lastValue?_of_perm hbinary, PrefixMap.lastValue?_of_perm hbinary',
      ← lookup_binary, ← lookup_binary, h key .binary hkey (hoccurs hbegins)]

end Registry

/-- The outcome of reading a text depends on nothing but the operators whose symbols occur in it: not on
    the kind of prefix map, nor on the order in which it was filled, nor on the history of the registry,
    nor on its other operators. The outcome is the whole parse or the error with its position. -/
theorem parseWith_eq_of_agreeOn {M N : Type → Type} [PrefixMap M] [PrefixMap N] [LawfulPrefixMap M]
    [LawfulPrefixMap N] {r s : Registry} {d : Dialect M} {e : Dialect N} (hd : d.Freezes r)
    (he : e.Freezes s) {text : List Char} (h : r.AgreeOn s text) :
    parseWith d text = parseWith e text := by
  rw [parseWith, parseWith]
  congr 1
  exact ParseState.run_congr (ParseState.start text) fun cursor hcursor => h.symbol?_eq hd he hcursor

/-- An arrow that does not occur in the text is added to the operators. They are searched for byte by
    byte then, in place of character by character. -/
theorem parseWith_eq_of_agreeOn_openAtRight :
    Registry.standard.AgreeOn (Registry.standard.put Climbing.arrow) "a|!b&(c".toList ∧
      parseWith (Dialect.ofRegistry Registry.standard : Dialect PrefixMap.Sorted)
          "a|!b&(c".toList =
        parseWith (Dialect.ofRegistry (Registry.standard.put Climbing.arrow) :
          Dialect (PrefixMap.Bytewise ByteList)) "a|!b&(c".toList := by
  have hagree : Registry.standard.AgreeOn (Registry.standard.put Climbing.arrow) "a|!b&(c".toList :=
    Registry.agreeOn_put (by decide +kernel) Registry.standard
  have hsorted := Dialect.freezes_ofRegistry (M := PrefixMap.Sorted) Registry.standard
  have hbytewise := Dialect.freezes_ofRegistry (M := PrefixMap.Bytewise ByteList)
    (Registry.standard.put Climbing.arrow)
  exact ⟨hagree, parseWith_eq_of_agreeOn hsorted hbytewise hagree⟩

end Sentential
