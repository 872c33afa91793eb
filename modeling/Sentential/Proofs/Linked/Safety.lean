import Sentential.Proofs.Linked.Reachable
import Sentential.Proofs.Linked.Walks
import Sentential.Proofs.Operator.Collected

namespace Sentential

/-- A connective in front of an operand is of the unary kind. It is enough for this that the registry
    sorts operators by their kinds. -/
theorem Cursor.kind_of_token? {M : Type → Type} [PrefixMap M] [LawfulPrefixMap M] {r : Registry}
    (hr : r.SortsKinds) {cursor rest : Cursor} {c : Connective}
    (h : cursor.token? (Dialect.ofRegistry r : Dialect M) .operand = some (.connective c, rest)) :
    c.kind = .unary := by
  generalize htoken : Token.connective c = t at h
  cases takes_of_token? h with
  | identifier _ => cases htoken
  | @unary _ op _ _ _ hop =>
    obtain ⟨key, hmem, -⟩ := exists_mem_of_symbol? hop
    have hkind := hr.unary key op (Std.TreeMap.mem_toList_iff_getElem?_eq_some.1 hmem)
    cases op with
    | connective found =>
      obtain rfl := Token.connective.inj htoken
      exact hkind
    | opener o => cases htoken

namespace Linked

/-- The operator of a cell with its left operand. -/
def Cell.core : Cell → Option (Connective × Option Place)
  | operator c left _ _ => some (c, left)
  | group .. => none
  | leaf _ => none

end Linked

open Linked

private theorem Spine.map_core_cells (right other : Option Place) (spine : Spine) :
    (spine.cells right).map (fun e => e.2.core) = (spine.cells other).map fun e => e.2.core := by
  have htip : (spine.tipCell right).core = (spine.tipCell other).core := by
    cases spine with
    | nil => rfl
    | cons frame rest => cases frame <;> rfl
  simp [Spine.cells, htip]

private theorem Formula.map_core_cells (parent other : Option NodeId) (f : Formula NodeId) :
    (f.cells parent).map (fun e => e.2.core) = (f.cells other).map fun e => e.2.core := by
  obtain ⟨front, back, hcells⟩ := f.exists_cells_eq_append
  have houtermost : (f.outermost parent).cell.core = (f.outermost other).cell.core := by
    cases f <;> rfl
  rw [hcells, hcells]
  simp [houtermost]

namespace Assembly

/-- The operators made so far, each with its left operand. -/
def cores (a : Assembly) : List (Option (Connective × Option Place)) :=
  a.cells.map fun e => e.2.core

/-- An operator gets its left operand when it is made, and keeps it. It has none only where an operand
    was expected. -/
theorem Takes.exists_cores_eq {a next : Assembly} {t : Token} (h : a.Takes t next) :
    ∃ new, next.cores = a.cores ++ new ∧ ∀ c, some (c, none) ∈ new →
      t = .connective c ∧ a.due.expectation = .operand := by
  cases h with
  | operand numbering spine p =>
    refine ⟨[none], ?_, by simp⟩
    simp only [cores, cells, Spine.cellsWith, List.map_append]
    rw [Spine.map_core_cells _ none]
    rfl
  | unary numbering spine c =>
    refine ⟨[some (c, none)], ?_, ?_⟩
    · simp only [cores, cells, Spine.cells_cons, Frame.before, List.map_append]
      rw [Spine.map_core_cells _ none, List.map_nil, List.append_nil]
      rfl
    · intro other hother
      obtain ⟨rfl, -⟩ := by simpa using hother
      exact ⟨rfl, rfl⟩
  | group numbering spine o =>
    refine ⟨[none], ?_, by simp⟩
    simp only [cores, cells, Spine.cells_cons, Frame.before, List.map_append]
    rw [Spine.map_core_cells _ none, List.map_nil, List.append_nil]
    rfl
  | closer numbering hclose =>
    refine ⟨[], ?_, by simp⟩
    obtain ⟨front, back, cell, hbefore, hbehind, -⟩ := Spine.exists_cellsWith_of_close? hclose
    have hcell : cell.close.core = cell.core := by
      cases cell <;> rfl
    simp [cores, cells, hbefore, hbehind, hcell]
  | binary numbering spine left c =>
    refine ⟨[some (c, some (placeOf (spine.climb c.precedence left).1.label))], ?_, by simp⟩
    simp only [cores, cells]
    rw [← spine.cellsWith_climb c.precedence left]
    simp only [Spine.cells_cons, Frame.before, Spine.cellsWith, List.map_append]
    rw [Spine.map_core_cells _ (some (placeOf (spine.climb c.precedence left).1.label)),
      Formula.map_core_cells _ (Spine.tip (spine.climb c.precedence left).2)]
    rfl
  | regroup numbering spine left o =>
    refine ⟨[none], ?_, by simp⟩
    simp only [cores, cells]
    rw [← spine.cellsWith_climb openPrecedence left]
    simp only [Spine.cells_cons, Frame.before, Spine.cellsWith, List.map_append]
    rw [Spine.map_core_cells _ (some (placeOf (spine.climb openPrecedence left).1.label)),
      Formula.map_core_cells _ (Spine.tip (spine.climb openPrecedence left).2)]
    rfl

/-- Every operator of the binary kind has a left operand. -/
def HasLefts (a : Assembly) : Prop :=
  ∀ c, some (c, none) ∈ a.cores → c.kind ≠ .binary

private theorem hasLefts_start : start.HasLefts := by
  intro c hc
  obtain ⟨rfl, -⟩ : c = rootConnective ∧ True := by
    simpa [cores, cells, start, Spine.cells, Spine.outer, Spine.tipCell, Cell.core] using hc
  decide

/-- Every token keeps it so that operators of the binary kind have left operands, if those in front of
    operands are of the other kind. Precedences play no part in it. -/
theorem HasLefts.takes {a next : Assembly} {t : Token} (ha : a.HasLefts) (h : a.Takes t next)
    (ht : ∀ c, t = .connective c → a.due.expectation = .operand → c.kind = .unary) :
    next.HasLefts := by
  obtain ⟨new, hcores, hnew⟩ := h.exists_cores_eq
  intro c hc
  rw [hcores] at hc
  rcases List.mem_append.1 hc with hold | hadded
  · exact ha c hold
  · obtain ⟨htoken, hdue⟩ := hnew c hadded
    rw [ht c htoken hdue]
    decide

end Assembly

namespace Linked

variable {M : Type → Type} [PrefixMap M]

/-- What cannot go wrong with a reader in place that has come this far in a text. -/
structure Reader.Safe (d : Dialect M) (text : List Char) (r : Reader) : Prop where
  /-- The cursor stands within the text, behind as many characters as it counts. -/
  within : ∃ behind, text = behind ++ r.cursor.remaining ∧ r.cursor.position = behind.length
  /-- The next step follows no broken link. -/
  step_ne_stuck : r.step d ≠ .error .stuck
  /-- The next step takes a character if it does not end the reading. -/
  consumes : ∀ {next : Reader}, r.step d = .ok (some next) →
    next.cursor.remaining.length < r.cursor.remaining.length
  /-- A search for an open group ends. -/
  search_ends : ∃ found, openGroup? r.builder.cells r.builder.cells.size r.builder.tip = .ok found
  /-- A climb ends, whatever precedence it starts with. -/
  climb_ends : ∀ precedence, ∃ stop,
    climb r.builder.cells precedence r.builder.cells.size r.builder.tip = .ok stop
  /-- A binary operator has its left operand. -/
  left_operand : ∀ {place : Place} {c : Connective} {left right above : Option Place},
    r.builder.cells[place]? = some (.operator c left right above) → c.kind = .binary → left ≠ none
  /-- At the end of the text, all operators and groups have their right operands. -/
  right_operand : r.step d = .ok none → ∀ {place : Place} {cell : Cell},
    r.builder.cells[place]? = some cell → cell.isLeaf = false → cell.right? ≠ none
  /-- At the end of the text, the cells make a tree. -/
  finishes : r.step d = .ok none →
    ∃ tree, freeze r.builder.cells r.cursor.skipBlank.position = .ok tree

/-- The cells of a formula have their right operands, also the root, which has the whole formula. -/
private theorem right?_ne_none_of_stores {cells : Array Cell} {f : Formula NodeId}
    (h : Stores cells (Spine.cellsWith f [])) {place : Place} {cell : Cell}
    (hcell : cells[place]? = some cell) (hleaf : cell.isLeaf = false) : cell.right? ≠ none := by
  rcases List.mem_cons.1 (h.mem_iff.2 hcell) with hroot | hbelow
  · obtain ⟨-, rfl⟩ := Prod.mk.inj hroot
    exact Option.some_ne_none _
  · exact Formula.right?_ne_none_of_mem_cells hbelow hleaf

private theorem Mirrors.left_ne_none {a : Assembly} {b : Builder} (h : Mirrors a b) (ha : a.HasLefts)
    {place : Place} {c : Connective} {left right above : Option Place}
    (hcell : b.cells[place]? = some (.operator c left right above)) (hc : c.kind = .binary) :
    left ≠ none := by
  rintro rfl
  have hmem : some (c, none) ∈ a.cores :=
    List.mem_map_of_mem (f := fun e : Place × Cell => e.2.core) (h.stores.mem_iff.2 hcell)
  exact ha c hmem hc

namespace Follows

variable {d : Dialect M} {s : ParseState} {r : Reader}

private theorem step_ne_stuck (h : Follows s r) : r.step d ≠ .error .stuck := by
  intro hstuck
  rcases h.step_cases d with ⟨e, -, hr⟩ | ⟨f, -, hr, -⟩ | ⟨s', r', -, hr, -⟩ <;>
    cases hstuck.symm.trans hr

/-- Where the text ends behind an operand, the cells are those of the whole formula. Groups that are
    open stay so. -/
theorem exists_of_step_eq_none (h : Follows s r) (hend : r.step d = .ok none) : ∃ left,
    s.due = .operator left ∧ Stores r.builder.cells (Spine.cellsWith (s.spine.complete left) []) := by
  rcases h.step_cases d with ⟨e, -, hr⟩ | ⟨f, hs, -, hstores⟩ | ⟨s', r', -, hr, -⟩
  · cases hend.symm.trans hr
  · obtain ⟨-, left, hdue, rfl⟩ := ParseState.step_eq_ok_inl_iff.1 hs
    exact ⟨left, hdue, hstores⟩
  · cases hend.symm.trans hr

end Follows

/-- A formula that was completed from the tokens of a text is well numbered, whatever the tokens are. -/
private theorem wellNumbered_complete {a : Assembly} {ts : List Token}
    (h : Assembly.start.takeAll? ts = some a) {left : Formula NodeId} (hdue : a.due = .operator left) :
    (a.spine.complete left).WellNumbered := by
  have htokens := Assembly.labelledTokens_of_takeAll? h
  rw [Assembly.labelledTokens, hdue] at htokens
  exact Formula.wellNumbered_of_labelledTokens
    ((Spine.labelledTokens_complete a.spine left).trans htokens)

private theorem Reaches.safe [LawfulPrefixMap M] {registry : Registry} (hregistry : registry.Collected)
    {text : List Char} {r : Reader}
    (h : Reaches (Dialect.ofRegistry registry : Dialect M) text r) :
    r.Safe (Dialect.ofRegistry registry : Dialect M) text := by
  obtain ⟨s, hfollows, hlefts, ts, htake⟩ := h.exists_follows
    (P := fun a => a.HasLefts ∧ ∃ ts, Assembly.start.takeAll? ts = some a)
    ⟨Assembly.hasLefts_start, [], rfl⟩ (by
      rintro a next t cursor rest ⟨hlefts, ts, htake⟩ htoken htakes
      refine ⟨hlefts.takes htakes ?_, ts ++ [t], ?_⟩
      · rintro c rfl hdue
        rw [hdue] at htoken
        exact Cursor.kind_of_token? hregistry.sortsKinds htoken
      · rw [Assembly.takeAll?_append, htake, Option.bind_some, Assembly.takeAll?,
          Assembly.take?_eq_some_iff.2 htakes]
        rfl)
  exact
    { within := h.exists_behind
      step_ne_stuck := hfollows.step_ne_stuck
      consumes := Reader.length_remaining_step
      search_ends := ⟨_, hfollows.mirrors.openGroup?_eq⟩
      climb_ends := fun precedence =>
        ⟨_, hfollows.mirrors.climb_eq precedence (.leaf 0 (.constant true))⟩
      left_operand := hfollows.mirrors.left_ne_none hlefts
      right_operand := fun hend => by
        obtain ⟨left, -, hstores⟩ := hfollows.exists_of_step_eq_none hend
        exact right?_ne_none_of_stores hstores
      finishes := fun hend => by
        obtain ⟨left, hdue, hstores⟩ := hfollows.exists_of_step_eq_none hend
        exact ⟨_, freeze_eq_ok hstores (wellNumbered_complete htake hdue) _⟩ }

/-- Reading in place ends with a tree or a fault, and nothing goes wrong on the way, whatever operators
    were collected. Every node of the tree can be evaluated and written out, also those that an opener
    behind an operand has cut off. Nothing is asked of precedences, symbols and openers, which only
    registration checks. -/
theorem read_never_stuck [LawfulPrefixMap M] {registry : Registry} (hregistry : registry.Collected)
    (text : List Char) :
    (∀ r, Reaches (Dialect.ofRegistry registry : Dialect M) text r →
      r.Safe (Dialect.ofRegistry registry : Dialect M) text) ∧
    ((∃ e, parseWith (Dialect.ofRegistry registry : Dialect M) text = .error e ∧
        read (Dialect.ofRegistry registry : Dialect M) text = .error (.fault e)) ∨
      ∃ p t, parseWith (Dialect.ofRegistry registry : Dialect M) text = .ok p ∧
        read (Dialect.ofRegistry registry : Dialect M) text = .ok t ∧ t.Walkable p) := by
  refine ⟨fun r hr => hr.safe hregistry, ?_⟩
  have hread := read_eq (Dialect.ofRegistry registry : Dialect M) text
  cases hparse : parseWith (Dialect.ofRegistry registry : Dialect M) text with
  | error e =>
    rw [hparse] at hread
    exact .inl ⟨e, rfl, hread⟩
  | ok p =>
    rw [hparse] at hread
    exact .inr ⟨p, _, rfl, hread, walkable_of_parseWith hparse⟩

/-- Operators that no registration accepts: one binds less tightly than the whole formula, one opens a
    group behind an operand, and one has no symbol. -/
def unchecked : List Operator := [
  .connective ⟨"*", .binary, -5, Rule.ofFunction fun left right => left.getD false && right⟩,
  .opener ⟨"[", .binary⟩,
  .connective ⟨"", .unary, closedPrecedence, Rule.ofFunction fun _ right => right⟩,
  .opener ⟨"(", .unary⟩]

/-- What `a[b*(c` stands for. The operator is climbed past the open group, which does not keep `a`. -/
def uncheckedFormula : Formula NodeId :=
  .binary 3 ⟨"*", .binary, -5, Rule.ofFunction fun left right => left.getD false && right⟩
    (.regroup 1 ⟨"[", .binary⟩ false (.leaf 0 (.atom "a")) (.leaf 2 (.atom "b")))
    (.group 4 ⟨"(", .unary⟩ false (.leaf 5 (.atom "c")))

/-- Operators that registration would refuse are read without harm. The text climbs past an open group,
    cuts an operand off, and leaves a group open. -/
theorem read_never_stuck_unchecked :
    (Registry.ofList unchecked).Collected ∧
      (∀ r, Reaches (Dialect.ofRegistry (Registry.ofList unchecked) : Dialect PrefixMap.Trie)
        "a[b*(c".toList r →
          r.Safe (Dialect.ofRegistry (Registry.ofList unchecked) : Dialect PrefixMap.Trie)
            "a[b*(c".toList) ∧
      ∃ t, read (Dialect.ofRegistry (Registry.ofList unchecked) : Dialect PrefixMap.Trie)
        "a[b*(c".toList = .ok t ∧ t.Walkable (Parsed.ofFormula uncheckedFormula) := by
  have hparse : parseWith (Dialect.ofRegistry (Registry.ofList unchecked) : Dialect PrefixMap.Trie)
      "a[b*(c".toList = .ok (Parsed.ofFormula uncheckedFormula) :=
    parseWith_eq_ok_ofFormula_iff.2 (by decide +kernel)
  have hcollected : (Registry.ofList unchecked).Collected := .ofList unchecked
  obtain ⟨hsafe, ⟨e, herror, -⟩ | ⟨p, t, hp, hread, hwalkable⟩⟩ :=
    read_never_stuck (M := PrefixMap.Trie) hcollected "a[b*(c".toList
  · cases hparse.symm.trans herror
  · obtain rfl := Except.ok.inj (hparse.symm.trans hp)
    exact ⟨hcollected, hsafe, t, hread, hwalkable⟩

end Linked

end Sentential
