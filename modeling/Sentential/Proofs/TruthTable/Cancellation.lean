import Mathlib.Algebra.Order.Floor.Div
import Mathlib.Data.Set.Card
import Sentential.Proofs.Linked.Recursion
import Sentential.Proofs.Parsing.Arena
import Sentential.Proofs.TruthTable.Visits

namespace Sentential

/-- The first number from which on a property holds, if it is in the range. -/
private theorem find?_range_of_le_iff {up : Nat → Bool} {first : Nat} (h : ∀ k, up k = true ↔ first ≤ k)
    (rows : Nat) :
    (List.range rows).find? up = if first < rows then some first else none := by
  split
  · rename_i hlt
    refine List.find?_range_eq_some.2 ⟨(h first).2 (Nat.le_refl _), List.mem_range.2 hlt, ?_⟩
    intro k hk
    rw [Bool.not_eq_true', Bool.eq_false_iff, ne_eq, h]
    exact Nat.not_le.2 hk
  · rename_i hle
    refine List.find?_range_eq_none.2 fun k hk => ?_
    rw [Bool.not_eq_true', Bool.eq_false_iff, ne_eq, h]
    omega

namespace Flag

private theorem isUp_ofLimit_iff {limit cost k : Nat} :
    (ofLimit (some limit)).isUp cost k = true ↔ limit ≤ k * cost := by
  simp [isUp, ofLimit]

/-- A flag that is up from the start stops an enumeration before its first row. -/
theorem find?_isUp_zero (cost : Nat) {rows : Nat} (hrows : 0 < rows) :
    (List.range rows).find? ((ofLimit (some 0)).isUp cost) = some 0 := by
  have hup : ∀ k, (ofLimit (some 0)).isUp cost k = true ↔ 0 ≤ k := by simp [isUp_ofLimit_iff]
  rw [find?_range_of_le_iff hup, if_pos hrows]

/-- Where each row costs the same, the limit is reached after as many rows as it takes to pay for it. If
    that is after the last row, nothing is cancelled. -/
theorem find?_isUp_of_pos (limit : Nat) {cost : Nat} (hcost : 0 < cost) (rows : Nat) :
    (List.range rows).find? ((ofLimit (some limit)).isUp cost) =
      if limit ⌈/⌉ cost < rows then some (limit ⌈/⌉ cost) else none := by
  refine find?_range_of_le_iff (fun k => ?_) rows
  rw [isUp_ofLimit_iff, ceilDiv_le_iff_le_mul hcost, Nat.mul_comm]

/-- Where rows cost nothing, a limit above zero is never reached. An enumeration without metered
    operators is not cancelled on its way. -/
theorem find?_isUp_of_cost_eq_zero {limit : Nat} (hlimit : 0 < limit) (rows : Nat) :
    (List.range rows).find? ((ofLimit (some limit)).isUp 0) = none := by
  refine List.find?_range_eq_none.2 fun k _ => ?_
  rw [Bool.not_eq_true', Bool.eq_false_iff, ne_eq, isUp_ofLimit_iff]
  omega

/-- Without a limit the flag never goes up. -/
theorem find?_isUp_none (cost rows : Nat) :
    (List.range rows).find? ((ofLimit none).isUp cost) = none :=
  List.find?_range_eq_none.2 fun _ _ => rfl

end Flag

/-- Whether the node is an operator whose applications are counted. -/
def Node.isMetered (node : Node) : Bool :=
  match node.formula with
  | .unary _ c _ => c.rule = .metered
  | .binary _ c _ _ => c.rule = .metered
  | _ => false

/-- What an evaluation spends is the number of the metered operators that it applies. Operators in
    discarded operands are not applied. -/
theorem Formula.cost_meter_eq_countP {metered : NodeId → Bool} {f : Formula NodeId}
    {parent : Option NodeId}
    (h : ∀ node ∈ f.walk parent, metered node.formula.label = node.isMetered) :
    f.cost Parsed.meter = f.applied.countP metered := by
  have hmeter : ∀ (id : NodeId) (c : Connective), metered id = decide (c.rule = .metered) →
      Parsed.meter id c = [id].countP metered := by
    intro id c hself
    rw [List.countP_singleton, hself]
    simp [Parsed.meter]
  induction f generalizing parent with
  | leaf id p => rfl
  | unary id c operand ih =>
    obtain ⟨hself, hoperand⟩ := List.forall_mem_cons.1 h
    rw [cost, applied, List.countP_append, ih hoperand, hmeter id c hself]
  | binary id c left right ihl ihr =>
    obtain ⟨hleft, hrest⟩ := List.forall_mem_append.1 h
    obtain ⟨hself, hright⟩ := List.forall_mem_cons.1 hrest
    rw [cost, applied, List.countP_append, List.countP_append, ihl hleft, ihr hright,
      hmeter id c hself]
  | group id o closed body ih => exact ih (List.forall_mem_cons.1 h).2
  | regroup id o closed discarded body _ ih =>
    exact ih (List.forall_mem_cons.1 (List.forall_mem_append.1 h).2).2

namespace Linked

private theorem mem_operands_ofNode_iff {node : Node} {operand : NodeId} :
    operand ∈ (Vertex.ofNode node).operands ↔ ∃ side, node.operand? side = some operand := by
  obtain ⟨f, parent⟩ := node
  constructor
  · intro h
    cases f with
    | leaf id p => cases h
    | unary id c f | group id o closed f | regroup id o closed discarded f =>
      exact ⟨.right, congrArg some (List.mem_singleton.1 h).symm⟩
    | binary id c left right =>
      rcases List.mem_cons.1 h with rfl | hright
      · exact ⟨.left, rfl⟩
      · exact ⟨.right, congrArg some (List.mem_singleton.1 hright).symm⟩
  · rintro ⟨side, h⟩
    cases side <;> cases f <;>
      simp_all [Node.operand?, Node.left, Node.right, Formula.left?, Formula.right?, Vertex.ofNode,
        Vertex.operands]

/-- Going to operands is following the links of the nodes, in the tree and in the array alike. -/
private theorem within_ofParsed_iff {p : Parsed} {id k : NodeId} :
    Within (Tree.ofParsed p).vertices k id ↔ Relation.ReflTransGen (IsAbove p.nodes) id k := by
  constructor
  · intro h
    induction h with
    | self => exact .refl
    | operand hvertex hchild _ ih =>
      rw [Tree.ofParsed, Array.getElem?_map] at hvertex
      obtain ⟨node, hnode, rfl⟩ := Option.map_eq_some_iff.1 hvertex
      obtain ⟨side, hside⟩ := mem_operands_ofNode_iff.1 hchild
      exact .head ⟨side, node, hnode, hside⟩ ih
  · intro h
    induction h using Relation.ReflTransGen.head_induction_on with
    | refl => exact .self
    | head hstep _ ih =>
      obtain ⟨side, node, hnode, hside⟩ := hstep
      refine .operand ?_ (mem_operands_ofNode_iff.2 ⟨side, hside⟩) ih
      rw [Tree.ofParsed, Array.getElem?_map, hnode, Option.map_some]

private theorem isMetered_of_ofNode_eq {node other : Node}
    (h : Vertex.ofNode node = Vertex.ofNode other) : node.isMetered = other.isMetered := by
  obtain ⟨f, parent⟩ := node
  obtain ⟨g, above⟩ := other
  cases f <;> cases g <;> simp_all [Vertex.ofNode, Node.isMetered]

private theorem isConnective_of_isMetered {node : Node} (h : node.isMetered) :
    (Vertex.ofNode node).isConnective := by
  obtain ⟨f, parent⟩ := node
  cases f <;> simp_all [Vertex.ofNode, Vertex.isConnective, Node.isMetered]

end Linked

namespace Parsed

/-- The metered operators that are reached from the root by going to operands. -/
def IsMeter (p : Parsed) (id : NodeId) : Prop :=
  Relation.ReflTransGen (IsAbove p.nodes) p.root id ∧ ∃ node, p.nodes[id]? = some node ∧ node.isMetered

/-- How many metered operators are reached from the root. -/
noncomputable def meters (p : Parsed) : Nat :=
  {id | p.IsMeter id}.ncard

/-- Each evaluation applies all metered operators that are reached, each of them once. What a row costs
    can be read off the nodes. -/
theorem cost_meter_eq_meters {M : Type → Type} [PrefixMap M] {d : Dialect M} {text : List Char}
    {p : Parsed} (hp : parseWith d text = .ok p) : p.formula.cost meter = p.meters := by
  have hshows := Linked.shows_of_parseWith hp
  have hnumbered := Formula.wellNumbered_of_parseWith hp
  have hlookup : ∀ node ∈ p.formula.walk none,
      (p.nodes[node.formula.label]?.any Node.isMetered) = node.isMetered := by
    intro node hnode
    have hvertex := hshows node hnode
    rw [Linked.Tree.ofParsed, Array.getElem?_map] at hvertex
    obtain ⟨found, hfound, hsame⟩ := Option.map_eq_some_iff.1 hvertex
    rw [hfound, Option.any_some, Linked.isMetered_of_ofNode_eq hsame]
  have hnodup : p.formula.applied.Nodup := by
    have hroot := hnumbered.nodup_applied (p.formula.outermost_mem_walk none)
    rwa [Formula.formula_outermost] at hroot
  have hmeters : {id | p.IsMeter id} =
      ↑(p.formula.applied.filter fun id => p.nodes[id]?.any Node.isMetered).toFinset := by
    ext id
    simp only [Set.mem_ofPred_eq, List.coe_toFinset, List.mem_filter, hshows.mem_applied_iff,
      Linked.within_ofParsed_iff]
    constructor
    · rintro ⟨hreached, node, hnode, hmetered⟩
      refine ⟨⟨hreached, Linked.Vertex.ofNode node, ?_, Linked.isConnective_of_isMetered hmetered⟩, ?_⟩
      · rw [Linked.Tree.ofParsed, Array.getElem?_map, hnode, Option.map_some]
      · rwa [hnode, Option.any_some]
    · rintro ⟨⟨hreached, -⟩, hmetered⟩
      exact ⟨hreached, (Option.any_eq_true _ _).1 hmetered⟩
  have hcost : p.formula.cost meter =
      p.formula.applied.countP fun id => p.nodes[id]?.any Node.isMetered :=
    Formula.cost_meter_eq_countP hlookup
  rw [hcost, meters, hmeters, Set.ncard_coe_finset, List.toFinset_card_of_nodup (hnodup.filter _),
    List.countP_eq_length_filter]

section Outcome

variable {p : Parsed} {columns : List Symbol} {direction : Direction} {limit : Option Nat}
  {v : Valuation}

/-- An enumeration stops before the first row for which the flag is up, and leaves the values of the row
    before it. It reports how many rows it has visited. -/
theorem Admits.enumerate_of_up (h : p.Admits columns) {k : Nat}
    (hup : (List.range (2 ^ (columns.map Symbol.name).length)).find?
      ((Flag.ofLimit limit).isUp (p.formula.cost meter)) = some k) :
    p.enumerate columns direction limit v =
      (.error (.cancelled k), v.afterRows (columns.map Symbol.name) direction k) := by
  rw [enumerate_eq_outcome]
  simp only [outcome, refusal?_eq_none_iff.2 h, hup]

/-- If the flag is up for no row, it makes no difference that there is one. It may still go up during
    the last row. -/
theorem Admits.enumerate_of_down (h : p.Admits columns)
    (hdown : (List.range (2 ^ (columns.map Symbol.name).length)).find?
      ((Flag.ofLimit limit).isUp (p.formula.cost meter)) = none) :
    p.enumerate columns direction limit v = p.enumerate columns direction none v := by
  rw [enumerate_eq_outcome, enumerate_eq_outcome]
  simp only [outcome, refusal?_eq_none_iff.2 h, hdown, Flag.find?_isUp_none]

/-- Behind a row the names are worth the bits that the row reports. A cancelled enumeration leaves a row
    of the table behind, unless it was cancelled before the first. -/
theorem exists_row_of_afterRows (p : Parsed) {names : List String} (hnames : names.Nodup)
    (hmax : names.length ≤ maxColumns) (direction : Direction) (v : Valuation) {k : Nat}
    (hk : k < 2 ^ names.length) :
    ∃ row, (p.table names direction v).rows[k]? = some row ∧
      names.map (v.afterRows names direction (k + 1)) = row.bits := by
  refine ⟨_, getElem?_rows_table_eq_some_iff.2 ⟨hk, rfl⟩, ?_⟩
  rw [bits_row hmax p v (direction.place_lt hk)]
  exact Valuation.map_assign hnames (length_binary _ _) v

end Outcome

/-- When an enumeration is cancelled, where the flag goes up as soon as a number of applications of
    metered operators were counted. Each row counts all that are reached from the root, so the rows
    before the flag is seen are as many as it takes to reach that number. The columns are left with the
    values of the last row that was visited. Otherwise, also when the flag goes up during the last row,
    nothing is cancelled. -/
theorem enumerate_cancelled_exactly {M : Type → Type} [PrefixMap M] {d : Dialect M} {text : List Char}
    {p : Parsed} (hp : parseWith d text = .ok p) {columns : List Symbol}
    (hcolumns : p.refusal? columns = none) (direction : Direction) (v : Valuation) :
    ∃ t, (p.enumerate columns direction none v).1 = .ok t ∧
      p.enumerate columns direction (some 0) v = (.error (.cancelled 0), v) ∧
      ∀ limit, 0 < limit →
        (0 < p.meters → (limit ⌈/⌉ p.meters : Nat) < 2 ^ columns.length → ∃ w row,
          p.enumerate columns direction (some limit) v =
              (.error (.cancelled (limit ⌈/⌉ p.meters)), w) ∧
            t.rows[limit ⌈/⌉ p.meters - 1]? = some row ∧
            (columns.map Symbol.name).map w = row.bits ∧
            ∀ name, name ∉ columns.map Symbol.name → w name = v name) ∧
        (p.meters = 0 ∨ 2 ^ columns.length ≤ limit ⌈/⌉ p.meters →
          p.enumerate columns direction (some limit) v = p.enumerate columns direction none v) := by
  have hadmits := refusal?_eq_none_iff.1 hcolumns
  have hcost := cost_meter_eq_meters hp
  have hlength : columns.length = (columns.map Symbol.name).length := (List.length_map _).symm
  have hmax := hadmits.length_le
  rw [hlength] at hmax ⊢
  refine ⟨_, enumerate_eq_ok_table hadmits direction v, ?_, fun limit hlimit => ⟨?_, ?_⟩⟩
  · exact hadmits.enumerate_of_up (Flag.find?_isUp_zero _ (Nat.two_pow_pos _))
  · intro hmeters hlt
    have hup := Flag.find?_isUp_of_pos limit hmeters (2 ^ (columns.map Symbol.name).length)
    rw [if_pos hlt, ← hcost] at hup
    have hrows : limit ⌈/⌉ p.meters ≠ 0 := by
      intro hzero
      have hle := (ceilDiv_le_iff_le_mul hmeters).1 (Nat.le_of_eq hzero)
      omega
    obtain ⟨k, hk⟩ := Nat.exists_eq_succ_of_ne_zero hrows
    rw [hcost, hk] at hup
    rw [hk] at hlt ⊢
    obtain ⟨row, hrow, hbits⟩ := p.exists_row_of_afterRows (hadmits.nodup_names hp) hmax direction v
      (Nat.lt_of_succ_lt hlt)
    exact ⟨_, row, hadmits.enumerate_of_up (hcost ▸ hup), hrow, hbits,
      fun name hname => Valuation.afterRows_of_not_mem hname v direction _⟩
  · intro hnever
    refine hadmits.enumerate_of_down ?_
    rw [hcost]
    rcases Nat.eq_zero_or_pos p.meters with hzero | hmeters
    · rw [hzero]
      exact Flag.find?_isUp_of_cost_eq_zero hlimit _
    · rw [Flag.find?_isUp_of_pos limit hmeters, if_neg]
      omega

/-- What `a·(b·c)` stands for, where the applications of the dot are counted. -/
def dotted : Formula Unit :=
  .binary () ⟨"·", .binary, 5, .metered⟩ (.leaf () (.atom "a"))
    (.group () ⟨"(", .unary⟩ true
      (.binary () ⟨"·", .binary, 5, .metered⟩ (.leaf () (.atom "b")) (.leaf () (.atom "c"))))

/-- Each row counts two applications: the fifth is one of the third row, the sixteenth one of the last. -/
theorem enumerate_cancelled_exactly_dotted :
    parseWith (Dialect.ofRegistry (Registry.standard.put (.connective ⟨"·", .binary, 5, .metered⟩)) :
        Dialect PrefixMap.Trie) "a·(b·c)".toList = .ok (ofFormula dotted.numbered) ∧
      (ofFormula dotted.numbered).refusal? [⟨"c", 5⟩, ⟨"b", 3⟩, ⟨"a", 0⟩] = none ∧
      (ofFormula dotted.numbered).meters = 2 ∧
      (∃ w, (ofFormula dotted.numbered).enumerate [⟨"c", 5⟩, ⟨"b", 3⟩, ⟨"a", 0⟩] .descending (some 5)
          Valuation.allFalse = (.error (.cancelled 3), w)) ∧
      (ofFormula dotted.numbered).enumerate [⟨"c", 5⟩, ⟨"b", 3⟩, ⟨"a", 0⟩] .descending (some 16)
          Valuation.allFalse =
        (ofFormula dotted.numbered).enumerate [⟨"c", 5⟩, ⟨"b", 3⟩, ⟨"a", 0⟩] .descending none
          Valuation.allFalse := by
  have hp : parseWith (Dialect.ofRegistry
      (Registry.standard.put (.connective ⟨"·", .binary, 5, .metered⟩)) : Dialect PrefixMap.Trie)
        "a·(b·c)".toList = .ok (ofFormula dotted.numbered) :=
    parseWith_eq_ok_ofFormula_iff.2 (by decide +kernel)
  have hcolumns : (ofFormula dotted.numbered).refusal? [⟨"c", 5⟩, ⟨"b", 3⟩, ⟨"a", 0⟩] = none := by
    decide +kernel
  have hmeters : (ofFormula dotted.numbered).meters = 2 := by
    rw [← cost_meter_eq_meters hp]
    decide +kernel
  obtain ⟨t, -, -, hlimits⟩ :=
    enumerate_cancelled_exactly hp hcolumns .descending Valuation.allFalse
  rw [hmeters] at hlimits
  have hfive : 5 ⌈/⌉ 2 = 3 := by decide
  have hsixteen : 16 ⌈/⌉ 2 = 8 := by decide
  obtain ⟨w, row, hcancelled, -⟩ := (hlimits 5 (by decide)).1 (by decide) (by rw [hfive]; decide)
  rw [hfive] at hcancelled
  exact ⟨hp, hcolumns, hmeters, ⟨w, hcancelled⟩,
    (hlimits 16 (by decide)).2 (.inr (by rw [hsixteen]; decide))⟩

end Parsed

end Sentential
