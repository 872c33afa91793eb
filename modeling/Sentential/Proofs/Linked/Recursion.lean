import Sentential.Proofs.Formula.Closing
import Sentential.Proofs.Linked.Walks

namespace Sentential

/-- The text of an operator and its operand. -/
def Notation.unaryText : Notation → (symbol operand : String) → String
  | algebraic, symbol, operand => symbol ++ operand
  | polish, symbol, operand => symbol ++ operand
  | reversePolish, symbol, operand => operand ++ symbol

/-- The text of an operator and its two operands. -/
def Notation.binaryText : Notation → (symbol left right : String) → String
  | algebraic, symbol, left, right => left ++ symbol ++ right
  | polish, symbol, left, right => symbol ++ left ++ right
  | reversePolish, symbol, left, right => left ++ right ++ symbol

/-- The text of a group. Without parentheses it is that of the body. -/
def Notation.groupText : Notation → (opener body : String) → String
  | algebraic, opener, body => opener ++ body ++ ")"
  | polish, _, body => body
  | reversePolish, _, body => body

namespace Formula

variable {ι : Type}

/-- Rendering follows the formula: an operator is written to the texts of its operands. -/
def text (n : Notation) : Formula ι → String
  | leaf _ p => p.name
  | unary _ c operand => n.unaryText c.symbol (operand.text n)
  | binary _ c left right => n.binaryText c.symbol (left.text n) (right.text n)
  | group _ o _ body => n.groupText o.symbol (body.text n)
  | regroup _ o _ _ body => n.groupText o.symbol (body.text n)

private theorem toList_text (n : Notation) (f : Formula ι) :
    (f.text n).toList = (f.tokens n).flatMap fun t => t.text.toList := by
  induction f with
  | leaf label p => cases n <;> simp [text, tokens, Token.text]
  | unary label c operand ih =>
    cases n <;> simp [text, tokens, Token.text, Notation.unaryText, ih]
  | binary label c left right ihl ihr =>
    cases n <;> simp [text, tokens, Token.text, Notation.binaryText, ihl, ihr]
  | group label o closed body ih | regroup label o closed discarded body _ ih =>
    cases n <;> simp [text, tokens, Token.text, Notation.groupText, ih]

/-- What is written before stays in front, and the text of a formula does not depend on it. Rendering
    with a stack of pieces is therefore the recursion on the formula. -/
theorem renderOnto_eq (out : String) (n : Notation) (f : Formula ι) :
    f.renderOnto out n = out ++ f.text n := by
  apply String.toList_inj.1
  rw [renderOnto, toList_write, String.toList_append, toList_text]
  simp [Piece.tokens]

/-- The labels of the connectives in the order in which they are applied. -/
def applied : Formula ι → List ι
  | leaf .. => []
  | unary label _ operand => operand.applied ++ [label]
  | binary label _ left right => left.applied ++ right.applied ++ [label]
  | group _ _ _ body => body.applied
  | regroup _ _ _ _ body => body.applied

/-- The price that counts the applications at one node. -/
def countAt (k id : NodeId) (_ : Connective) : Nat :=
  if id = k then 1 else 0

private theorem cost_countAt (k : NodeId) (f : Formula NodeId) :
    f.cost (countAt k) = f.applied.count k := by
  induction f with
  | leaf id p => rfl
  | unary id c operand ih =>
    simp only [cost, applied, ih, countAt, List.count_append, List.count_singleton, beq_iff_eq]
  | binary id c left right ihl ihr =>
    simp only [cost, applied, ihl, ihr, countAt, List.count_append, List.count_singleton, beq_iff_eq]
  | group id o closed body ih => exact ih
  | regroup id o closed discarded body _ ih => exact ih

/-- A connective that is applied stands on the way through the formula. It is applied no more often than
    it stands there. -/
theorem count_applied_le (k : NodeId) (f : Formula NodeId) (parent : Option NodeId) :
    f.applied.count k ≤ (f.operators parent).count k := by
  induction f generalizing parent with
  | leaf id p => exact Nat.zero_le _
  | unary id c operand ih =>
    have hoperand := ih (some id)
    have hwalk : (unary id c operand).operators parent = id :: operand.operators (some id) := rfl
    rw [hwalk, applied, List.count_append, List.count_cons, List.count_cons, List.count_nil]
    omega
  | binary id c left right ihl ihr =>
    have hleft := ihl (some id)
    have hright := ihr (some id)
    have hwalk : (binary id c left right).operators parent =
        left.operators (some id) ++ id :: right.operators (some id) := by
      rw [operators, walk, List.filter_append, List.map_append]
      rfl
    rw [hwalk, applied, List.count_append, List.count_append, List.count_append, List.count_cons,
      List.count_cons, List.count_nil]
    omega
  | group id o closed body ih =>
    have hbody := ih (some id)
    have hwalk : (group id o closed body).operators parent = id :: body.operators (some id) := rfl
    rw [hwalk, applied, List.count_cons]
    omega
  | regroup id o closed discarded body _ ih =>
    -- The discarded operand is on the way, but nothing in it is applied.
    have hbody := ih (some id)
    have hwalk : (regroup id o closed discarded body).operators parent =
        discarded.operators (some id) ++ id :: body.operators (some id) := by
      rw [operators, walk, List.filter_append, List.map_append]
      rfl
    rw [hwalk, applied, List.count_append, List.count_cons]
    omega

/-- No connective of a part of a numbered formula is applied twice, because no number is given twice to
    operators. The part may be below any node of the formula. -/
theorem WellNumbered.nodup_applied {f : Formula NodeId} (h : f.WellNumbered) {node : Node}
    (hnode : node ∈ f.walk none) : node.formula.applied.Nodup := by
  have hpart : (node.formula.operators node.parent).Nodup :=
    h.nodup_operators.sublist (((walk_sublist_of_mem_walk hnode).filter _).map _)
  refine List.nodup_iff_count.2 fun k => ?_
  have hle := count_applied_le k node.formula node.parent
  exact Nat.le_trans hle (List.nodup_iff_count.1 hpart k)

end Formula

namespace Linked

/-- Whether a node has a rule, which groups and leaves have not. -/
def Vertex.isConnective : Vertex → Bool
  | leaf _ => false
  | unary .. => true
  | binary .. => true
  | group .. => false

section

variable (vertices : Array Vertex)

/-- The value of a node by the values of its operands, where leaves have values of their own. -/
inductive HasValue (value : NodeId → Proposition → Bool) : NodeId → Bool → Prop
  | leaf {id : NodeId} {p : Proposition} (hvertex : vertices[id]? = some (.leaf p)) :
    HasValue value id (value id p)
  | unary {id right : NodeId} {c : Connective} {parent : Option NodeId} {b : Bool}
    (hvertex : vertices[id]? = some (.unary c right parent)) (hright : HasValue value right b) :
    HasValue value id (c.rule.apply none b)
  | binary {id left right : NodeId} {c : Connective} {parent : Option NodeId} {a b : Bool}
    (hvertex : vertices[id]? = some (.binary c left right parent))
    (hleft : HasValue value left a) (hright : HasValue value right b) :
    HasValue value id (c.rule.apply (some a) b)
  | group {id right : NodeId} {o : Opener} {closed : Bool} {parent : Option NodeId} {b : Bool}
    (hvertex : vertices[id]? = some (.group o closed right parent))
    (hright : HasValue value right b) : HasValue value id b

/-- The text of a node by the texts of its operands. -/
inductive HasText (n : Notation) : NodeId → String → Prop
  | leaf {id : NodeId} {p : Proposition} (hvertex : vertices[id]? = some (.leaf p)) :
    HasText n id p.name
  | unary {id right : NodeId} {c : Connective} {parent : Option NodeId} {s : String}
    (hvertex : vertices[id]? = some (.unary c right parent)) (hright : HasText n right s) :
    HasText n id (n.unaryText c.symbol s)
  | binary {id left right : NodeId} {c : Connective} {parent : Option NodeId} {s t : String}
    (hvertex : vertices[id]? = some (.binary c left right parent))
    (hleft : HasText n left s) (hright : HasText n right t) :
    HasText n id (n.binaryText c.symbol s t)
  | group {id right : NodeId} {o : Opener} {closed : Bool} {parent : Option NodeId} {s : String}
    (hvertex : vertices[id]? = some (.group o closed right parent)) (hright : HasText n right s) :
    HasText n id (n.groupText o.symbol s)

/-- A node and all that is reached from it by going to operands. -/
inductive Within (k : NodeId) : NodeId → Prop
  | self : Within k k
  | operand {id child : NodeId} {vertex : Vertex} (hvertex : vertices[id]? = some vertex)
    (hchild : child ∈ vertex.operands) (hbelow : Within k child) : Within k id

/-- Whether a connective stands at this number. -/
def IsConnective (k : NodeId) : Prop :=
  ∃ vertex, vertices[k]? = some vertex ∧ vertex.isConnective

end

variable {vertices : Array Vertex}

/-- The recursion for values has at most one value for a node. That it has one at all is shown with the
    walk that finds it. -/
theorem HasValue.unique {value : NodeId → Proposition → Bool} {id : NodeId} {a b : Bool}
    (ha : HasValue vertices value id a) (hb : HasValue vertices value id b) : a = b := by
  induction ha generalizing b with
  | leaf hvertex => cases hb <;> simp_all
  | unary hvertex hright ih => cases hb <;> grind
  | binary hvertex hleft hright ihl ihr => cases hb <;> grind
  | group hvertex hright ih => cases hb <;> grind

/-- The recursion for texts has at most one text for a node. That it has one at all is shown with the
    walk that writes it. -/
theorem HasText.unique {n : Notation} {id : NodeId} {s t : String}
    (hs : HasText vertices n id s) (ht : HasText vertices n id t) : s = t := by
  induction hs generalizing t with
  | leaf hvertex => cases ht <;> simp_all
  | unary hvertex hright ih => cases ht <;> grind
  | binary hvertex hleft hright ihl ihr => cases ht <;> grind
  | group hvertex hright ih => cases ht <;> grind

private theorem within_iff {id k : NodeId} {vertex : Vertex} (hvertex : vertices[id]? = some vertex) :
    Within vertices k id ↔ k = id ∨ ∃ child ∈ vertex.operands, Within vertices k child := by
  constructor
  · intro hwithin
    cases hwithin with
    | self => exact .inl rfl
    | operand hother hchild hbelow =>
      obtain rfl := Option.some.inj (hvertex.symm.trans hother)
      exact .inr ⟨_, hchild, hbelow⟩
  · rintro (rfl | ⟨child, hchild, hbelow⟩)
    · exact .self
    · exact .operand hvertex hchild hbelow

private theorem isConnective_iff {id : NodeId} {vertex : Vertex}
    (hvertex : vertices[id]? = some vertex) : IsConnective vertices id ↔ vertex.isConnective := by
  simp [IsConnective, hvertex]

namespace Shows

variable {parent : Option NodeId} {f : Formula NodeId}

/-- What evaluating a formula applies are the connectives that are reached from its node. Leaves and
    groups are reached as well but have no rule to apply. -/
theorem mem_applied_iff (h : Shows vertices parent f) (k : NodeId) :
    k ∈ f.applied ↔ Within vertices k f.label ∧ IsConnective vertices k := by
  induction f generalizing parent with
  | leaf id p =>
    have hvertex : vertices[id]? = some (.leaf p) := h.getElem?_label
    have hnot : ¬ IsConnective vertices id := by simp [isConnective_iff hvertex, Vertex.isConnective]
    rw [Formula.label, within_iff hvertex]
    simp only [Formula.applied, Vertex.operands]
    grind
  | unary id c operand ih =>
    have hvertex : vertices[id]? = some (.unary c operand.label parent) := h.getElem?_label
    have hself : IsConnective vertices id := (isConnective_iff hvertex).2 rfl
    have hoperand := ih (h.part (List.mem_singleton_self _))
    rw [Formula.label, within_iff hvertex]
    simp only [Formula.applied, Vertex.operands]
    grind
  | binary id c left right ihl ihr =>
    have hvertex : vertices[id]? = some (.binary c left.label right.label parent) := h.getElem?_label
    have hself : IsConnective vertices id := (isConnective_iff hvertex).2 rfl
    have hleft := ihl (h.part List.mem_cons_self)
    have hright := ihr (h.part (List.mem_cons_of_mem _ (List.mem_singleton_self right)))
    rw [Formula.label, within_iff hvertex]
    simp only [Formula.applied, Vertex.operands]
    grind
  | group id o closed body ih =>
    have hvertex : vertices[id]? = some (.group o closed body.label parent) := h.getElem?_label
    have hnot : ¬ IsConnective vertices id := by simp [isConnective_iff hvertex, Vertex.isConnective]
    have hbody := ih (h.part (List.mem_singleton_self _))
    rw [Formula.label, within_iff hvertex]
    simp only [Formula.applied, Vertex.operands]
    grind
  | regroup id o closed discarded body _ ih =>
    have hvertex : vertices[id]? = some (.group o closed body.label parent) := h.getElem?_label
    have hnot : ¬ IsConnective vertices id := by simp [isConnective_iff hvertex, Vertex.isConnective]
    have hbody := ih (h.part (List.mem_cons_of_mem _ (List.mem_singleton_self body)))
    rw [Formula.label, within_iff hvertex]
    simp only [Formula.applied, Vertex.operands]
    grind

private theorem hasValue (h : Shows vertices parent f) (value : NodeId → Proposition → Bool) :
    HasValue vertices value f.label (f.truthAt value) := by
  induction f generalizing parent with
  | leaf id p => exact .leaf h.getElem?_label
  | unary id c operand ih => exact .unary h.getElem?_label (ih (h.part (List.mem_singleton_self _)))
  | binary id c left right ihl ihr =>
    have hright : right ∈ [left, right] := List.mem_cons_of_mem _ (List.mem_singleton_self right)
    exact .binary h.getElem?_label (ihl (h.part List.mem_cons_self)) (ihr (h.part hright))
  | group id o closed body ih => exact .group h.getElem?_label (ih (h.part (List.mem_singleton_self _)))
  | regroup id o closed discarded body _ ih =>
    have hbody : body ∈ [discarded, body] := List.mem_cons_of_mem _ (List.mem_singleton_self body)
    exact .group h.getElem?_label (ih (h.part hbody))

private theorem hasText (h : Shows vertices parent f) (n : Notation) :
    HasText vertices n f.label (f.text n) := by
  induction f generalizing parent with
  | leaf id p => exact .leaf h.getElem?_label
  | unary id c operand ih => exact .unary h.getElem?_label (ih (h.part (List.mem_singleton_self _)))
  | binary id c left right ihl ihr =>
    have hright : right ∈ [left, right] := List.mem_cons_of_mem _ (List.mem_singleton_self right)
    exact .binary h.getElem?_label (ihl (h.part List.mem_cons_self)) (ihr (h.part hright))
  | group id o closed body ih => exact .group h.getElem?_label (ih (h.part (List.mem_singleton_self _)))
  | regroup id o closed discarded body _ ih =>
    have hbody : body ∈ [discarded, body] := List.mem_cons_of_mem _ (List.mem_singleton_self body)
    exact .group h.getElem?_label (ih (h.part hbody))

end Shows

/-- Evaluating from a node gives the one value that the recursion has for it, whatever the leaves
    hold, and applies the listed connectives: just those within the node, each of them once. -/
structure Tree.EvaluatesAt (t : Tree) (id : NodeId) (applied : List NodeId) : Prop where
  nodup : applied.Nodup
  mem_iff : ∀ k, k ∈ applied ↔ Within t.vertices k id ∧ IsConnective t.vertices k
  evaluate : ∀ value, ∃ b, (∀ other, HasValue t.vertices value id other ↔ other = b) ∧
    ∀ k, evaluate t.vertices (Formula.countAt k) value t.evaluationRounds [(id, false)] [] 0 =
      .ok (b, applied.count k)

/-- Rendering from a node writes the one text that the recursion has for it behind any other text. -/
structure Tree.RendersAt (t : Tree) (id : NodeId) (n : Notation) (s : String) : Prop where
  hasText_iff : ∀ other, HasText t.vertices n id other ↔ other = s
  render : ∀ out, render t.vertices n t.renderingRounds [.visit id] out = .ok (out ++ s)

section

variable {M : Type → Type} [PrefixMap M]

/-- The walks with stacks are the recursions along the links: from each node of a tree that was read
    they end in its value and its text, and so do those along the formula. No walk is stuck, each
    connective below the node is applied once, and a text is written behind anything that was written
    before. -/
theorem walks_eq_recursion {d : Dialect M} {text : List Char} {p : Parsed}
    (h : parseWith d text = .ok p) :
    ∃ t, read d text = .ok t ∧ t.vertices.size = p.nodes.size ∧
      ∀ id < t.vertices.size, ∃ node applied, p.nodes[id]? = some node ∧ t.EvaluatesAt id applied ∧
        (∀ v, HasValue t.vertices (fun _ p => p.value v) id (node.formula.evaluate v) ∧
          ∀ k, node.formula.measure (Formula.countAt k) v =
            (node.formula.evaluate v, applied.count k)) ∧
        ∀ n, ∃ s, t.RendersAt id n s ∧ ∀ out, node.formula.renderOnto out n = out ++ s := by
  have hread : read d text = .ok (Tree.ofParsed p) := by rw [read_eq, h]
  have hwalkable := walkable_of_parseWith h
  refine ⟨Tree.ofParsed p, hread, Array.size_map, fun id hid => ?_⟩
  obtain ⟨node, hnode⟩ := hwalkable.exists_node hid
  have hwalks := hwalkable.walks hnode
  obtain ⟨hmem, rfl⟩ := Formula.mem_walk_of_getElem?_nodes (p.nodes_eq ▸ hnode)
  have hshows : Shows (Tree.ofParsed p).vertices node.parent node.formula := fun below hbelow =>
    shows_of_parseWith h below ((Formula.walk_sublist_of_mem_walk hmem).subset hbelow)
  refine ⟨node, node.formula.applied, hnode, ⟨?_, hshows.mem_applied_iff, fun value => ?_⟩,
    fun v => ⟨?_, fun k => ?_⟩, fun n => ?_⟩
  · exact (Formula.wellNumbered_of_parseWith h).nodup_applied hmem
  · have hvalue := hshows.hasValue value
    refine ⟨_, fun other => ⟨fun hother => hother.unique hvalue, ?_⟩, fun k => ?_⟩
    · rintro rfl
      exact hvalue
    · rw [hwalks.evaluate, Formula.cost_countAt]
  · have htruth : node.formula.truthAt (fun _ p => p.value v) = node.formula.truth v :=
      Formula.truthAt_eq_truth fun id p (_ : _ ∈ node.formula.walk node.parent) => rfl
    rw [Formula.evaluate_eq_truth, ← htruth]
    exact hshows.hasValue _
  · rw [Formula.measure_eq, Formula.evaluate_eq_truth, Formula.cost_countAt]
  · have htext := hshows.hasText n
    refine ⟨node.formula.text n,
      ⟨fun other => ⟨fun hother => hother.unique htext, ?_⟩, fun out => ?_⟩,
      fun out => Formula.renderOnto_eq out n node.formula⟩
    · rintro rfl
      exact htext
    · rw [hwalks.render, Formula.renderOnto_eq]

/-- The conjunction in `a|!b&(c` has the number 4, and the negation the number 2. From the conjunction
    just these two are applied, and its texts in the three notations show the group with its parentheses
    in the first one only. -/
theorem walks_eq_recursion_openAtRight :
    ∃ t, read (Dialect.ofRegistry Registry.standard : Dialect PrefixMap.Trie) "a|!b&(c".toList =
        .ok t ∧
      (∃ applied, t.EvaluatesAt 4 applied ∧ applied.Perm [2, 4]) ∧
      t.RendersAt 4 .algebraic "!b&(c)" ∧ t.RendersAt 4 .polish "&!bc" ∧
      t.RendersAt 4 .reversePolish "b!c&" := by
  obtain ⟨t, hread, hsize, hwalks⟩ := walks_eq_recursion parseWith_openAtRight
  have hid : 4 < t.vertices.size := by
    rw [hsize]
    decide +kernel
  obtain ⟨node, applied, hnode, hevaluates, hruns, htexts⟩ := hwalks 4 hid
  have happlied : node.formula.applied = [2, 4] := by
    have hat : ((Parsed.ofFormula Formula.openAtRight.numbered).nodes[4]?).map
        (fun node => node.formula.applied) = some [2, 4] := by decide +kernel
    rw [hnode] at hat
    exact Option.some.inj hat
  have hrenders : ∀ n s, ((Parsed.ofFormula Formula.openAtRight.numbered).nodes[4]?).map
      (fun node => node.formula.text n) = some s → t.RendersAt 4 n s := by
    intro n s hat
    obtain ⟨written, hwritten, honto⟩ := htexts n
    rw [hnode] at hat
    have htext : node.formula.text n = s := Option.some.inj hat
    have hsame := (Formula.renderOnto_eq "" n node.formula).symm.trans (honto "")
    rw [String.append_right_inj, htext] at hsame
    exact hsame ▸ hwritten
  refine ⟨t, hread, ⟨applied, hevaluates, List.perm_iff_count.2 fun k => ?_⟩,
    hrenders _ _ (by decide +kernel), hrenders _ _ (by decide +kernel),
    hrenders _ _ (by decide +kernel)⟩
  have hcount := (hruns Valuation.allFalse).2 k
  rw [Formula.measure_eq, Formula.cost_countAt, happlied] at hcount
  exact (Prod.mk.inj hcount).2.symm

end

end Linked

end Sentential
