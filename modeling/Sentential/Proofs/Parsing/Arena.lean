import Mathlib.Data.List.Pairwise
import Mathlib.Logic.ExistsUnique
import Mathlib.Logic.Relation
import Sentential.Proofs.Formula.Links
import Sentential.Proofs.Parsing.Numbering
import Sentential.Proofs.Parsing.Precedence
import Sentential.Proofs.Parsing.Spelling

namespace Sentential

namespace Formula

/-- Numbered in reading order, all occurrences of an identifier alike and nothing else alike. -/
structure WellNumbered (f : Formula NodeId) : Prop where
  countsUp : ∃ last, CountsUp 0 (f.labelledTokens.filterMap Prod.fst) last
  pairwise : f.labelledTokens.Pairwise fun a b => ∀ id, a.1 = some id → b.1 = some id →
    ∃ p q, a.2 = .operand p ∧ b.2 = .operand q ∧ p.name = q.name
  leaf : ∀ {id other : NodeId} {p q : Proposition}, (some id, .operand p) ∈ f.labelledTokens →
    (some other, .operand q) ∈ f.labelledTokens → p.name = q.name → id = other

/-- Tokens that are numbered in the order in which they come make a well numbered formula. Nothing is
    asked of how the formula was built from them. -/
theorem wellNumbered_of_labelledTokens {f : Formula NodeId} {ts : List Token}
    (h : f.labelledTokens = (Numbering.empty.takeAll ts).1) : f.WellNumbered := by
  have hempty := Numbering.wellFormed_empty
  refine ⟨?_, ?_, fun {id other q u} hq hu hname => ?_⟩
  · rw [h]
    exact ⟨_, hempty.countsUp_takeAll _⟩
  · rw [h]
    exact hempty.pairwise_takeAll _
  · rw [h] at hq hu
    have hleaf := Numbering.getElem?_leaves_of_mem_takeAll hq
    rw [hname, Numbering.getElem?_leaves_of_mem_takeAll hu] at hleaf
    exact (Option.some.inj hleaf).symm

/-- What a text is read as is well numbered, whatever the operators are. In particular they need not be
    validated. -/
theorem wellNumbered_of_parseWith {M : Type → Type} [PrefixMap M] {d : Dialect M} {text : List Char}
    {p : Parsed} (h : parseWith d text = .ok p) : p.formula.WellNumbered :=
  wellNumbered_of_labelledTokens (labelledTokens_of_parseWith h)

/-- Where a registry has all operators of a formula, it has those of its parts. -/
theorem Over.of_mem_parts {ι : Type} {r : Registry} {f g : Formula ι} (hf : f.Over r)
    (h : g ∈ f.parts) : g.Over r := by
  cases f with
  | leaf label p => cases h
  | unary label c operand | group label o closed operand =>
    obtain rfl := List.mem_singleton.1 h
    exact hf.2
  | binary label c left right | regroup label o closed left right =>
    rcases List.mem_cons.1 h with rfl | hright
    · exact hf.2.1
    · obtain rfl := List.mem_singleton.1 hright
      exact hf.2.2

/-- Where a registry has all operators of a formula, it has those below any node. Facts about operators
    of a text hold at each of its nodes. -/
theorem Over.of_mem_walk {r : Registry} {f : Formula NodeId} (hf : f.Over r) {parent : Option NodeId}
    {node : Node} (h : node ∈ f.walk parent) : node.formula.Over r := by
  refine walk_induction (P := fun node => node.formula.Over r) ?_ (fun {node g} _ hnode hg => ?_) h
  · rwa [formula_outermost]
  · rw [formula_outermost]
    exact hnode.of_mem_parts hg

private theorem map_label_walk (parent : Option NodeId) (f : Formula NodeId) :
    (f.walk parent).map (fun node => node.formula.label) = f.labelledTokens.filterMap Prod.fst := by
  have h := congrArg (List.filterMap Prod.fst) (f.map_walk parent)
  rw [List.filterMap_map, List.filterMap_filter] at h
  have hlabel : (Prod.fst ∘ labelledToken) = some ∘ fun node : Node => node.formula.label := rfl
  have hfirst : (fun labelled : Option NodeId × Token =>
      if labelled.1.isSome then labelled.1 else none) = Prod.fst := by
    funext ⟨label, t⟩
    cases label <;> rfl
  rwa [hlabel, hfirst, List.filterMap_eq_map] at h

/-- There are as many nodes as there are numbers. Each number is recorded when it comes for the first
    time, and a leaf that comes again is left out. -/
theorem size_foldl_record {walked : List Node} {nodes : Array Node} {last : Nat}
    (h : CountsUp nodes.size (walked.map fun node => node.formula.label) last) :
    (walked.foldl record nodes).size = last := by
  induction walked generalizing nodes with
  | nil =>
    cases h
    rfl
  | cons node rest ih =>
    rw [List.map_cons] at h
    generalize hid : node.formula.label = id at h
    cases h with
    | old hold hrest =>
      have hne : node.formula.label ≠ nodes.size := hid ▸ Nat.ne_of_lt hold
      rw [List.foldl_cons, record, if_neg hne]
      exact ih hrest
    | new hrest =>
      rw [List.foldl_cons, record, if_pos hid]
      exact ih (by simpa using hrest)

namespace WellNumbered

private theorem countsUp_walk {f : Formula NodeId} (h : f.WellNumbered) :
    CountsUp 0 ((f.walk none).map fun node => node.formula.label) f.nodes.size := by
  obtain ⟨last, hlast⟩ := h.countsUp
  rw [← map_label_walk none f] at hlast
  have hsize : f.nodes.size = last := by
    rw [nodes, collect_eq_foldl]
    refine size_foldl_record ?_
    simpa [Visit.walk] using hlast
  rwa [hsize]

/-- Nodes with one number are one leaf. Operators are never met twice on the way through a formula. -/
theorem pairwise_walk {r : Registry} {f : Formula NodeId} (h : f.WellNumbered) (hf : f.Over r) :
    (f.walk none).Pairwise fun m n => m.formula.label = n.formula.label →
      m = n ∧ m.proposition?.isSome := by
  have hpairwise := h.pairwise.filter (·.1.isSome)
  rw [← f.map_walk none, List.pairwise_map] at hpairwise
  refine hpairwise.imp_of_mem fun {m n} hm hn hmn hlabel => ?_
  obtain ⟨p, q, hp, hq, hname⟩ := hmn _ rfl (congrArg some hlabel.symm)
  have hleaf : ∀ {node : Node} {p : Proposition}, node ∈ f.walk none →
      (labelledToken node).2 = .operand p →
        node = ⟨.leaf node.formula.label (.ofIdentifier p.name), none⟩ := by
    intro node p hnode htoken
    have hover := hf.of_mem_walk hnode
    have hparent := eq_outermost_of_mem_walk hnode
    obtain ⟨g, parent⟩ := node
    cases g with
    | leaf label q =>
      obtain rfl := Token.operand.inj htoken
      have hq : q = .ofIdentifier q.name := hover
      rw [hparent, ← hq]
      rfl
    | _ => cases htoken
  rw [hleaf hm hp, hleaf hn hq, hlabel, hname]
  exact ⟨rfl, rfl⟩

/-- Every node that is walked through stands at its number, and no other stands there. All that is said
    of the array can be proved of the formula by it. -/
theorem getElem?_nodes_iff {r : Registry} {f : Formula NodeId} (h : f.WellNumbered) (hf : f.Over r)
    {id : NodeId} {node : Node} :
    f.nodes[id]? = some node ↔ node ∈ f.walk none ∧ node.formula.label = id := by
  refine ⟨mem_walk_of_getElem?_nodes, ?_⟩
  rintro ⟨hmem, rfl⟩
  have hlt : node.formula.label < f.nodes.size :=
    h.countsUp_walk.lt_of_mem (List.mem_map_of_mem (f := fun node => node.formula.label) hmem)
  have hfound := Array.getElem?_eq_getElem hlt
  obtain ⟨hother, hlabel⟩ := mem_walk_of_getElem?_nodes hfound
  have hunique := (h.pairwise_walk hf).imp fun {m n} hmn hlabel => (hmn hlabel).1
  have : Std.Symm fun m n : Node => m.formula.label = n.formula.label → m = n :=
    ⟨fun m n hmn hlabel => (hmn hlabel.symm).symm⟩
  rw [hfound, hunique.forall_of_forall (fun _ _ _ => rfl) hother hmem hlabel]

end WellNumbered

end Formula

/-- Whether one node has another as its operand on some side. -/
def IsOperand (nodes : Array Node) (id : NodeId) (side : Side) (operand : NodeId) : Prop :=
  ∃ node, nodes[id]? = some node ∧ node.operand? side = some operand

/-- Whether one node has another as an operand. -/
def IsAbove (nodes : Array Node) (id operand : NodeId) : Prop :=
  ∃ side, IsOperand nodes id side operand

/-- The numbers that are met from a node on when links to operands are followed in reading order. -/
inductive Traverses (nodes : Array Node) : NodeId → List NodeId → Prop where
  | leaf {id : NodeId} {node : Node} (hnode : nodes[id]? = some node) (hleft : node.left = none)
    (hright : node.right = none) : Traverses nodes id [id]
  | unary {id operand : NodeId} {node : Node} {below : List NodeId} (hnode : nodes[id]? = some node)
    (hleft : node.left = none) (hright : node.right = some operand)
    (hbelow : Traverses nodes operand below) : Traverses nodes id (id :: below)
  | binary {id left right : NodeId} {node : Node} {before behind : List NodeId}
    (hnode : nodes[id]? = some node) (hleft : node.left = some left)
    (hright : node.right = some right) (hbefore : Traverses nodes left before)
    (hbehind : Traverses nodes right behind) : Traverses nodes id (before ++ id :: behind)

/-- What is met can be reached. Following links from the root therefore meets only what belongs to the
    tree. -/
theorem Traverses.reachable {nodes : Array Node} {id other : NodeId} {ids : List NodeId}
    (h : Traverses nodes id ids) (hother : other ∈ ids) :
    Relation.ReflTransGen (IsAbove nodes) id other := by
  induction h with
  | leaf hnode hleft hright =>
    obtain rfl := List.mem_singleton.1 hother
    exact .refl
  | unary hnode hleft hright _ ih =>
    rcases List.mem_cons.1 hother with rfl | hbelow
    · exact .refl
    · exact .head ⟨.right, _, hnode, hright⟩ (ih hbelow)
  | binary hnode hleft hright _ _ ihl ihr =>
    rcases List.mem_append.1 hother with hbefore | hrest
    · exact .head ⟨.left, _, hnode, hleft⟩ (ihl hbefore)
    · rcases List.mem_cons.1 hrest with rfl | hbehind
      · exact .refl
      · exact .head ⟨.right, _, hnode, hright⟩ (ihr hbehind)

/-- Whether the outermost operator is one that the registry has for its place. -/
def Registry.Supplies {ι : Type} (r : Registry) : Formula ι → Prop
  | .leaf _ p => p = .ofIdentifier p.name
  | .unary _ c _ => r.unary[c.symbol]? = some (.connective c)
  | .binary _ c _ _ => r.binary[c.symbol]? = some (.connective c)
  | .group _ o _ _ => r.unary[o.symbol]? = some (.opener o)
  | .regroup .. => False

/-- The identifier that a token is. -/
def Token.identifier? : Token → Option String
  | operand p => some p.name
  | _ => none

/-- The identifier that a leaf is the node of. -/
def Node.identifier? (node : Node) : Option String :=
  node.proposition?.map Proposition.name

namespace Formula

section Links

variable {r : Registry} {f : Formula NodeId}

/-- The number of an operand leads to the operand, which stands there as the outermost node of its
    formula. -/
private theorem WellNumbered.getElem?_of_isOperand (h : f.WellNumbered) (hf : f.Over r)
    {id operand : NodeId} {side : Side} (hoperand : IsOperand f.nodes id side operand) :
    ∃ node g, f.nodes[id]? = some node ∧ node.formula.operand? side = some g ∧ g.label = operand ∧
      f.nodes[operand]? = some (g.outermost (some id)) := by
  obtain ⟨node, hnode, hlink⟩ := hoperand
  rw [Node.operand?_eq] at hlink
  obtain ⟨g, hg, rfl⟩ := Option.map_eq_some_iff.1 hlink
  obtain ⟨hmem, hlabel⟩ := mem_walk_of_getElem?_nodes hnode
  subst hlabel
  have hbelow := outermost_mem_walk_of_mem_parts hmem (mem_parts_of_operand? hg)
  exact ⟨node, g, hnode, hg, rfl, (h.getElem?_nodes_iff hf).2 ⟨hbelow, by simp⟩⟩

/-- A node that is walked through can be found at its number. No other node stands there, unless it is
    the same leaf. -/
theorem WellNumbered.getElem?_label (h : f.WellNumbered) (hf : f.Over r) {g : Formula NodeId}
    {parent : Option NodeId} (hmem : g.outermost parent ∈ f.walk none) :
    f.nodes[g.label]? = some (g.outermost parent) :=
  (h.getElem?_nodes_iff hf).2 ⟨hmem, by rw [formula_outermost]⟩

/-- The number of a node is in range. No link leads out of the array for this reason. -/
theorem WellNumbered.lt_size_of_mem_walk (h : f.WellNumbered) {node : Node}
    (hmem : node ∈ f.walk none) : node.formula.label < f.nodes.size :=
  h.countsUp_walk.lt_of_mem (List.mem_map_of_mem (f := fun node => node.formula.label) hmem)

/-- Every link to an operand leads to a smaller formula, so no way along links comes back to where it
    began. It holds for formulas with discarded operands as well. -/
theorem WellNumbered.acyclic (h : f.WellNumbered) (hf : f.Over r) (id : NodeId) :
    ¬ Relation.TransGen (IsAbove f.nodes) id id := by
  have hsmaller : ∀ {above below : NodeId}, Relation.TransGen (IsAbove f.nodes) above below →
      ∃ m n, f.nodes[above]? = some m ∧ f.nodes[below]? = some n ∧ n.formula.size < m.formula.size := by
    intro above below hpath
    induction hpath with
    | single hstep =>
      obtain ⟨side, hoperand⟩ := hstep
      obtain ⟨m, g, hm, hg, -, hn⟩ := h.getElem?_of_isOperand hf hoperand
      exact ⟨m, _, hm, hn, by simpa using size_lt_of_mem_parts (mem_parts_of_operand? hg)⟩
    | tail _ hstep ih =>
      obtain ⟨side, hoperand⟩ := hstep
      obtain ⟨m, n, hm, hn, hlt⟩ := ih
      obtain ⟨n', g, hn', hg, -, hlast⟩ := h.getElem?_of_isOperand hf hoperand
      obtain rfl := Option.some.inj (hn.symm.trans hn')
      have hsize := size_lt_of_mem_parts (mem_parts_of_operand? hg)
      exact ⟨m, _, hm, hlast, by simpa using Nat.lt_trans hsize hlt⟩
  intro hcycle
  obtain ⟨m, n, hm, hn, hlt⟩ := hsmaller hcycle
  obtain rfl := Option.some.inj (hm.symm.trans hn)
  exact Nat.lt_irrefl _ hlt

/-- The operands of a node are different nodes, unless both are one leaf. -/
private theorem WellNumbered.side_eq (h : f.WellNumbered) (hf : f.Over r) {node : Node}
    (hmem : node ∈ f.walk none) {side other : Side} {g g' : Formula NodeId}
    (hg : node.formula.operand? side = some g) (hg' : node.formula.operand? other = some g')
    (hlabel : g.label = g'.label) (hleaf : (g.outermost none).proposition? = none) : side = other := by
  have hleft : ∀ {left right : Formula NodeId}, node.formula.left? = some left →
      node.formula.right? = some right → left.label = right.label →
        left = right ∧ (left.outermost none).proposition?.isSome := by
    intro left right hl hr hsame
    have hpart := (h.pairwise_walk hf).sublist (walk_sublist_of_mem_walk hmem)
    obtain ⟨formula, parent⟩ := node
    cases formula with
    | binary id c first second =>
      obtain rfl := Option.some.inj hl
      obtain rfl := Option.some.inj hr
      obtain ⟨-, -, hcross⟩ := List.pairwise_append.1 hpart
      obtain ⟨heq, hsome⟩ := hcross _ (outermost_mem_walk _ first) _
        (List.mem_cons_of_mem _ (outermost_mem_walk _ second)) (by simpa using hsame)
      exact ⟨by simpa using congrArg Node.formula heq, by rwa [proposition?_outermost none (some id)]⟩
    | _ => cases hl
  cases side <;> cases other
  · rfl
  · have hsome := (hleft hg hg' hlabel).2
    rw [hleaf] at hsome
    cases hsome
  · obtain ⟨rfl, hsome⟩ := hleft hg' hg hlabel.symm
    rw [hleaf] at hsome
    cases hsome
  · rfl

/-- An operator below another one is its operand on one side, and no operand elsewhere. Formulas with
    discarded operands are left out, since nothing links to those. -/
theorem WellNumbered.operand_once (h : f.WellNumbered) (hf : f.Over r) (hregroup : f.NoRegroup)
    {id : NodeId} {node : Node} (hnode : f.nodes[id]? = some node) (hleaf : node.proposition? = none)
    (hroot : id ≠ f.label) : ∃ above side, node.parent = some above ∧
      ∀ other place, IsOperand f.nodes other place id ↔ other = above ∧ place = side := by
  obtain ⟨hmem, rfl⟩ := mem_walk_of_getElem?_nodes hnode
  have hne : node ≠ f.outermost none := by
    rintro rfl
    simp at hroot
  obtain ⟨above, habove, g, hg, rfl⟩ := exists_mem_walk_of_ne_outermost hmem hne
  obtain ⟨side, hside⟩ := (hregroup.of_mem_walk habove).exists_operand? hg
  have hparent := parent_outermost hleaf
  have hfound := (h.getElem?_nodes_iff hf).2 ⟨habove, rfl⟩
  refine ⟨above.formula.label, side, hparent, fun other place => ⟨fun hoperand => ?_, ?_⟩⟩
  · obtain ⟨m, g', hm, hg', -, hsame⟩ := h.getElem?_of_isOperand hf hoperand
    have heq := Option.some.inj (hnode.symm.trans hsame)
    obtain rfl : g = g' := by simpa using congrArg Node.formula heq
    have hother : (g.outermost (some other)).parent = some other :=
      parent_outermost (by rwa [proposition?_outermost _ (some above.formula.label)])
    obtain rfl : other = above.formula.label :=
      Option.some.inj (hother.symm.trans (heq ▸ hparent))
    obtain rfl := Option.some.inj (hfound.symm.trans hm)
    refine ⟨rfl, h.side_eq hf habove hg' hside rfl ?_⟩
    rwa [proposition?_outermost _ (some above.formula.label)]
  · rintro ⟨rfl, rfl⟩
    refine ⟨above, hfound, ?_⟩
    rw [Node.operand?_eq, hside, formula_outermost]
    rfl

/-- Following the links is walking through the formula. The links are followed in the order in which the
    text names the nodes. -/
theorem WellNumbered.traverses_walk (h : f.WellNumbered) (hf : f.Over r) {g : Formula NodeId}
    {parent : Option NodeId} (hmem : g.outermost parent ∈ f.walk none) (hg : g.NoRegroup) :
    Traverses f.nodes g.label ((g.walk parent).map fun node => node.formula.label) := by
  have hfound := h.getElem?_label hf hmem
  induction g generalizing parent with
  | leaf id p => exact .leaf hfound rfl rfl
  | unary id c operand ih =>
    have hoperand := outermost_mem_walk_of_outermost hmem (List.mem_singleton_self operand)
    exact .unary hfound rfl rfl (ih hoperand hg (h.getElem?_label hf hoperand))
  | binary id c left right ihl ihr =>
    have hl := outermost_mem_walk_of_outermost hmem (List.mem_cons_self (a := left) (l := [right]))
    have hr := outermost_mem_walk_of_outermost hmem
      (List.mem_cons_of_mem left (List.mem_singleton_self right))
    rw [walk, List.map_append]
    exact .binary hfound rfl rfl (ihl hl hg.1 (h.getElem?_label hf hl))
      (ihr hr hg.2 (h.getElem?_label hf hr))
  | group id o closed body ih =>
    have hbody := outermost_mem_walk_of_outermost hmem (List.mem_singleton_self body)
    exact .unary hfound rfl rfl (ih hbody hg (h.getElem?_label hf hbody))
  | regroup id o closed discarded body _ _ => exact hg.elim

/-- The nodes in reading order are written as the tokens of the formula, less right parentheses. -/
private theorem map_token_walk (parent : Option NodeId) (f : Formula NodeId) :
    (f.walk parent).map (fun node => node.formula.token) = f.sourceTokens.filter (· ≠ .closer) := by
  have hclosing : ∀ closed, (closing closed).filter (· ≠ .closer) = [] := by decide
  induction f generalizing parent with
  | leaf id p => rfl
  | unary id c operand ih =>
    rw [walk, List.map_cons, ih]
    rfl
  | binary id c left right ihl ihr =>
    rw [walk, List.map_append, List.map_cons, ihl, ihr, sourceTokens, List.filter_append]
    rfl
  | group id o closed body ih =>
    rw [walk, List.map_cons, ih, sourceTokens, List.filter_cons_of_pos rfl, List.filter_append,
      hclosing, List.append_nil]
    rfl
  | regroup id o closed discarded body ihd ih =>
    rw [walk, List.map_append, List.map_cons, ihd, ih, sourceTokens, List.filter_append,
      List.filter_cons_of_pos rfl, List.filter_append, hclosing, List.append_nil]
    rfl

private theorem identifier?_token (node : Node) :
    node.formula.token.identifier? = node.identifier? := by
  obtain ⟨g, parent⟩ := node
  cases g <;> rfl

private theorem identifier?_mem_sourceTokens {id : NodeId} {node : Node} {name : String}
    (hnode : f.nodes[id]? = some node) (hname : node.identifier? = some name) :
    ∃ t ∈ f.sourceTokens, t.identifier? = some name := by
  have hmem := List.mem_map_of_mem (f := fun node => node.formula.token)
    (mem_walk_of_getElem?_nodes hnode).1
  rw [map_token_walk] at hmem
  exact ⟨_, (List.mem_filter.1 hmem).1, (identifier?_token node).trans hname⟩

/-- An identifier of the formula has one leaf, which all its occurrences share. This includes the
    identifiers of constants. -/
theorem WellNumbered.existsUnique_leaf (h : f.WellNumbered) (hf : f.Over r) {name : String}
    (hname : ∃ t ∈ f.sourceTokens, t.identifier? = some name) :
    ∃! id : NodeId, ∃ node : Node, f.nodes[id]? = some node ∧ node.identifier? = some name := by
  obtain ⟨t, ht, hidentifier⟩ := hname
  have hnode : t ∈ (f.walk none).map fun node => node.formula.token := by
    rw [map_token_walk]
    refine List.mem_filter.2 ⟨ht, decide_eq_true ?_⟩
    rintro rfl
    cases hidentifier
  obtain ⟨node, hmem, rfl⟩ := List.mem_map.1 hnode
  rw [identifier?_token] at hidentifier
  have hleaf : ∀ {node : Node}, node ∈ f.walk none → node.identifier? = some name →
      ∃ p, (some node.formula.label, .operand p) ∈ f.labelledTokens ∧ p.name = name := by
    intro node hmem hname
    have hlabelled := labelledToken_mem_of_mem_walk hmem
    obtain ⟨g, parent⟩ := node
    cases g with
    | leaf id p => exact ⟨p, hlabelled, Option.some.inj hname⟩
    | _ => cases hname
  refine ⟨node.formula.label, ⟨node, (h.getElem?_nodes_iff hf).2 ⟨hmem, rfl⟩, hidentifier⟩, ?_⟩
  rintro id ⟨other, hother, hsame⟩
  obtain ⟨hotherMem, rfl⟩ := mem_walk_of_getElem?_nodes hother
  obtain ⟨p, hp, hpname⟩ := hleaf hmem hidentifier
  obtain ⟨q, hq, hqname⟩ := hleaf hotherMem hsame
  exact h.leaf hq hp (hqname.trans hpname.symm)

end Links

end Formula

/-- What was read is all that there is to a parse. The nodes, the root and the symbols are made from the
    formula. -/
theorem Parsed.ofFormula_formula (p : Parsed) : p = ofFormula p.formula := by
  obtain ⟨f, nodes, symbols, rfl, rfl⟩ := p
  rfl

private theorem Registry.supplies_of_over {ι : Type} {r : Registry} {f : Formula ι} (hf : f.Over r)
    (hregroup : f.NoRegroup) : r.Supplies f := by
  cases f with
  | leaf label p => exact hf
  | unary label c operand => exact hf.1
  | binary label c left right => exact hf.1
  | group label o closed body => exact hf.1
  | regroup label o closed discarded body => exact hregroup

/-- The nodes are a tree in which only leaves are shared. Every operator but the outermost one is
    the operand of one node on one side, and that node is its parent. The numbers follow the order in
    which the tokens name the nodes. -/
structure Parsed.WellFormed (r : Registry) (ts : List Token) (p : Parsed) : Prop where
  root_lt : p.root < p.nodes.size
  operand_lt : ∀ {id side operand}, IsOperand p.nodes id side operand → operand < p.nodes.size
  parent_lt : ∀ {id : NodeId} {node : Node} {above : NodeId}, p.nodes[id]? = some node →
    node.parent = some above → above < p.nodes.size
  acyclic : ∀ id, ¬ Relation.TransGen (IsAbove p.nodes) id id
  parent_root : ∃ node, p.nodes[p.root]? = some node ∧ node.parent = none
  operand_once : ∀ {id : NodeId} {node : Node}, p.nodes[id]? = some node →
    node.proposition? = none → id ≠ p.root → ∃ above side, node.parent = some above ∧
      ∀ other place, IsOperand p.nodes other place id ↔ other = above ∧ place = side
  parent_leaf : ∀ {id : NodeId} {node : Node}, p.nodes[id]? = some node →
    node.proposition?.isSome → node.parent = none
  supplied : ∀ {id : NodeId} {node : Node}, p.nodes[id]? = some node → r.Supplies node.formula
  existsUnique_leaf : ∀ {name : String}, (∃ t ∈ ts, t.identifier? = some name) →
    ∃! id : NodeId, ∃ node : Node, p.nodes[id]? = some node ∧ node.identifier? = some name
  identifier_mem : ∀ {id : NodeId} {node : Node} {name : String}, p.nodes[id]? = some node →
    node.identifier? = some name → ∃ t ∈ ts, t.identifier? = some name
  traversed : ∃ ids, Traverses p.nodes p.root ids ∧ ids.eraseDups = List.range p.nodes.size ∧
    ids.map (fun id => p.nodes[id]?.map fun node => node.formula.token) =
      (ts.filter (· ≠ .closer)).map some
  reachable : ∀ {id}, id < p.nodes.size → Relation.ReflTransGen (IsAbove p.nodes) p.root id

private theorem Parsed.wellFormed_ofFormula {r : Registry} {f : Formula NodeId} (h : f.WellNumbered)
    (hf : f.Over r) (hregroup : f.NoRegroup) : (ofFormula f).WellFormed r f.sourceTokens := by
  have hroot := Formula.outermost_mem_walk none f
  have htraverses := h.traverses_walk hf hroot hregroup
  have hids := h.countsUp_walk.eraseDups_eq_range
  have hlt : ∀ {node : Node}, node ∈ f.walk none → node.formula.label < f.nodes.size :=
    h.lt_size_of_mem_walk
  refine {
    root_lt := (Array.getElem?_eq_some_iff.1 (h.getElem?_label hf hroot)).1
    operand_lt := fun {id side operand} hoperand => ?_
    parent_lt := fun {id node above} hnode hparent => ?_
    acyclic := h.acyclic hf
    parent_root := ⟨_, h.getElem?_label hf hroot, by cases f <;> rfl⟩
    operand_once := h.operand_once hf hregroup
    parent_leaf := fun {id node} hnode hleaf => ?_
    supplied := fun {id node} hnode => ?_
    existsUnique_leaf := h.existsUnique_leaf hf
    identifier_mem := Formula.identifier?_mem_sourceTokens
    traversed := ⟨_, htraverses, hids, ?_⟩
    reachable := fun {id} hid => htraverses.reachable ?_ }
  · obtain ⟨above, g, -, -, -, hfound⟩ := h.getElem?_of_isOperand hf hoperand
    exact (Array.getElem?_eq_some_iff.1 hfound).1
  · obtain ⟨hmem, -⟩ := Formula.mem_walk_of_getElem?_nodes hnode
    by_cases houtermost : node = f.outermost none
    · subst houtermost
      cases f <;> cases hparent
    · obtain ⟨m, hm, g, -, rfl⟩ := Formula.exists_mem_walk_of_ne_outermost hmem houtermost
      cases g <;> cases hparent <;> exact hlt hm
  · obtain ⟨hmem, -⟩ := Formula.mem_walk_of_getElem?_nodes hnode
    rw [Formula.eq_outermost_of_mem_walk hmem]
    obtain ⟨g, parent⟩ := node
    cases g with
    | leaf id p => rfl
    | _ => cases hleaf
  · obtain ⟨hmem, -⟩ := Formula.mem_walk_of_getElem?_nodes hnode
    exact Registry.supplies_of_over (hf.of_mem_walk hmem) (hregroup.of_mem_walk hmem)
  · rw [← Formula.map_token_walk none, List.map_map, List.map_map]
    refine List.map_congr_left fun node hmem => ?_
    exact congrArg (Option.map fun node : Node => node.formula.token)
      ((h.getElem?_nodes_iff hf).2 ⟨hmem, rfl⟩)
  · rw [← List.mem_eraseDups, hids]
    exact List.mem_range.2 hid

/-- Whatever registrations made a registry, the nodes of an accepted text are a tree that shares only
    its leaves, and they are numbered as the text names them. The tokens are those that the text spells,
    so nothing is said of tokens that another reader might have found. -/
theorem wellFormed_of_parseWith {M : Type → Type} [PrefixMap M] [LawfulPrefixMap M] {r : Registry}
    (hr : r.Validated) {text : List Char} {p : Parsed}
    (h : parseWith (Dialect.ofRegistry r : Dialect M) text = .ok p) :
    Spells r.Knows text ((Dialect.ofRegistry r : Dialect M).scan text).tokens [] ∧
      p.WellFormed r ((Dialect.ofRegistry r : Dialect M).scan text).tokens := by
  have hregroup := (respectsPrecedence_of_parseWith (Dialect.sound_ofRegistry hr) h).noRegroup
  have hnumbered := Formula.wellNumbered_of_parseWith h
  obtain ⟨hspells, hleads⟩ := reads_of_parseWith hr.sound h
  have hwellFormed :=
    Parsed.wellFormed_ofFormula hnumbered (Formula.over_of_leads_sourceTokens hleads) hregroup
  rw [← p.ofFormula_formula] at hwellFormed
  rw [← sourceTokens_of_parseWith h]
  exact ⟨hspells, hwellFormed⟩

/-- The text has a group that is open at its end. It is a node like any other. -/
theorem wellFormed_of_parseWith_openAtRight :
    Registry.standard.Validated ∧
      Spells Registry.standard.Knows "a|!b&(c".toList
        ((Dialect.ofRegistry Registry.standard : Dialect PrefixMap.Trie).scan
          "a|!b&(c".toList).tokens [] ∧
      (Parsed.ofFormula Formula.openAtRight.numbered).WellFormed Registry.standard
        ((Dialect.ofRegistry Registry.standard : Dialect PrefixMap.Trie).scan
          "a|!b&(c".toList).tokens :=
  ⟨.standard, wellFormed_of_parseWith .standard parseWith_openAtRight⟩

end Sentential
