import Sentential.Proofs.Formula.Nodes
import Sentential.Proofs.Formula.Precedence

namespace Sentential

/-- The places for an operand. -/
inductive Side where
  | left
  | right
  deriving DecidableEq, Repr

/-- The number of the operand on one side. -/
def Node.operand? (node : Node) : Side → Option NodeId
  | .left => node.left
  | .right => node.right

namespace Formula

/-- The operand on one side. -/
def operand? {ι : Type} (f : Formula ι) : Side → Option (Formula ι)
  | .left => f.left?
  | .right => f.right?

/-- The formulas directly below the outermost node, also one that is discarded. -/
def parts {ι : Type} : Formula ι → List (Formula ι)
  | leaf .. => []
  | unary _ _ operand => [operand]
  | binary _ _ left right => [left, right]
  | group _ _ _ body => [body]
  | regroup _ _ _ discarded body => [discarded, body]

/-- What stands directly below a node is smaller, which makes recursion along links end. -/
theorem size_lt_of_mem_parts {ι : Type} {f g : Formula ι} (h : g ∈ f.parts) : g.size < f.size := by
  cases f with
  | leaf label p => cases h
  | unary label c operand | group label o closed operand =>
    obtain rfl := List.mem_singleton.1 h
    exact Nat.lt_succ_self _
  | binary label c left right | regroup label o closed left right =>
    simp only [size]
    rcases List.mem_cons.1 h with rfl | hright
    · omega
    · obtain rfl := List.mem_singleton.1 hright
      omega

/-- Operands stand directly below the node. The converse fails for a discarded operand only. -/
theorem mem_parts_of_operand? {ι : Type} {f g : Formula ι} {side : Side}
    (h : f.operand? side = some g) : g ∈ f.parts := by
  cases side <;> cases f <;> cases h <;> simp [parts]

/-- Where nothing is discarded, all that stands directly below a node is one of its operands. This is
    the converse of `mem_parts_of_operand?`. -/
theorem NoRegroup.exists_operand? {ι : Type} {f g : Formula ι} (hf : f.NoRegroup)
    (h : g ∈ f.parts) : ∃ side, f.operand? side = some g := by
  cases f with
  | leaf label p => cases h
  | unary label c operand | group label o closed operand =>
    obtain rfl := List.mem_singleton.1 h
    exact ⟨.right, rfl⟩
  | binary label c left right =>
    rcases List.mem_cons.1 h with rfl | hright
    · exact ⟨.left, rfl⟩
    · obtain rfl := List.mem_singleton.1 hright
      exact ⟨.right, rfl⟩
  | regroup label o closed discarded body => exact hf.elim

/-- Where nothing is discarded in a formula, nothing is discarded in its parts. -/
theorem NoRegroup.of_mem_parts {ι : Type} {f g : Formula ι} (hf : f.NoRegroup) (h : g ∈ f.parts) :
    g.NoRegroup := by
  cases f with
  | leaf label p => cases h
  | unary label c operand | group label o closed operand =>
    obtain rfl := List.mem_singleton.1 h
    exact hf
  | binary label c left right =>
    rcases List.mem_cons.1 h with rfl | hright
    · exact hf.1
    · obtain rfl := List.mem_singleton.1 hright
      exact hf.2
  | regroup label o closed discarded body => exact hf.elim

/-- The outermost node of a formula that stands directly below some node. A leaf records no parent. -/
def outermost (parent : Option NodeId) (f : Formula NodeId) : Node :=
  match f with
  | leaf .. => ⟨f, none⟩
  | _ => ⟨f, parent⟩

/-- The outermost node of a formula holds the formula itself. -/
@[simp] theorem formula_outermost (parent : Option NodeId) (f : Formula NodeId) :
    (f.outermost parent).formula = f := by
  cases f <;> rfl

/-- Whether a node is a leaf, and of which proposition, does not depend on what is above it. -/
theorem proposition?_outermost (parent other : Option NodeId) (f : Formula NodeId) :
    (f.outermost parent).proposition? = (f.outermost other).proposition? := by
  simp [Node.proposition?]

/-- Every outermost node but a leaf records the node above it. A leaf is shared by many occurrences and
    records none. -/
theorem parent_outermost {parent : Option NodeId} {f : Formula NodeId}
    (h : (f.outermost parent).proposition? = none) : (f.outermost parent).parent = parent := by
  cases f with
  | leaf id p => cases h
  | _ => rfl

/-- The way through a formula passes its outermost node. What is shown of all nodes holds of the root. -/
theorem outermost_mem_walk (parent : Option NodeId) (f : Formula NodeId) :
    f.outermost parent ∈ f.walk parent := by
  cases f <;> simp [outermost, walk]

/-- A node is the outermost one or stands in one of the parts below it. The parts are walked with the
    outermost node as their parent. -/
theorem eq_outermost_or_mem_walk_part {f : Formula NodeId} {parent : Option NodeId} {node : Node}
    (h : node ∈ f.walk parent) :
    node = f.outermost parent ∨ ∃ g ∈ f.parts, node ∈ g.walk (some f.label) := by
  cases f with
  | leaf id p => exact .inl (List.mem_singleton.1 h)
  | unary id c operand | group id o closed operand =>
    rcases List.mem_cons.1 h with rfl | hoperand
    · exact .inl rfl
    · exact .inr ⟨operand, List.mem_singleton_self _, hoperand⟩
  | binary id c left right | regroup id o closed left right =>
    rcases List.mem_append.1 h with hleft | hrest
    · exact .inr ⟨left, List.mem_cons_self, hleft⟩
    · rcases List.mem_cons.1 hrest with rfl | hright
      · exact .inl rfl
      · exact .inr ⟨right, List.mem_cons_of_mem _ (List.mem_singleton_self _), hright⟩

/-- The way through a part is a part of the way. The nodes come in the same order there. -/
theorem walk_sublist_of_mem_parts {f g : Formula NodeId} (h : g ∈ f.parts)
    (parent : Option NodeId) : (g.walk (some f.label)).Sublist (f.walk parent) := by
  cases f with
  | leaf id p => cases h
  | unary id c operand | group id o closed operand =>
    obtain rfl := List.mem_singleton.1 h
    exact List.sublist_cons_self _ _
  | binary id c left right | regroup id o closed left right =>
    rcases List.mem_cons.1 h with rfl | hright
    · exact List.sublist_append_left _ _
    · obtain rfl := List.mem_singleton.1 hright
      exact (List.sublist_cons_self _ _).trans (List.sublist_append_right _ _)

/-- What holds of the outermost node and passes from a node to those directly below it holds of all
    nodes. This is how facts about links are carried from the root downwards. -/
theorem walk_induction {P : Node → Prop} {f : Formula NodeId} {parent : Option NodeId}
    (houtermost : P (f.outermost parent))
    (hpart : ∀ {node g}, node ∈ f.walk parent → P node → g ∈ node.formula.parts →
      P (g.outermost (some node.formula.label)))
    {node : Node} (h : node ∈ f.walk parent) : P node := by
  generalize hn : f.size = n
  induction n using Nat.strongRecOn generalizing f parent with
  | ind n ih =>
    rcases eq_outermost_or_mem_walk_part h with rfl | ⟨g, hg, hbelow⟩
    · exact houtermost
    · have hsub := walk_sublist_of_mem_parts hg parent
      refine ih g.size (hn ▸ size_lt_of_mem_parts hg) ?_ (fun hmem => hpart (hsub.subset hmem)) hbelow rfl
      have hfirst := hpart (outermost_mem_walk parent f) houtermost (g := g) (by simpa using hg)
      simpa using hfirst

/-- A node is known by its formula and its parent: it is the outermost node of its formula below that
    parent. -/
theorem eq_outermost_of_mem_walk {f : Formula NodeId} {parent : Option NodeId} {node : Node}
    (h : node ∈ f.walk parent) : node = node.formula.outermost node.parent := by
  refine walk_induction (P := fun node => node = node.formula.outermost node.parent) ?_
    (fun {node g} _ _ _ => ?_) h
  · cases f <;> rfl
  · cases g <;> rfl

/-- The way through what stands below a node is a part of the way through the whole formula. Nodes that
    come once in the whole therefore come once in a part. -/
theorem walk_sublist_of_mem_walk {f : Formula NodeId} {parent : Option NodeId} {node : Node}
    (h : node ∈ f.walk parent) : (node.formula.walk node.parent).Sublist (f.walk parent) := by
  refine walk_induction
    (P := fun node => (node.formula.walk node.parent).Sublist (f.walk parent)) ?_
    (fun {node g} _ hnode hg => ?_) h
  · cases f <;> exact List.Sublist.refl _
  · have hsub := (walk_sublist_of_mem_parts hg node.parent).trans hnode
    cases g <;> exact hsub

/-- What stands directly below a node is a node of the formula too. It has the node as its parent,
    unless it is a leaf. -/
theorem outermost_mem_walk_of_mem_parts {f g : Formula NodeId} {parent : Option NodeId} {node : Node}
    (h : node ∈ f.walk parent) (hg : g ∈ node.formula.parts) :
    g.outermost (some node.formula.label) ∈ f.walk parent :=
  (walk_sublist_of_mem_walk h).subset
    ((walk_sublist_of_mem_parts hg node.parent).subset (outermost_mem_walk _ g))

/-- The same for a node that is given by a formula and its parent. One can go from the root downwards
    with it, part by part. -/
theorem outermost_mem_walk_of_outermost {f g g' : Formula NodeId} {parent above : Option NodeId}
    (h : g.outermost above ∈ f.walk parent) (hg : g' ∈ g.parts) :
    g'.outermost (some g.label) ∈ f.walk parent := by
  have hbelow := outermost_mem_walk_of_mem_parts h (g := g') (by rwa [formula_outermost])
  rwa [formula_outermost] at hbelow

/-- Every node but the outermost one stands directly below another, which is a node of the formula as
    well. It is where the parent of a node comes from. -/
theorem exists_mem_walk_of_ne_outermost {f : Formula NodeId} {parent : Option NodeId} {node : Node}
    (h : node ∈ f.walk parent) (hne : node ≠ f.outermost parent) :
    ∃ above ∈ f.walk parent, ∃ g ∈ above.formula.parts,
      node = g.outermost (some above.formula.label) := by
  refine walk_induction (P := fun node => node ≠ f.outermost parent → ∃ above ∈ f.walk parent,
    ∃ g ∈ above.formula.parts, node = g.outermost (some above.formula.label)) ?_ ?_ h hne
  · exact fun hne => absurd rfl hne
  · exact fun {above g} habove _ hg _ => ⟨above, habove, g, hg, rfl⟩

/-- Where nothing is discarded in a formula, nothing is discarded below any of its nodes. A discarded
    operand could only come of an opener behind an operand. -/
theorem NoRegroup.of_mem_walk {f : Formula NodeId} (hf : f.NoRegroup) {parent : Option NodeId}
    {node : Node} (h : node ∈ f.walk parent) : node.formula.NoRegroup := by
  refine walk_induction (P := fun node => node.formula.NoRegroup) ?_ (fun {node g} _ hnode hg => ?_) h
  · rwa [formula_outermost]
  · rw [formula_outermost]
    exact hnode.of_mem_parts hg

end Formula

/-- The number of an operand is that of its outermost node. Links therefore lead from a formula to its
    operands. -/
theorem Node.operand?_eq (node : Node) (side : Side) :
    node.operand? side = (node.formula.operand? side).map Formula.label := by
  cases side <;> rfl

end Sentential
