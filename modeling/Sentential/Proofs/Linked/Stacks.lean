import Sentential.Proofs.Formula.Links
import Sentential.Proofs.Linked.Tree

namespace Sentential

namespace Formula

variable {ι : Type}

private theorem write_append (n : Notation) (pending rest : List (Piece ι)) (out : String) :
    write n (pending ++ rest) out = write n rest (write n pending out) := by
  induction pending, out using write.induct (n := n) with
  | case1 out => rw [List.nil_append, write]
  | case2 out t pending ih => rw [List.cons_append, write, write, ih]
  | case3 out f pending ih => rw [List.cons_append, write, write, ← List.append_assoc, ih]

/-- The formulas that are written as a whole are parts. Writing therefore goes down along links. -/
theorem mem_parts_of_mem_pieces {n : Notation} {f g : Formula ι} (h : Piece.formula g ∈ f.pieces n) :
    g ∈ f.parts := by
  cases n <;> cases f <;> grind [pieces, parts]

/-- The truth value where every leaf has a value of its own. -/
def truthAt (value : NodeId → Proposition → Bool) : Formula NodeId → Bool
  | leaf id p => value id p
  | unary _ c operand => c.rule.apply none (operand.truthAt value)
  | binary _ c left right => c.rule.apply (some (left.truthAt value)) (right.truthAt value)
  | group _ _ _ body => body.truthAt value
  | regroup _ _ _ _ body => body.truthAt value

/-- Leaves that have the values of their propositions make no difference to the truth value. Only the
    leaves that are walked through are asked. -/
theorem truthAt_eq_truth {value : NodeId → Proposition → Bool} {v : Valuation} {f : Formula NodeId}
    {parent : Option NodeId}
    (h : ∀ id p, (⟨leaf id p, none⟩ : Node) ∈ f.walk parent → value id p = p.value v) :
    f.truthAt value = f.truth v := by
  induction f generalizing parent with
  | leaf id p => exact h id p (List.mem_singleton_self _)
  | unary id c operand ih =>
    have hoperand := ih fun id p hmem => h id p (List.mem_cons_of_mem _ hmem)
    rw [truthAt, truth, hoperand]
  | binary id c left right ihl ihr =>
    have hleft := ihl fun id p hmem => h id p (List.mem_append_left _ hmem)
    have hright := ihr fun id p hmem =>
      h id p (List.mem_append_right _ (List.mem_cons_of_mem _ hmem))
    rw [truthAt, truth, hleft, hright]
  | group id o closed body ih => exact ih fun id p hmem => h id p (List.mem_cons_of_mem _ hmem)
  | regroup id o closed discarded body _ ih =>
    exact ih fun id p hmem => h id p (List.mem_append_right _ (List.mem_cons_of_mem _ hmem))

end Formula

namespace Linked

/-- A piece of a formula on the stack of a rendering. -/
def Task.ofPiece : Formula.Piece NodeId → Task
  | .token t => emit t.text
  | .formula f => visit f.label

/-- A group has the value of its body. It takes two rounds more: one to put the body on the stack and
    one to pass its value on. -/
theorem evaluate_group {vertices : Array Vertex} {price : NodeId → Connective → Nat}
    {value : NodeId → Proposition → Bool} {id : NodeId} {o : Opener} {closed : Bool}
    {body : Formula NodeId} {parent : Option NodeId} {k : Nat}
    (hnode : vertices[id]? = some (.group o closed body.label parent))
    (hk : ∀ more pending values spent,
      evaluate vertices price value (more + k) ((body.label, false) :: pending) values spent =
        evaluate vertices price value more pending (body.truthAt value :: values) (spent + body.cost price))
    (more : Nat) (pending : List (NodeId × Bool)) (values : List Bool) (spent : Nat) :
    evaluate vertices price value (more + (k + 2)) ((id, false) :: pending) values spent =
      evaluate vertices price value more pending (body.truthAt value :: values)
        (spent + body.cost price) := by
  calc evaluate vertices price value (more + (k + 1) + 1) ((id, false) :: pending) values spent
      = evaluate vertices price value (more + 1 + k) ((body.label, false) :: (id, true) :: pending)
          values spent := by
        simp only [evaluate, hnode, Vertex.operands, List.map, List.singleton_append, Nat.add_assoc,
          Nat.add_comm k]
    _ = evaluate vertices price value (more + 1) ((id, true) :: pending) (body.truthAt value :: values)
          (spent + body.cost price) := hk _ _ _ _
    _ = evaluate vertices price value more pending (body.truthAt value :: values)
          (spent + body.cost price) := by simp only [evaluate, hnode]

/-- All nodes of a formula stand at their numbers. -/
def Shows (vertices : Array Vertex) (parent : Option NodeId) (f : Formula NodeId) : Prop :=
  ∀ node ∈ f.walk parent, vertices[node.formula.label]? = some (Vertex.ofNode node)

namespace Shows

variable {vertices : Array Vertex} {parent : Option NodeId} {f : Formula NodeId}

/-- The outermost node of a formula stands at its number. Each walk begins with looking there. -/
theorem getElem?_label (h : Shows vertices parent f) :
    vertices[f.label]? = some (Vertex.ofNode (f.outermost parent)) := by
  have hfound := h _ (f.outermost_mem_walk parent)
  rwa [Formula.formula_outermost] at hfound

/-- Where the nodes of a formula stand at their numbers, those of its parts do. The inductions on
    formulas go down with it. -/
theorem part (h : Shows vertices parent f) {g : Formula NodeId} (hg : g ∈ f.parts) :
    Shows vertices (some f.label) g :=
  fun node hnode => h node ((Formula.walk_sublist_of_mem_parts hg parent).subset hnode)

/-- Evaluating a node on the stacks takes it off the one and puts its truth value on the other. What is
    below on both stacks is left alone, and the rounds are at most twice the size of the formula. -/
theorem exists_evaluate (h : Shows vertices parent f) (price : NodeId → Connective → Nat)
    (value : NodeId → Proposition → Bool) :
    ∃ rounds, rounds ≤ 2 * f.size ∧ ∀ more pending values spent,
      evaluate vertices price value (more + rounds) ((f.label, false) :: pending) values spent =
        evaluate vertices price value more pending (f.truthAt value :: values) (spent + f.cost price) := by
  induction f generalizing parent with
  | leaf id p =>
    have hnode : vertices[id]? = some (.leaf p) := h.getElem?_label
    refine ⟨1, by simp [Formula.size], fun more pending values spent => ?_⟩
    simp only [evaluate, Formula.label, hnode]
    rfl
  | unary id c operand ih =>
    obtain ⟨k, hle, hk⟩ := ih (h.part (List.mem_singleton_self operand))
    have hnode : vertices[id]? = some (.unary c operand.label parent) := h.getElem?_label
    refine ⟨k + 2, by simp only [Formula.size]; omega, fun more pending values spent => ?_⟩
    calc evaluate vertices price value (more + (k + 1) + 1) ((id, false) :: pending) values spent
        = evaluate vertices price value (more + 1 + k)
            ((operand.label, false) :: (id, true) :: pending) values spent := by
          simp only [evaluate, hnode, Vertex.operands, List.map, List.singleton_append, Nat.add_assoc,
            Nat.add_comm k]
      _ = evaluate vertices price value (more + 1) ((id, true) :: pending)
            (operand.truthAt value :: values) (spent + operand.cost price) := hk _ _ _ _
      _ = evaluate vertices price value more pending (c.rule.apply none (operand.truthAt value) :: values)
            (spent + (operand.cost price + price id c)) := by
          simp only [evaluate, hnode, Nat.add_assoc]
  | binary id c left right ihl ihr =>
    obtain ⟨k, hkle, hk⟩ := ihl (h.part List.mem_cons_self)
    obtain ⟨l, hlle, hl⟩ :=
      ihr (h.part (List.mem_cons_of_mem _ (List.mem_singleton_self right)))
    have hnode : vertices[id]? = some (.binary c left.label right.label parent) := h.getElem?_label
    refine ⟨l + k + 2, by simp only [Formula.size]; omega, fun more pending values spent => ?_⟩
    calc evaluate vertices price value (more + (l + k + 1) + 1) ((id, false) :: pending) values spent
        = evaluate vertices price value (more + 1 + l + k)
            ((left.label, false) :: (right.label, false) :: (id, true) :: pending) values spent := by
          have hrounds : more + (l + k + 1) = more + 1 + l + k := by omega
          simp only [evaluate, hnode, Vertex.operands, List.map, List.cons_append, List.nil_append,
            hrounds]
      _ = evaluate vertices price value (more + 1 + l) ((right.label, false) :: (id, true) :: pending)
            (left.truthAt value :: values) (spent + left.cost price) := hk _ _ _ _
      _ = evaluate vertices price value (more + 1) ((id, true) :: pending)
            (right.truthAt value :: left.truthAt value :: values)
            (spent + left.cost price + right.cost price) := hl _ _ _ _
      _ = evaluate vertices price value more pending
            (c.rule.apply (some (left.truthAt value)) (right.truthAt value) :: values)
            (spent + (left.cost price + right.cost price + price id c)) := by
          simp only [evaluate, hnode, Nat.add_assoc]
  | group id o closed body ih =>
    obtain ⟨k, hle, hk⟩ := ih (h.part (List.mem_singleton_self body))
    have hnode : vertices[id]? = some (.group o closed body.label parent) := h.getElem?_label
    exact ⟨k + 2, by simp only [Formula.size]; omega,
      fun more pending values spent => evaluate_group hnode hk more pending values spent⟩
  | regroup id o closed discarded body _ ih =>
    obtain ⟨k, hle, hk⟩ := ih (h.part (List.mem_cons_of_mem _ (List.mem_singleton_self body)))
    have hnode : vertices[id]? = some (.group o closed body.label parent) := h.getElem?_label
    exact ⟨k + 2, by simp only [Formula.size]; omega,
      fun more pending values spent => evaluate_group hnode hk more pending values spent⟩

/-- What is still to be written of a node are the pieces of its formula, with numbers in place of
    formulas. -/
private theorem tasks_ofNode_outermost (n : Notation) (f : Formula NodeId) (parent : Option NodeId) :
    (Vertex.ofNode (f.outermost parent)).tasks n = (f.pieces n).map Task.ofPiece := by
  cases n <;> cases f <;> rfl

/-- A list of pieces is written if each formula in it is. This is the part of writing that does not
    depend on the notation. -/
theorem exists_render_pieces {vertices : Array Vertex} {n : Notation}
    {pieces : List (Formula.Piece NodeId)}
    (h : ∀ g, Formula.Piece.formula g ∈ pieces → ∃ rounds, rounds ≤ 3 * g.size ∧
      ∀ more pending out, render vertices n (more + rounds) (.visit g.label :: pending) out =
        render vertices n more pending (g.renderOnto out n)) :
    ∃ rounds, rounds ≤ Formula.Piece.listWork pieces ∧ ∀ more pending out,
      render vertices n (more + rounds) (pieces.map Task.ofPiece ++ pending) out =
        render vertices n more pending (Formula.write n pieces out) := by
  induction pieces with
  | nil => exact ⟨0, Nat.le_refl _, fun more pending out => by rw [Formula.write]; rfl⟩
  | cons piece rest ih =>
    obtain ⟨k, hkle, hk⟩ := ih fun g hg => h g (List.mem_cons_of_mem _ hg)
    cases piece with
    | token t =>
      refine ⟨k + 1, ?_, fun more pending out => ?_⟩
      · simp only [Formula.Piece.listWork, Formula.Piece.work]
        omega
      · rw [Formula.write, ← hk]
        rfl
    | formula g =>
      obtain ⟨l, hlle, hl⟩ := h g List.mem_cons_self
      refine ⟨k + l, ?_, fun more pending out => ?_⟩
      · simp only [Formula.Piece.listWork, Formula.Piece.work]
        omega
      · have hwrite : Formula.write n (.formula g :: rest) out =
            Formula.write n rest (g.renderOnto out n) := Formula.write_append n [.formula g] rest out
        rw [hwrite, ← hk, ← hl, Nat.add_assoc]
        rfl

/-- Rendering a node takes it off the stack and puts its text behind what was written before. The rounds
    are at most three times the size of the formula. -/
theorem exists_render (h : Shows vertices parent f) (n : Notation) :
    ∃ rounds, rounds ≤ 3 * f.size ∧ ∀ more pending out,
      render vertices n (more + rounds) (.visit f.label :: pending) out =
        render vertices n more pending (f.renderOnto out n) := by
  generalize hsize : f.size = size
  induction size using Nat.strongRecOn generalizing f parent with
  | ind size ih =>
    obtain ⟨k, hle, hk⟩ := exists_render_pieces fun g (hg : Formula.Piece.formula g ∈ f.pieces n) =>
        have hpart := Formula.mem_parts_of_mem_pieces hg
        ih g.size (hsize ▸ Formula.size_lt_of_mem_parts hpart) (h.part hpart) rfl
    have hwork := Formula.Piece.listWork_pieces_lt n f
    refine ⟨k + 1, by omega, fun more pending out => ?_⟩
    have hwrite : f.renderOnto out n = Formula.write n (f.pieces n) out := by
      rw [Formula.renderOnto, Formula.write, List.append_nil]
    calc render vertices n (more + k + 1) (.visit f.label :: pending) out
        = render vertices n (more + k) ((f.pieces n).map Task.ofPiece ++ pending) out := by
          simp only [render, h.getElem?_label, tasks_ofNode_outermost]
      _ = render vertices n more pending (f.renderOnto out n) := by rw [hk, hwrite]

end Shows

end Linked

end Sentential
