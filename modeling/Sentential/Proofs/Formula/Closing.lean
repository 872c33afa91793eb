import Sentential.Formula.Evaluation
import Sentential.Proofs.Formula.Nodes
import Sentential.Proofs.Formula.Precedence

namespace Sentential

/-- What a node is by itself, without the formulas below it. -/
inductive Head where
  | leaf (proposition : Proposition)
  | unary (connective : Connective)
  | binary (connective : Connective)
  | group (opener : Opener) (closed : Bool)
  | regroup (opener : Opener) (closed : Bool)
  deriving DecidableEq, Repr

/-- The same node, closed if it is a group. -/
def Head.close : Head → Head
  | group o _ => group o true
  | regroup o _ => regroup o true
  | head => head

namespace Formula

variable {ι : Type}

/-- The outermost node by itself. -/
def head : Formula ι → Head
  | leaf _ p => .leaf p
  | unary _ c _ => .unary c
  | binary _ c _ _ => .binary c
  | group _ o closed _ => .group o closed
  | regroup _ o closed _ _ => .regroup o closed

/-- The formula with all groups closed. -/
@[simp] def closeAll : Formula ι → Formula ι
  | leaf label p => leaf label p
  | unary label c operand => unary label c operand.closeAll
  | binary label c left right => binary label c left.closeAll right.closeAll
  | group label o _ body => group label o true body.closeAll
  | regroup label o _ discarded body => regroup label o true discarded.closeAll body.closeAll

/-- Closing groups keeps the label of the outermost node. -/
@[simp] theorem label_closeAll (f : Formula ι) : f.closeAll.label = f.label := by
  cases f <;> rfl

/-- Only groups are changed, and only in that they are closed. Connectives, propositions and openers
    stay. -/
theorem head_closeAll (f : Formula ι) : f.closeAll.head = f.head.close := by
  cases f <;> rfl

private theorem left?_closeAll (f : Formula ι) : f.closeAll.left? = f.left?.map closeAll := by
  cases f <;> rfl

private theorem right?_closeAll (f : Formula ι) : f.closeAll.right? = f.right?.map closeAll := by
  cases f <;> rfl

private theorem allClosed_closeAll (f : Formula ι) : f.closeAll.AllClosed := by
  induction f with
  | leaf label p => trivial
  | unary label c operand ih => exact ih
  | binary label c left right ihl ihr => exact ⟨ihl, ihr⟩
  | group label o closed body ih => exact ⟨rfl, ih⟩
  | regroup label o closed discarded body ihd ih => exact ⟨rfl, ihd, ih⟩

/-- Whether a group is closed makes no difference to the truth value. The value of a group is that of
    its body. -/
theorem truth_closeAll (v : Valuation) (f : Formula ι) : f.closeAll.truth v = f.truth v := by
  induction f with
  | leaf label p => rfl
  | unary label c operand ih => simp only [closeAll, truth, ih]
  | binary label c left right ihl ihr => simp only [closeAll, truth, ihl, ihr]
  | group label o closed body ih => exact ih
  | regroup label o closed discarded body _ ih => exact ih

private theorem rightPrecedences_closeAll (f : Formula ι) :
    f.closeAll.rightPrecedences = f.rightPrecedences := by
  induction f with
  | unary label c operand ih => simp only [closeAll, rightPrecedences, ih]
  | binary label c left right _ ih => simp only [closeAll, rightPrecedences, ih]
  | _ => rfl

private theorem leftPrecedences_closeAll (f : Formula ι) :
    f.closeAll.leftPrecedences = f.leftPrecedences := by
  induction f with
  | binary label c left right ih _ => simp only [closeAll, leftPrecedences, ih]
  | _ => rfl

private theorem leftBound_closeAll {f : Formula ι} : f.closeAll.LeftBound ↔ f.LeftBound := by
  induction f with
  | leaf label p => rfl
  | unary label c operand ih => exact ih
  | binary label c left right ihl ihr =>
    simp only [closeAll, LeftBound, rightPrecedences_closeAll, ihl, ihr]
  | group label o closed body ih => exact ih
  | regroup label o closed discarded body ihd ih => simp only [closeAll, LeftBound, ihd, ih]

private theorem rightBound_closeAll {f : Formula ι} : f.closeAll.RightBound ↔ f.RightBound := by
  induction f with
  | leaf label p => rfl
  | unary label c operand ih => simp only [closeAll, RightBound, leftPrecedences_closeAll, ih]
  | binary label c left right ihl ihr =>
    simp only [closeAll, RightBound, leftPrecedences_closeAll, ihl, ihr]
  | group label o closed body ih => exact ih
  | regroup label o closed discarded body ihd ih => simp only [closeAll, RightBound, ihd, ih]

private theorem noRegroup_closeAll {f : Formula ι} : f.closeAll.NoRegroup ↔ f.NoRegroup := by
  induction f with
  | leaf label p => rfl
  | unary label c operand ih => exact ih
  | binary label c left right ihl ihr => simp only [closeAll, NoRegroup, ihl, ihr]
  | group label o closed body ih => exact ih
  | regroup label o closed discarded body _ _ => rfl

/-- Closing groups leaves everything where it is, so no operator comes to stand below another that it
    may not stand below. A closed group lets more stand around it and not less. -/
theorem RespectsPrecedence.closeAll {f : Formula ι} (h : f.RespectsPrecedence) :
    f.closeAll.RespectsPrecedence where
  leftBound := leftBound_closeAll.2 h.leftBound
  rightBound := rightBound_closeAll.2 h.rightBound
  openAtEnd := (allClosed_closeAll f).openAtEnd
  noRegroup := noRegroup_closeAll.2 h.noRegroup

/-- Groups are numbered alike, closed or not. The numbering that is left for what follows is the same,
    too. -/
theorem number_closeAll (numbering : Numbering) (f : Formula ι) :
    f.closeAll.number numbering = ((f.number numbering).1.closeAll, (f.number numbering).2) := by
  induction f generalizing numbering with
  | leaf label p => rfl
  | unary label c operand ih => simp only [closeAll, number, ih]
  | binary label c left right ihl ihr => simp only [closeAll, number, ihl, ihr]
  | group label o closed body ih => simp only [closeAll, number, ih]
  | regroup label o closed discarded body ihd ih => simp only [closeAll, number, ihd, ih]

/-- Numbering a formula and closing its groups may be done in either order. The numbers of a formula
    that is read back are the old ones for this reason. -/
theorem numbered_closeAll (f : Formula ι) : f.closeAll.numbered = f.numbered.closeAll :=
  congrArg Prod.fst (number_closeAll Numbering.empty f)

/-- Every group is written closed, also one that is open in the formula. The renderings of a formula and
    of its closure therefore agree in all notations. -/
theorem tokens_closeAll (n : Notation) (f : Formula ι) : f.closeAll.tokens n = f.tokens n := by
  induction f with
  | leaf label p => rfl
  | unary label c operand ih => cases n <;> simp only [closeAll, tokens, ih]
  | binary label c left right ihl ihr => cases n <;> simp only [closeAll, tokens, ihl, ihr]
  | group label o closed body ih => cases n <;> simp only [closeAll, tokens, ih]
  | regroup label o closed discarded body _ ih => cases n <;> simp only [closeAll, tokens, ih]

/-- What is written in algebraic notation is a text of the formula with all groups closed. A formula
    without discarded operands is needed, since these are not written. -/
theorem NoRegroup.sourceTokens_closeAll {f : Formula ι} (h : f.NoRegroup) :
    f.closeAll.sourceTokens = f.tokens .algebraic := by
  induction f with
  | leaf label p => rfl
  | unary label c operand ih => simp only [closeAll, sourceTokens, tokens, ih h]
  | binary label c left right ihl ihr => simp only [closeAll, sourceTokens, tokens, ihl h.1, ihr h.2]
  | group label o closed body ih => simp only [closeAll, sourceTokens, tokens, ih h, closing, if_true]
  | regroup label o closed discarded body _ _ => exact h.elim

/-- No other token than a right parenthesis is added, and none is taken away. Operands and operators are
    thus the same in both. -/
theorem mem_sourceTokens_closeAll {f : Formula ι} {t : Token} (ht : t ≠ .closer) :
    t ∈ f.closeAll.sourceTokens ↔ t ∈ f.sourceTokens := by
  have hclosing : ∀ closed, t ∉ closing closed := by
    intro closed hmem
    cases closed with
    | true => exact ht (List.mem_singleton.1 hmem)
    | false => cases hmem
  induction f with
  | leaf label p => rfl
  | unary label c operand ih => simp only [closeAll, sourceTokens, List.mem_cons, ih]
  | binary label c left right ihl ihr =>
    simp only [closeAll, sourceTokens, List.mem_append, List.mem_cons, ihl, ihr]
  | group label o closed body ih =>
    simp only [closeAll, sourceTokens, List.mem_append, List.mem_cons, ih, hclosing]
  | regroup label o closed discarded body ihd ih =>
    simp only [closeAll, sourceTokens, List.mem_append, List.mem_cons, ihd, ih, hclosing]

/-- The tokens of a piece. -/
def Piece.tokens (n : Notation) : Piece ι → List Token
  | token t => [t]
  | formula f => f.tokens n

/-- The pieces of a formula, taken one after the other, are its tokens. It says of one step of writing
    what `toList_write` says of all. -/
theorem flatMap_tokens_pieces (n : Notation) (f : Formula ι) :
    (f.pieces n).flatMap (Piece.tokens n) = f.tokens n := by
  cases n <;> cases f <;> simp [pieces, Piece.tokens, Formula.tokens]

/-- Writing puts the texts of all pending pieces behind what is there already. The output is only ever
    appended to. -/
theorem toList_write (n : Notation) (pending : List (Piece ι)) (out : String) :
    (write n pending out).toList =
      out.toList ++ (pending.flatMap (Piece.tokens n)).flatMap fun t => t.text.toList := by
  induction pending, out using write.induct (n := n) with
  | case1 out => simp [write]
  | case2 out t rest ih => simp [write, ih, Piece.tokens]
  | case3 out f rest ih =>
    rw [write, ih, List.flatMap_append, flatMap_tokens_pieces]
    rfl

/-- A rendering consists of the texts of the tokens, one after the other and with nothing between them.
    All that is said of renderings goes by it. -/
theorem toList_render (n : Notation) (f : Formula ι) :
    (f.render n).toList = (f.tokens n).flatMap fun t => t.text.toList := by
  rw [render, renderOnto, toList_write]
  simp [Piece.tokens]

/-- A formula and its closure are rendered alike, since every group is written closed. -/
theorem render_closeAll (n : Notation) (f : Formula ι) : f.closeAll.render n = f.render n :=
  String.toList_inj.1 (by rw [toList_render, toList_render, tokens_closeAll])

end Formula

/-- The node with all groups of its formula closed. -/
def Node.closeAll (node : Node) : Node :=
  ⟨node.formula.closeAll, node.parent⟩

/-- Closing groups changes no number and adds no node. All that is known of formulas that differ in such
    a way holds of a formula and its closure. -/
theorem Formula.keepsLinks_closeAll : KeepsLinks closeAll where
  label_eq := label_closeAll
  left?_eq := left?_closeAll
  right?_eq := right?_closeAll
  symbol?_eq node := by
    obtain ⟨f, parent⟩ := node
    cases f <;> rfl
  walk_eq parent f := by
    induction f generalizing parent with
    | leaf id p => rfl
    | unary id c operand ih => simp [walk, Node.over, ih]
    | binary id c left right ihl ihr => simp [walk, Node.over, ihl, ihr]
    | group id o closed body ih => simp [walk, Node.over, ih]
    | regroup id o closed discarded body ihd ih => simp [walk, Node.over, ihd, ih]

end Sentential
