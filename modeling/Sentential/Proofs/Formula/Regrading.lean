import Sentential.Proofs.Formula.Closing

namespace Sentential

/-- The same node with another precedence if it is a connective. -/
def Head.mapPrecedence (m : Int → Int) : Head → Head
  | unary c => unary (c.mapPrecedence m)
  | binary c => binary (c.mapPrecedence m)
  | head => head

private theorem Token.text_mapPrecedence (m : Int → Int) (t : Token) :
    (t.mapPrecedence m).text = t.text := by
  cases t <;> rfl

namespace Formula

variable {ι : Type}

/-- Changing precedences keeps the label of the outermost node. The numbers of operands, which are
    links, stay with it. -/
theorem label_mapPrecedence (m : Int → Int) (f : Formula ι) : (f.mapPrecedence m).label = f.label := by
  cases f <;> rfl

/-- Of a node by itself, only the precedence of its connective is changed. Symbol, kind and rule of the
    connective stay. -/
theorem head_mapPrecedence (m : Int → Int) (f : Formula ι) :
    (f.mapPrecedence m).head = f.head.mapPrecedence m := by
  cases f <;> rfl

/-- Precedences have no say in values. They only decide which tree a text is read as. -/
theorem truth_mapPrecedence (m : Int → Int) (v : Valuation) (f : Formula ι) :
    (f.mapPrecedence m).truth v = f.truth v := by
  induction f with
  | leaf label p => rfl
  | unary label c operand ih => simp only [mapPrecedence, truth, ih, Connective.mapPrecedence]
  | binary label c left right ihl ihr =>
    simp only [mapPrecedence, truth, ihl, ihr, Connective.mapPrecedence]
  | group label o closed body ih => exact ih
  | regroup label o closed discarded body _ ih => exact ih

private theorem tokens_mapPrecedence (m : Int → Int) (n : Notation) (f : Formula ι) :
    (f.mapPrecedence m).tokens n = (f.tokens n).map (Token.mapPrecedence m) := by
  induction f with
  | leaf label p => cases n <;> rfl
  | unary label c operand ih => cases n <;> simp [tokens, Token.mapPrecedence, ih]
  | binary label c left right ihl ihr => cases n <;> simp [tokens, Token.mapPrecedence, ihl, ihr]
  | group label o closed body ih => cases n <;> simp [tokens, Token.mapPrecedence, ih]
  | regroup label o closed discarded body _ ih => cases n <;> simp [tokens, Token.mapPrecedence, ih]

/-- Precedences have no say in what is written, in any notation, since every group is written with its
    parentheses. -/
theorem render_mapPrecedence (m : Int → Int) (n : Notation) (f : Formula ι) :
    (f.mapPrecedence m).render n = f.render n := by
  refine String.toList_inj.1 ?_
  rw [toList_render, toList_render, tokens_mapPrecedence, List.flatMap_map]
  exact congrArg (fun text => (f.tokens n).flatMap text)
    (funext fun t => congrArg String.toList (t.text_mapPrecedence m))

/-- Precedences have no say in numbers and links. All that is known of formulas that differ in such a
    way holds of formulas with other precedences. -/
theorem keepsLinks_mapPrecedence (m : Int → Int) : KeepsLinks (mapPrecedence m) where
  label_eq := label_mapPrecedence m
  left?_eq f := by cases f <;> rfl
  right?_eq f := by cases f <;> rfl
  symbol?_eq node := by
    obtain ⟨f, parent⟩ := node
    cases f <;> rfl
  walk_eq parent f := by
    induction f generalizing parent with
    | leaf id p => rfl
    | unary id c operand ih => simp [walk, Node.over, ih]
    | binary id c left right ihl ihr => simp [walk, Node.over, ihl, ihr]
    | group id o closed body ih => simp [walk, Node.over, ih]
    | regroup id o closed discarded body ihd ih => simp [walk, Node.over, ihd, ih]

end Formula

end Sentential
