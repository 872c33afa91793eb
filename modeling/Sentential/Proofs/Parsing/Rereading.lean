import Sentential.Proofs.Formula.Closing
import Sentential.Proofs.Parsing.Grammar
import Sentential.Proofs.Parsing.Precedence

namespace Sentential

/-- A name that can be read as an identifier. -/
def Text.IsIdentifier (name : String) : Prop :=
  name.toList ≠ [] ∧ ∀ c ∈ name.toList, isIdentifierChar c = true

/-- A name that was read can be read again. It consists of identifier characters and is not empty. -/
theorem Spells.isIdentifier_name {known : Operator → Prop} {text rest : List Char} {ts : List Token}
    (h : Spells known text ts rest) {p : Proposition} (hp : .operand p ∈ ts) :
    Text.IsIdentifier p.name := by
  induction h with
  | done rest => cases hp
  | blank _ _ ih => exact ih hp
  | @token text middle rest t ts ht _ ih =>
    rcases List.mem_cons.1 hp with heq | hrest
    · cases ht with
      | @identifier name rest hname hrun hend =>
        obtain rfl := Token.operand.inj heq
        rw [Text.IsIdentifier, Proposition.name_ofIdentifier, String.toList_ofList]
        exact ⟨hname, hrun⟩
      | @symbol op _ _ rest => cases op <;> cases heq
      | closer rest => cases heq
    · exact ih hrest

namespace Registry

variable {r : Registry}

/-- No operator fuses with an identifier in front of it. -/
private theorem Plain.isIdentifierChar_of_offers (hplain : r.Plain) {t : Token}
    (ht : r.Offers .operator t) (rest : List Char) :
    ∀ c ∈ (t.text.toList ++ rest).head?, Text.isIdentifierChar c = false := by
  have hknown : ∀ op, r.Knows op → ∀ c ∈ (op.symbol.toList ++ rest).head?,
      Text.isIdentifierChar c = false := by
    intro op hop c hc
    obtain ⟨first, hfirst, -, hidentifier, -⟩ := hplain op hop
    rw [hfirst] at hc
    obtain rfl := Option.some.inj hc
    exact hidentifier
  cases ht with
  | closer =>
    intro c hc
    obtain rfl := Option.some.inj hc
    rfl
  | @binary c hc => exact hknown (.connective c) (.inr hc)
  | @regroup o ho => exact hknown (.opener o) (.inr ho)

/-- Tokens written without blanks are read back one by one. No two of them fuse, since symbols are
    single characters that stand for nothing else. -/
theorem Leads.spells (hplain : r.Plain) {expected last : Expectation} {ts : List Token}
    (h : r.Leads expected ts last)
    (hnames : ∀ p, .operand p ∈ ts → Text.IsIdentifier p.name) :
    Spells r.Knows (ts.flatMap fun t => t.text.toList) ts [] := by
  have hsymbol : ∀ op, r.Knows op → ∀ rest,
      op.token.Begins r.Knows (op.symbol.toList ++ rest) rest :=
    fun op hop rest => .symbol hop (hplain.symbol_ne_empty hop) rest
  induction h with
  | nil expected => exact .done []
  | @cons expected last t rest ht hrest ih =>
    have hspells := ih fun p hp => hnames p (List.mem_cons_of_mem _ hp)
    rw [List.flatMap_cons]
    refine .token ?_ hspells
    cases ht with
    | operand name =>
      obtain ⟨hname, hrun⟩ := hnames _ List.mem_cons_self
      rw [Proposition.name_ofIdentifier] at hname hrun
      have hend : ∀ c ∈ (rest.flatMap fun t => t.text.toList).head?,
          Text.isIdentifierChar c = false := by
        cases hrest with
        | nil expected => exact fun c hc => by cases hc
        | cons hoffers _ => exact hplain.isIdentifierChar_of_offers hoffers _
      have hbegins : Token.Begins r.Knows _ _ _ := .identifier hname hrun hend
      rw [String.ofList_toList] at hbegins
      rwa [Token.text, Proposition.name_ofIdentifier]
    | @unary c hc => exact hsymbol (.connective c) (.inl hc) _
    | @opener o ho => exact hsymbol (.opener o) (.inl ho) _
    | closer => exact .closer _
    | @binary c hc => exact hsymbol (.connective c) (.inr hc) _
    | @regroup o ho => exact hsymbol (.opener o) (.inr ho) _

end Registry

private theorem Formula.over_closeAll {ι : Type} {r : Registry} {f : Formula ι} :
    f.closeAll.Over r ↔ f.Over r := by
  induction f with
  | leaf label p => rfl
  | unary label c operand ih => simp only [closeAll, Over, ih]
  | binary label c left right ihl ihr => simp only [closeAll, Over, ihl, ihr]
  | group label o closed body ih => simp only [closeAll, Over, ih]
  | regroup label o closed discarded body ihd ih => simp only [closeAll, Over, ihd, ih]

/-- A formula that a text is read as, whatever its labels: the text spells its tokens, its operators
    are known, and it groups them as they ask for. -/
structure Formula.Written {ι : Type} (r : Registry) (f : Formula ι) (text : List Char) : Prop where
  spells : Spells r.Knows text f.sourceTokens []
  known : f.Over r
  respectsPrecedence : f.RespectsPrecedence

namespace Formula.Written

variable {M : Type → Type} [PrefixMap M] [LawfulPrefixMap M] {r : Registry} {text : List Char}

/-- What was read from a text is written by it. Reading again is thus a case of reading what was
    written. -/
theorem of_parseWith (hr : r.Validated) {p : Parsed}
    (h : parseWith (Dialect.ofRegistry r : Dialect M) text = .ok p) : p.formula.Written r text := by
  obtain ⟨hspells, hleads⟩ := reads_of_parseWith hr.sound h
  exact ⟨hspells, Formula.over_of_leads_sourceTokens hleads,
    respectsPrecedence_of_parseWith (Dialect.sound_ofRegistry hr) h⟩

/-- A text that is written for a formula is read as that formula, whatever way of writing was chosen. It
    numbers the nodes in reading order. -/
theorem parseWith_eq {ι : Type} {f : Formula ι} (hplain : r.Plain) (hr : r.Sound)
    (h : f.Written r text) :
    parseWith (Dialect.ofRegistry r : Dialect M) text = .ok (Parsed.ofFormula f.numbered) := by
  have hleads := h.known.leads_sourceTokens
  obtain ⟨last, operand, htaken, hdue, hcomplete⟩ := Assembly.exists_takeAll?_start
    h.respectsPrecedence fun c hc => (hr.orderly_of_leads hleads).openPrecedence_lt hc
  rw [← hcomplete]
  exact parseWith_of_spells hplain hr h.spells hleads htaken hdue

end Formula.Written

/-- The rendering of what was read is read as the same formula with all groups closed. Only the registry
    is asked to have symbols of one character. -/
theorem parseWith_render {M : Type → Type} [PrefixMap M] [LawfulPrefixMap M] {r : Registry}
    (hplain : r.Plain) (hr : r.Validated) {text : List Char} {p : Parsed}
    (h : parseWith (Dialect.ofRegistry r : Dialect M) text = .ok p) :
    parseWith (Dialect.ofRegistry r : Dialect M) (p.formula.render .algebraic).toList =
      .ok (Parsed.ofFormula p.formula.closeAll) := by
  obtain ⟨hspells, hknown, hrespects⟩ := Formula.Written.of_parseWith hr h
  have hover : p.formula.closeAll.Over r := Formula.over_closeAll.2 hknown
  have hnames : ∀ q, .operand q ∈ p.formula.closeAll.sourceTokens → Text.IsIdentifier q.name :=
    fun q hq => hspells.isIdentifier_name
      ((Formula.mem_sourceTokens_closeAll Token.noConfusion).1 hq)
  have hrendered := hover.leads_sourceTokens.spells hplain hnames
  -- The closed tree respects precedence too, so its tokens are put together to it again.
  have hwritten : p.formula.closeAll.Written r (p.formula.render .algebraic).toList := by
    rw [Formula.toList_render, ← hrespects.noRegroup.sourceTokens_closeAll]
    exact ⟨hrendered, hover, hrespects.closeAll⟩
  have hnumbered : p.formula.closeAll.numbered = p.formula.closeAll := by
    rw [Formula.numbered_closeAll,
      numbered_eq_of_parseWith (Dialect.sound_ofRegistry hr) h hrespects rfl]
  have hparse := hwritten.parseWith_eq (M := M) hplain hr.sound
  rwa [hnumbered] at hparse

/-- The same node with the same links, closed if it is a group. -/
structure Node.ComesBackAs (node other : Node) : Prop where
  head_eq : other.formula.head = node.formula.head.close
  left_eq : other.left = node.left
  right_eq : other.right = node.right
  parent_eq : other.parent = node.parent

private theorem Node.comesBackAs_closeAll (node : Node) : node.ComesBackAs node.closeAll :=
  ⟨node.formula.head_closeAll, Formula.keepsLinks_closeAll.left_over node,
    Formula.keepsLinks_closeAll.right_over node, rfl⟩

/-- How a formula comes back when its rendering is read: with the same nodes and names at the same
    numbers, where all groups are closed. -/
structure Parsed.ComesBackAs (p q : Parsed) : Prop where
  size_eq : q.nodes.size = p.nodes.size
  root_eq : q.root = p.root
  nodes : ∀ (id : NodeId) (node : Node), p.nodes[id]? = some node →
    ∃ other, q.nodes[id]? = some other ∧ node.ComesBackAs other
  symbols_eq : q.symbols = p.symbols
  render_eq : ∀ n, q.formula.render n = p.formula.render n
  evaluate_eq : ∀ v, q.formula.evaluate v = p.formula.evaluate v

private theorem Parsed.comesBackAs_closeAll (p : Parsed) :
    p.ComesBackAs (Parsed.ofFormula p.formula.closeAll) := by
  obtain ⟨f, nodes, symbols, rfl, rfl⟩ := p
  have hlinks := Formula.keepsLinks_closeAll
  have hevaluate : ∀ v, f.closeAll.evaluate v = f.evaluate v := by
    intro v
    rw [Formula.evaluate_eq_truth, Formula.evaluate_eq_truth, Formula.truth_closeAll]
  exact {
    size_eq := hlinks.size_nodes f
    root_eq := f.label_closeAll
    nodes := fun id node hfound => ⟨_, hlinks.getElem?_nodes hfound, node.comesBackAs_closeAll⟩
    symbols_eq := hlinks.ofNodes_eq f
    render_eq := fun n => f.render_closeAll n
    evaluate_eq := hevaluate }

/-- What was read from a text comes back when its algebraic rendering is read: with the same nodes,
    links and names at the same numbers, the same renderings in all notations and the same values. All
    its groups are closed then. -/
theorem exists_parse_render {text : List Char} {p : Parsed} (h : parse text = .ok p) :
    ∃ q, parse (p.formula.render .algebraic).toList = .ok q ∧ p.ComesBackAs q :=
  ⟨_, parseWith_render Registry.plain_standard .standard h, p.comesBackAs_closeAll⟩

/-- The group that was left open comes back closed, and nothing else is different. -/
theorem exists_parse_render_openAtRight :
    parse "a|!b&(c".toList = .ok (Parsed.ofFormula Formula.openAtRight.numbered) ∧
      Formula.openAtRight.numbered.render .algebraic = "a|!b&(c)" ∧
        ∃ q, parse "a|!b&(c)".toList = .ok q ∧
          (Parsed.ofFormula Formula.openAtRight.numbered).ComesBackAs q := by
  have hrender : (Parsed.ofFormula Formula.openAtRight.numbered).formula.render .algebraic =
      "a|!b&(c)" := by
    decide +kernel
  have hback := exists_parse_render parseWith_openAtRight
  rw [hrender] at hback
  exact ⟨parseWith_openAtRight, hrender, hback⟩

end Sentential
