import Sentential.Proofs.Parsing.Rereading

namespace Sentential

instance (name : String) : Decidable (Text.IsIdentifier name) :=
  inferInstanceAs (Decidable (_ ∧ _))

namespace Formula

variable {ι : Type}

/-- The strings that writing the pieces appends, one after the other. -/
def emit (n : Notation) : List (Piece ι) → List String
  | [] => []
  | .token t :: rest => t.text :: emit n rest
  | .formula f :: rest => emit n (f.pieces n ++ rest)
termination_by pending => Piece.listWork pending
decreasing_by
  · simp only [Piece.listWork, Piece.work]
    omega
  · have := Piece.listWork_pieces_lt n f
    simp only [Piece.listWork_append, Piece.listWork, Piece.work]
    omega

private theorem write_eq_foldl_emit (n : Notation) (pending : List (Piece ι)) (out : String) :
    write n pending out = (emit n pending).foldl (· ++ ·) out := by
  induction pending, out using write.induct (n := n) with
  | case1 out => rw [write, emit, List.foldl_nil]
  | case2 out t rest ih => rw [write, emit, List.foldl_cons, ih]
  | case3 out f rest ih => rw [write, emit, ih]

private theorem emit_eq (n : Notation) (pending : List (Piece ι)) :
    emit n pending = (pending.flatMap (Piece.tokens n)).map Token.text := by
  induction pending using emit.induct (n := n) with
  | case1 => rw [emit]; rfl
  | case2 t rest ih => rw [emit, ih]; rfl
  | case3 f rest ih =>
    rw [emit, ih, List.flatMap_append, flatMap_tokens_pieces]
    rfl

/-- The symbols and names that writing the formula appends. -/
def emitted (n : Notation) (f : Formula ι) : List String :=
  emit n [.formula f]

private theorem emitted_eq (n : Notation) (f : Formula ι) :
    f.emitted n = (f.tokens n).map Token.text := by
  rw [emitted, emit_eq, List.flatMap_singleton, Piece.tokens]

private theorem renderOnto_eq_foldl_emitted (out : String) (n : Notation) (f : Formula ι) :
    f.renderOnto out n = (f.emitted n).foldl (· ++ ·) out :=
  write_eq_foldl_emit n [.formula f] out

/-- The formula without its groups, and without labels. -/
def bare : Formula ι → Formula Unit
  | leaf _ p => leaf () p
  | unary _ c operand => unary () c operand.bare
  | binary _ c left right => binary () c left.bare right.bare
  | group _ _ _ body => body.bare
  | regroup _ _ _ _ body => body.bare

/-- Groups are not written outside the algebraic notation. -/
private theorem tokens_bare {n : Notation} (hn : n ≠ .algebraic) (f : Formula ι) :
    f.bare.tokens n = f.tokens n := by
  induction f with
  | leaf label p => cases n <;> rfl
  | unary label c operand ih => cases n <;> simp only [bare, tokens, ih]
  | binary label c left right ihl ihr => cases n <;> simp only [bare, tokens, ihl, ihr]
  | group label o closed body ih | regroup label o closed discarded body _ ih =>
    cases n with
    | algebraic => exact absurd rfl hn
    | polish => exact ih
    | reversePolish => exact ih

private theorem emitted_bare {n : Notation} (hn : n ≠ .algebraic) (f : Formula ι) :
    f.bare.emitted n = f.emitted n := by
  rw [emitted_eq, emitted_eq, tokens_bare hn]

end Formula

/-- What a decoder makes of a name, and of an operator and what its operands were made to. -/
structure Builder (α : Type) where
  operand : Proposition → α
  unary : Connective → α → α
  binary : Connective → α → α → α

namespace Builder

/-- Builds a formula. -/
def formula : Builder (Formula Unit) :=
  ⟨.leaf (), .unary (), .binary ()⟩

/-- Builds the truth value. -/
def truth (v : Valuation) : Builder Bool :=
  ⟨Proposition.value v, fun c right => c.rule.apply none right,
    fun c left right => c.rule.apply (some left) right⟩

variable {α ι : Type}

/-- What is made of a formula. Groups make no difference. -/
def build (b : Builder α) : Formula ι → α
  | .leaf _ p => b.operand p
  | .unary _ c operand => b.unary c (b.build operand)
  | .binary _ c left right => b.binary c (b.build left) (b.build right)
  | .group _ _ _ body => b.build body
  | .regroup _ _ _ _ body => b.build body

private theorem build_formula (f : Formula ι) : formula.build f = f.bare := by
  induction f with
  | leaf label p => rfl
  | unary label c operand ih => rw [build, ih]; rfl
  | binary label c left right ihl ihr => rw [build, ihl, ihr]; rfl
  | group label o closed body ih => exact ih
  | regroup label o closed discarded body _ ih => exact ih

private theorem build_truth (v : Valuation) (f : Formula ι) : (truth v).build f = f.evaluate v := by
  rw [Formula.evaluate_eq_truth]
  induction f with
  | leaf label p => rfl
  | unary label c operand ih => rw [build, ih]; rfl
  | binary label c left right ihl ihr => rw [build, ihl, ihr]; rfl
  | group label o closed body ih => exact ih
  | regroup label o closed discarded body _ ih => exact ih

end Builder

/-- What a string of a written formula stands for. -/
inductive Role where
  | operand (p : Proposition)
  | unary (c : Connective)
  | binary (c : Connective)

namespace Registry

/-- Tells identifiers, binary symbols and unary symbols apart. -/
def role? (r : Registry) (s : String) : Option Role :=
  if Text.IsIdentifier s then some (.operand (.ofIdentifier s))
  else
    match r.binary[s]?, r.unary[s]? with
    | some (.connective c), _ => some (.binary c)
    | _, some (.connective c) => some (.unary c)
    | _, _ => none

variable {α : Type}

/-- Reads one formula in prefix notation: an identifier stands for itself, a unary symbol reads one
    more formula and a binary symbol two. The rest is what is not read. -/
def readFirst? (r : Registry) (b : Builder α) :
    (strings : List String) → Option (α × { rest : List String // rest.length < strings.length })
  | [] => none
  | s :: strings =>
    match r.role? s with
    | some (.operand p) => some (b.operand p, ⟨strings, Nat.lt_succ_self _⟩)
    | some (.unary c) =>
      match readFirst? r b strings with
      | some (operand, ⟨rest, hrest⟩) => some (b.unary c operand, ⟨rest, Nat.lt_succ_of_lt hrest⟩)
      | none => none
    | some (.binary c) =>
      match readFirst? r b strings with
      | some (left, ⟨middle, hmiddle⟩) =>
        match readFirst? r b middle with
        | some (right, ⟨rest, hrest⟩) =>
          some (b.binary c left right, ⟨rest, Nat.lt_succ_of_lt (Nat.lt_trans hrest hmiddle)⟩)
        | none => none
      | none => none
    | none => none
termination_by strings => strings.length
decreasing_by
  all_goals simp only [List.length_cons]
  all_goals omega

/-- Reads one formula in prefix notation and answers what is left. -/
def readPrefix? (r : Registry) (b : Builder α) (strings : List String) : Option (α × List String) :=
  (r.readFirst? b strings).map fun found => (found.1, found.2.1)

/-- One string on the stack machine. Operands are taken off the stack, the right one first. -/
def stackStep? (r : Registry) (b : Builder α) (stack : List α) (s : String) : Option (List α) :=
  match r.role? s, stack with
  | some (.operand p), stack => some (b.operand p :: stack)
  | some (.unary c), operand :: stack => some (b.unary c operand :: stack)
  | some (.binary c), right :: left :: stack => some (b.binary c left right :: stack)
  | _, _ => none

/-- Runs the stack machine from the empty stack. It is stuck where an operand is missing. -/
def runStack? (r : Registry) (b : Builder α) (strings : List String) : Option (List α) :=
  strings.foldlM (r.stackStep? b) []

private theorem readPrefix?_operand {r : Registry} (b : Builder α) {s : String} {p : Proposition}
    (hs : r.role? s = some (.operand p)) (strings : List String) :
    r.readPrefix? b (s :: strings) = some (b.operand p, strings) := by
  rw [readPrefix?, readFirst?, hs]
  rfl

private theorem readPrefix?_unary {r : Registry} {b : Builder α} {s : String} {c : Connective}
    (hs : r.role? s = some (.unary c)) {strings rest : List String} {operand : α}
    (hoperand : r.readPrefix? b strings = some (operand, rest)) :
    r.readPrefix? b (s :: strings) = some (b.unary c operand, rest) := by
  obtain ⟨⟨found, rest, hrest⟩, hfound, heq⟩ := Option.map_eq_some_iff.1 hoperand
  obtain ⟨rfl, rfl⟩ := Prod.mk.inj heq
  rw [readPrefix?, readFirst?, hs]
  simp only [hfound]
  rfl

private theorem readPrefix?_binary {r : Registry} {b : Builder α} {s : String} {c : Connective}
    (hs : r.role? s = some (.binary c)) {strings middle rest : List String} {left right : α}
    (hleft : r.readPrefix? b strings = some (left, middle))
    (hright : r.readPrefix? b middle = some (right, rest)) :
    r.readPrefix? b (s :: strings) = some (b.binary c left right, rest) := by
  obtain ⟨⟨found, middle, hmiddle⟩, hfound, heq⟩ := Option.map_eq_some_iff.1 hleft
  obtain ⟨rfl, rfl⟩ := Prod.mk.inj heq
  obtain ⟨⟨other, rest, hrest⟩, hother, heq⟩ := Option.map_eq_some_iff.1 hright
  obtain ⟨rfl, rfl⟩ := Prod.mk.inj heq
  rw [readPrefix?, readFirst?, hs]
  simp only [hfound, hother]
  rfl

private theorem stackStep?_operand {r : Registry} (b : Builder α) {s : String} {p : Proposition}
    (hs : r.role? s = some (.operand p)) (stack : List α) :
    r.stackStep? b stack s = some (b.operand p :: stack) := by
  unfold stackStep?
  rw [hs]

private theorem stackStep?_unary {r : Registry} (b : Builder α) {s : String} {c : Connective}
    (hs : r.role? s = some (.unary c)) (operand : α) (stack : List α) :
    r.stackStep? b (operand :: stack) s = some (b.unary c operand :: stack) := by
  unfold stackStep?
  rw [hs]

private theorem stackStep?_binary {r : Registry} (b : Builder α) {s : String} {c : Connective}
    (hs : r.role? s = some (.binary c)) (left right : α) (stack : List α) :
    r.stackStep? b (right :: left :: stack) s = some (b.binary c left right :: stack) := by
  unfold stackStep?
  rw [hs]

/-- No symbol is both binary and unary. -/
def Distinct (r : Registry) : Prop :=
  ∀ (s : String) (op : Operator), r.unary[s]? = some op → r.binary[s]? = none

private theorem distinct_standard : standard.Distinct := by
  have hall : ∀ entry ∈ standard.unary.toList, standard.binary[entry.1]? = none := by decide +kernel
  exact fun s op hop => hall _ (Std.TreeMap.mem_toList_iff_getElem?_eq_some.2 hop)

private theorem role?_of_isIdentifier (r : Registry) {s : String} (hs : Text.IsIdentifier s) :
    r.role? s = some (.operand (.ofIdentifier s)) :=
  if_pos hs

/-- No operator has the symbol of an identifier, so a string of a rendering is read in one way. -/
private theorem Plain.not_isIdentifier {r : Registry} (hplain : r.Plain) {op : Operator}
    (hop : r.Knows op) : ¬ Text.IsIdentifier op.symbol := by
  obtain ⟨c, hsymbol, -, hidentifier, -⟩ := hplain op hop
  intro h
  have hc := h.2 c (by rw [hsymbol]; exact List.mem_singleton_self c)
  rw [hidentifier] at hc
  cases hc

private theorem role?_unary {r : Registry} (hplain : r.Plain) (hdistinct : r.Distinct) {c : Connective}
    (hc : r.unary[c.symbol]? = some (.connective c)) : r.role? c.symbol = some (.unary c) := by
  have hknows : r.Knows (.connective c) := .inl hc
  have hsymbol : ¬ Text.IsIdentifier c.symbol := hplain.not_isIdentifier hknows
  rw [role?, if_neg hsymbol, hdistinct _ _ hc, hc]

private theorem role?_binary {r : Registry} (hplain : r.Plain) {c : Connective}
    (hc : r.binary[c.symbol]? = some (.connective c)) : r.role? c.symbol = some (.binary c) := by
  have hknows : r.Knows (.connective c) := .inr hc
  have hsymbol : ¬ Text.IsIdentifier c.symbol := hplain.not_isIdentifier hknows
  rw [role?, if_neg hsymbol, hc]

end Registry

namespace Formula

variable {α ι : Type} {r : Registry}

/-- Each symbol and each name tells by itself what it stands for. -/
@[simp] def Legible (r : Registry) : Formula ι → Prop
  | leaf _ p => r.role? p.name = some (.operand p)
  | unary _ c operand => r.role? c.symbol = some (.unary c) ∧ operand.Legible r
  | binary _ c left right =>
    r.role? c.symbol = some (.binary c) ∧ left.Legible r ∧ right.Legible r
  | group _ _ _ body => body.Legible r
  | regroup _ _ _ _ body => body.Legible r

private theorem Over.legible {f : Formula ι} (hover : f.Over r) (hplain : r.Plain)
    (hdistinct : r.Distinct) (hnames : ∀ p, .operand p ∈ f.sourceTokens → Text.IsIdentifier p.name) :
    f.Legible r := by
  induction f with
  | leaf label p =>
    have hname := hnames p (List.mem_singleton_self _)
    have hp : p = .ofIdentifier p.name := hover
    rw [Legible, Registry.role?_of_isIdentifier r hname, ← hp]
  | unary label c operand ih =>
    exact ⟨Registry.role?_unary hplain hdistinct hover.1,
      ih hover.2 fun p hp => hnames p (List.mem_cons_of_mem _ hp)⟩
  | binary label c left right ihl ihr =>
    exact ⟨Registry.role?_binary hplain hover.1,
      ihl hover.2.1 fun p hp => hnames p (List.mem_append_left _ hp),
      ihr hover.2.2 fun p hp => hnames p (List.mem_append_right _ (List.mem_cons_of_mem _ hp))⟩
  | group label o closed body ih =>
    exact ih hover.2 fun p hp => hnames p (List.mem_cons_of_mem _ (List.mem_append_left _ hp))
  | regroup label o closed discarded body _ ih =>
    exact ih hover.2.2 fun p hp =>
      hnames p (List.mem_append_right _ (List.mem_cons_of_mem _ (List.mem_append_left _ hp)))

/-- A formula in prefix notation is read as a whole, and nothing of what stands behind it. The arity of
    each symbol tells how much is to be read. -/
theorem Legible.readPrefix? {f : Formula ι} (h : f.Legible r) (b : Builder α) (rest : List String) :
    r.readPrefix? b ((f.tokens .polish).map Token.text ++ rest) = some (b.build f, rest) := by
  induction f generalizing rest with
  | leaf label p => exact Registry.readPrefix?_operand b h rest
  | unary label c operand ih => exact Registry.readPrefix?_unary h.1 (ih h.2 rest)
  | binary label c left right ihl ihr =>
    rw [tokens, List.map_cons, List.map_append, List.cons_append, List.append_assoc]
    exact Registry.readPrefix?_binary h.1 (ihl h.2.1 _) (ihr h.2.2 rest)
  | group label o closed body ih => exact ih h rest
  | regroup label o closed discarded body _ ih => exact ih h rest

/-- A formula in postfix notation leaves one value on the stack, above what was there before. No operand
    is ever missing. -/
theorem Legible.foldlM_stackStep? {f : Formula ι} (h : f.Legible r) (b : Builder α) (stack : List α) :
    ((f.tokens .reversePolish).map Token.text).foldlM (r.stackStep? b) stack =
      some (b.build f :: stack) := by
  induction f generalizing stack with
  | leaf label p => simp [tokens, Token.text, Builder.build, Registry.stackStep?_operand b h]
  | unary label c operand ih =>
    have hstep := Registry.stackStep?_unary b h.1 (b.build operand) stack
    rw [tokens, List.map_append, List.foldlM_append, ih h.2]
    simp [Token.text, hstep, Builder.build]
  | binary label c left right ihl ihr =>
    have hstep := Registry.stackStep?_binary b h.1 (b.build left) (b.build right) stack
    rw [tokens, List.map_append, List.map_append, List.foldlM_append, ihl h.2.1, Option.bind_eq_bind,
      Option.bind_some, List.foldlM_append, ihr h.2.2]
    simp [Token.text, hstep, Builder.build]
  | group label o closed body ih => exact ih h stack
  | regroup label o closed discarded body _ ih => exact ih h stack

end Formula

/-- What a text is read as in a registry of one-character symbols, each of one arity, is legible. The
    standard registry is such a registry. -/
theorem legible_of_parseWith {M : Type → Type} [PrefixMap M] [LawfulPrefixMap M] {r : Registry}
    (hr : r.Sound) (hplain : r.Plain) (hdistinct : r.Distinct) {text : List Char} {p : Parsed}
    (h : parseWith (Dialect.ofRegistry r : Dialect M) text = .ok p) : p.formula.Legible r := by
  obtain ⟨hspells, hleads⟩ := reads_of_parseWith hr h
  exact (Formula.over_of_leads_sourceTokens hleads).legible hplain hdistinct fun q hq =>
    hspells.isIdentifier_name hq

/-- The strings of the two notations without parentheses that decode to one formula: a prefix reader
    reads all of the one, and a stack machine is left with one value from the other. -/
structure Decodes (f : Formula NodeId) : Prop where
  readPrefix? : Registry.standard.readPrefix? .formula (f.emitted .polish) = some (f.bare, [])
  runStack? : Registry.standard.runStack? .formula (f.emitted .reversePolish) = some [f.bare]
  readPrefix?_truth : ∀ v,
    Registry.standard.readPrefix? (.truth v) (f.emitted .polish) = some (f.evaluate v, [])
  runStack?_truth : ∀ v,
    Registry.standard.runStack? (.truth v) (f.emitted .reversePolish) = some [f.evaluate v]

private theorem Formula.Legible.decodes {f : Formula NodeId} (h : f.Legible Registry.standard) :
    Decodes f := by
  have hread : ∀ {α : Type} (b : Builder α),
      Registry.standard.readPrefix? b (f.emitted .polish) = some (b.build f, []) := by
    intro α b
    have hall := h.readPrefix? b []
    rwa [List.append_nil, ← Formula.emitted_eq] at hall
  have hrun : ∀ {α : Type} (b : Builder α),
      Registry.standard.runStack? b (f.emitted .reversePolish) = some [b.build f] := by
    intro α b
    rw [Formula.emitted_eq]
    exact h.foldlM_stackStep? b []
  exact {
    readPrefix? := by rw [hread, Builder.build_formula]
    runStack? := by rw [hrun, Builder.build_formula]
    readPrefix?_truth := fun v => by rw [hread, Builder.build_truth]
    runStack?_truth := fun v => by rw [hrun, Builder.build_truth] }

/-- The Polish and the reverse Polish form of an accepted text each hold the formula that was read, up
    to its groups, so each of them gives the other one. A prefix reader rebuilds the formula and its
    value from the one, and a stack machine from the other. Neither is given anything but the strings
    that rendering appends. -/
theorem decodes_of_parse {text : List Char} {p : Parsed} (h : parse text = .ok p) :
    Decodes p.formula ∧
      (∀ n out, p.formula.renderOnto out n = (p.formula.emitted n).foldl (· ++ ·) out) ∧
      ∀ {other : List Char} {q : Parsed}, parse other = .ok q →
        (p.formula.emitted .polish = q.formula.emitted .polish ↔
          p.formula.emitted .reversePolish = q.formula.emitted .reversePolish) := by
  have hdecodes : ∀ {text : List Char} {p : Parsed}, parse text = .ok p → Decodes p.formula :=
    fun hparse => (legible_of_parseWith Registry.sound_standard Registry.plain_standard
      Registry.distinct_standard hparse).decodes
  refine ⟨hdecodes h, fun n out => Formula.renderOnto_eq_foldl_emitted out n p.formula,
    fun {other q} hother => ?_⟩
  have hp := hdecodes h
  have hq := hdecodes hother
  -- Either form gives the formula without its groups, and this gives the other form.
  constructor
  · intro hpolish
    have hread := hp.readPrefix?
    rw [hpolish, hq.readPrefix?] at hread
    have hbare : q.formula.bare = p.formula.bare := (Prod.mk.inj (Option.some.inj hread)).1
    rw [← Formula.emitted_bare Notation.noConfusion p.formula, ← hbare,
      Formula.emitted_bare Notation.noConfusion]
  · intro hreverse
    have hrun := hp.runStack?
    rw [hreverse, hq.runStack?] at hrun
    have hbare : q.formula.bare = p.formula.bare := List.singleton_inj.1 (Option.some.inj hrun)
    rw [← Formula.emitted_bare Notation.noConfusion p.formula, ← hbare,
      Formula.emitted_bare Notation.noConfusion]

/-- The negation and the conjunction are told apart by their symbols. The open group is not written. -/
theorem decodes_of_parse_openAtRight :
    parse "a|!b&(c".toList = .ok (Parsed.ofFormula Formula.openAtRight.numbered) ∧
      Decodes Formula.openAtRight.numbered ∧
      Formula.openAtRight.numbered.emitted .polish = ["|", "a", "&", "!", "b", "c"] ∧
      Formula.openAtRight.numbered.emitted .reversePolish = ["a", "b", "!", "c", "&", "|"] ∧
      Formula.openAtRight.numbered.renderOnto "= " .polish = "= |a&!bc" := by
  obtain ⟨hdecodes, hrender, -⟩ := decodes_of_parse parseWith_openAtRight
  have hpolish : Formula.openAtRight.numbered.emitted .polish = ["|", "a", "&", "!", "b", "c"] := by
    rw [Formula.emitted_eq]
    decide +kernel
  have hreverse : Formula.openAtRight.numbered.emitted .reversePolish =
      ["a", "b", "!", "c", "&", "|"] := by
    rw [Formula.emitted_eq]
    decide +kernel
  have hwritten := hrender .polish "= "
  simp only [Parsed.ofFormula, hpolish] at hwritten
  exact ⟨parseWith_openAtRight, hdecodes, hpolish, hreverse, hwritten⟩

end Sentential
