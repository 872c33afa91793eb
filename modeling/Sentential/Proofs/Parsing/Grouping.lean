import Sentential.Proofs.Parsing.Faults
import Sentential.Proofs.Parsing.Rereading
import Sentential.Proofs.Parsing.Yield

namespace Sentential

/-- A text that is made of some pieces in a row, with any blanks before, between and behind them. -/
inductive Spaced : List (List Char) → List Char → Prop where
  | done : Spaced [] []
  | blank {c : Char} {pieces : List (List Char)} {text : List Char} (hc : Text.isBlank c = true)
    (h : Spaced pieces text) : Spaced pieces (c :: text)
  | piece (first : List Char) {pieces : List (List Char)} {text : List Char}
    (h : Spaced pieces text) : Spaced (first :: pieces) (first ++ text)

/-- Tokens can be read off a text in two parts. -/
theorem Spells.append {known : Operator → Prop} {text middle rest : List Char} {ts us : List Token}
    (h : Spells known text ts middle) (hmiddle : Spells known middle us rest) :
    Spells known text (ts ++ us) rest := by
  induction h with
  | done middle => exact hmiddle
  | blank hc _ ih => exact .blank hc (ih hmiddle)
  | token ht _ ih => exact .token ht (ih hmiddle)

namespace Spaced

variable {known : Operator → Prop} {pieces : List (List Char)} {text : List Char}

private theorem exists_eq_append {first : List Char} (h : Spaced (first :: pieces) text) :
    ∃ blanks rest, (∀ c ∈ blanks, Text.isBlank c = true) ∧ text = blanks ++ (first ++ rest) ∧
      Spaced pieces rest := by
  generalize hall : first :: pieces = all at h
  induction h with
  | done => cases hall
  | @blank c _ text hc _ ih =>
    obtain ⟨blanks, rest, hblanks, rfl, hrest⟩ := ih hall
    exact ⟨c :: blanks, rest, List.forall_mem_cons.2 ⟨hc, hblanks⟩, rfl, hrest⟩
  | @piece _ _ text h _ =>
    obtain ⟨rfl, rfl⟩ := List.cons.inj hall
    exact ⟨[], text, List.forall_mem_nil _, rfl, h⟩

private theorem spells_nil (h : Spaced [] text) : Spells known text [] [] := by
  generalize hnil : ([] : List (List Char)) = none at h
  induction h with
  | done => exact .done []
  | blank hc _ ih => exact .blank hc (ih hnil)
  | piece => cases hnil

/-- A symbol is read as its operator, with any blanks in front of it. -/
private theorem spells_symbol {op : Operator} {ts : List Token} (hop : known op)
    (hsymbol : op.symbol ≠ "") (h : Spaced (op.symbol.toList :: pieces) text)
    (hnext : ∀ rest, Spaced pieces rest → Spells known rest ts []) :
    Spells known text (op.token :: ts) [] := by
  obtain ⟨blanks, rest, hblanks, rfl, hrest⟩ := h.exists_eq_append
  exact (Spells.token (.symbol hop hsymbol rest) (hnext rest hrest)).blanks hblanks

/-- A text is read as its own tokens if a right parenthesis behind it does not change them. The
    parenthesis is the token behind them then. -/
private theorem spells_closed {inner : List Char} {ts us : List Token}
    (hinner : ∀ rest : List Char, (∀ c ∈ rest.head?, Text.isIdentifierChar c = false) →
      Spells known (inner ++ rest) ts rest)
    (h : Spaced (inner :: ")".toList :: pieces) text)
    (hnext : ∀ rest, Spaced pieces rest → Spells known rest us []) :
    Spells known text (ts ++ .closer :: us) [] := by
  obtain ⟨blanks, behind, hblanks, rfl, hbehind⟩ := h.exists_eq_append
  obtain ⟨spaces, rest, hspaces, rfl, hrest⟩ := hbehind.exists_eq_append
  have hcloser : Spells known (spaces ++ (")".toList ++ rest)) (.closer :: us) [] :=
    (Spells.token (.closer rest) (hnext rest hrest)).blanks hspaces
  refine ((hinner _ fun c hc => ?_).append hcloser).blanks hblanks
  -- Neither a blank nor the parenthesis goes on with an identifier.
  cases spaces with
  | nil =>
    obtain rfl := Option.some.inj hc
    rfl
  | cons first others =>
    obtain rfl := Option.some.inj hc
    exact Text.isIdentifierChar_eq_false_of_isBlank (hspaces _ List.mem_cons_self)

end Spaced

namespace Formula

variable {ι κ : Type}

private theorem tokens_relabel (name : ι → κ) (n : Notation) (f : Formula ι) :
    (f.relabel name).tokens n = f.tokens n := by
  induction f with
  | leaf label p => cases n <;> rfl
  | unary label c operand ih => cases n <;> simp only [relabel, tokens, ih]
  | binary label c left right ihl ihr => cases n <;> simp only [relabel, tokens, ihl, ihr]
  | group label o closed body ih => cases n <;> simp only [relabel, tokens, ih]
  | regroup label o closed discarded body _ ih => cases n <;> simp only [relabel, tokens, ih]

private theorem truth_relabel (name : ι → κ) (v : Valuation) (f : Formula ι) :
    (f.relabel name).truth v = f.truth v := by
  induction f with
  | leaf label p => rfl
  | unary label c operand ih => simp only [relabel, truth, ih]
  | binary label c left right ihl ihr => simp only [relabel, truth, ihl, ihr]
  | group label o closed body ih => exact ih
  | regroup label o closed discarded body _ ih => exact ih

/-- Numbers are not written. -/
private theorem render_numbered (n : Notation) (f : Formula ι) : f.numbered.render n = f.render n := by
  have htokens : f.numbered.tokens n = f.tokens n := by
    rw [← tokens_relabel (fun _ => ()) n f.numbered, ← tokens_relabel (fun _ => ()) n f]
    exact congrArg (tokens n) (unlabelled_number Numbering.empty f)
  rw [← String.toList_inj, toList_render, toList_render, htokens]

private theorem evaluate_numbered (v : Valuation) (f : Formula ι) :
    f.numbered.evaluate v = f.evaluate v := by
  rw [evaluate_eq_truth, evaluate_eq_truth, ← truth_relabel (fun _ => ()) v f.numbered,
    ← truth_relabel (fun _ => ()) v f]
  exact congrArg (truth v) (unlabelled_number Numbering.empty f)

private theorem render_polish_unary (label : ι) (c : Connective) (operand : Formula ι) :
    (unary label c operand).render .polish = c.symbol ++ operand.render .polish := by
  rw [← String.toList_inj]
  simp [toList_render, tokens, Token.text]

private theorem render_polish_binary (label : ι) (c : Connective) (left right : Formula ι) :
    (binary label c left right).render .polish =
      c.symbol ++ left.render .polish ++ right.render .polish := by
  rw [← String.toList_inj]
  simp [toList_render, tokens, Token.text]

private theorem render_polish_group (label : ι) (o : Opener) (closed : Bool) (body : Formula ι) :
    (group label o closed body).render .polish = body.render .polish := by
  rw [← String.toList_inj, toList_render, toList_render]
  rfl

private theorem openGroups_eq_zero_iff {f : Formula ι} : f.openGroups = 0 ↔ f.AllClosed := by
  refine ⟨fun h => ?_, AllClosed.openGroups_eq⟩
  induction f with
  | leaf label p => trivial
  | unary label c operand ih => exact ih h
  | binary label c left right ihl ihr =>
    obtain ⟨hleft, hright⟩ := Nat.add_eq_zero_iff.1 h
    exact ⟨ihl hleft, ihr hright⟩
  | group label o closed body ih =>
    obtain ⟨hbody, hclosed⟩ := Nat.add_eq_zero_iff.1 h
    exact ⟨by simpa using hclosed, ih hbody⟩
  | regroup label o closed discarded body ihd ih =>
    obtain ⟨hdiscarded, hrest⟩ := Nat.add_eq_zero_iff.1 h
    obtain ⟨hbody, hclosed⟩ := Nat.add_eq_zero_iff.1 hrest
    exact ⟨by simpa using hclosed, ihd hdiscarded, ih hbody⟩

/-- Behind its tokens those groups of a formula are open that were not closed. No token of a formula
    closes a group that it does not contain. -/
theorem foldlM_depth?_sourceTokens (f : Formula ι) (depth : Nat) :
    f.sourceTokens.foldlM Token.depth? depth = some (depth + f.openGroups) := by
  have hgroup : ∀ (closed : Bool) {ts : List Token} {k : Nat},
      (∀ depth, ts.foldlM Token.depth? depth = some (depth + k)) →
        ∀ depth, (ts ++ closing closed).foldlM Token.depth? (depth + 1) =
          some (depth + (k + if closed then 0 else 1)) := by
    intro closed ts k hts depth
    rw [List.foldlM_append, hts, Nat.add_right_comm, ← Nat.add_assoc]
    cases closed <;> rfl
  induction f generalizing depth with
  | leaf label p => rfl
  | unary label c operand ih => exact ih depth
  | binary label c left right ihl ihr =>
    rw [sourceTokens, List.foldlM_append, ihl, openGroups, ← Nat.add_assoc]
    exact ihr _
  | group label o closed body ih => exact hgroup closed ih depth
  | regroup label o closed discarded body ihd ih =>
    rw [sourceTokens, List.foldlM_append, ihd, openGroups, ← Nat.add_assoc]
    exact hgroup closed ih _

/-- No operator reaches into a closed group or out of it, so a group can stand wherever an operand can.
    Its body has to respect precedence, and no group in it may be open. -/
theorem settled_group {f : Formula ι} (hf : f.RespectsPrecedence) (hclosed : f.AllClosed) (label : ι)
    (o : Opener) : (group label o true f).Settled :=
  ⟨⟨hf.leftBound, hf.rightBound, hclosed, hf.noRegroup⟩, ⟨rfl, hclosed⟩, rfl, rfl⟩

/-- An operand that no operator reaches into stands below any unary operator, whatever precedences there
    are. -/
private theorem Settled.respectsPrecedence_unary {f : Formula ι} (hf : f.Settled) (label : ι)
    (c : Connective) : (unary label c f).RespectsPrecedence where
  leftBound := hf.respectsPrecedence.leftBound
  rightBound := ⟨by simp [hf.leftPrecedences_eq], hf.respectsPrecedence.rightBound⟩
  openAtEnd := hf.respectsPrecedence.openAtEnd
  noRegroup := hf.respectsPrecedence.noRegroup

private theorem Settled.respectsPrecedence_binary {f g : Formula ι} (hf : f.Settled) (hg : g.Settled)
    (label : ι) (c : Connective) : (binary label c f g).RespectsPrecedence where
  leftBound :=
    ⟨by simp [hf.rightPrecedences_eq], hf.respectsPrecedence.leftBound, hg.respectsPrecedence.leftBound⟩
  rightBound :=
    ⟨by simp [hg.leftPrecedences_eq], hf.respectsPrecedence.rightBound, hg.respectsPrecedence.rightBound⟩
  openAtEnd := ⟨hf.allClosed, hg.respectsPrecedence.openAtEnd⟩
  noRegroup := ⟨hf.respectsPrecedence.noRegroup, hg.respectsPrecedence.noRegroup⟩

end Formula

namespace Formula.Written

variable {ι : Type} {r : Registry} {f g : Formula ι} {left right text : List Char}

/-- The tokens are the same in front of what cannot go on with an identifier. -/
private theorem spells_append (h : f.Written r text) {rest : List Char}
    (hrest : ∀ c ∈ rest.head?, Text.isIdentifierChar c = false) :
    Spells r.Knows (text ++ rest) f.sourceTokens rest := by
  obtain ⟨front, -, htext, hreplace⟩ := h.spells.exists_front h.known.leads_sourceTokens
  rw [List.append_nil] at htext
  rw [htext]
  exact hreplace rest fun _ c hc => .inr (hrest c hc)

variable {o : Opener} {c : Connective}

/-- A closed group is read as one, whatever pieces are behind it. -/
private theorem spells_group (hplain : r.Plain) (hf : f.Written r left) (ho : r.Knows (.opener o))
    (label : ι) {pieces : List (List Char)} {ts : List Token}
    (h : Spaced (o.symbol.toList :: left :: ")".toList :: pieces) text)
    (hnext : ∀ rest, Spaced pieces rest → Spells r.Knows rest ts []) :
    Spells r.Knows text ((group label o true f).sourceTokens ++ ts) [] := by
  have htokens : (group label o true f).sourceTokens ++ ts =
      .opener o :: (f.sourceTokens ++ .closer :: ts) := by
    simp [sourceTokens, closing]
  rw [htokens]
  exact Spaced.spells_symbol ho (hplain.symbol_ne_empty ho) h fun _ hrest =>
    hrest.spells_closed (fun _ => hf.spells_append) hnext

/-- A unary operator in front of a closed group is read as one. The precedence of the operator plays no
    part. -/
theorem unary_group (hplain : r.Plain) (hr : r.Sound) (hf : f.Written r left)
    (hclosed : f.AllClosed) (ho : r.Knows (.opener o)) (hc : r.Knows (.connective c))
    (hkind : c.kind = .unary) (label : ι)
    (h : Spaced [c.symbol.toList, o.symbol.toList, left, ")".toList] text) :
    (unary label c (group label o true f)).Written r text where
  spells := by
    refine Spaced.spells_symbol hc (hplain.symbol_ne_empty hc) h fun rest hrest => ?_
    have hgroup := hf.spells_group hplain ho label hrest fun _ => Spaced.spells_nil
    rwa [List.append_nil] at hgroup
  known := ⟨hr.unary_of_knows hc hkind, hr.unary_of_knows ho (hr.kind_of_knows_opener ho), hf.known⟩
  respectsPrecedence :=
    (settled_group hf.respectsPrecedence hclosed label o).respectsPrecedence_unary label c

/-- A binary operator between closed groups is read as one. The precedence of the operator plays no
    part. -/
theorem binary_groups (hplain : r.Plain) (hr : r.Sound) (hf : f.Written r left)
    (hg : g.Written r right) (hfclosed : f.AllClosed) (hgclosed : g.AllClosed)
    (ho : r.Knows (.opener o)) (hc : r.Knows (.connective c)) (hkind : c.kind = .binary) (label : ι)
    (h : Spaced [o.symbol.toList, left, ")".toList, c.symbol.toList, o.symbol.toList, right,
      ")".toList] text) :
    (binary label c (group label o true f) (group label o true g)).Written r text where
  spells := by
    refine hf.spells_group hplain ho label h fun middle hmiddle => ?_
    refine Spaced.spells_symbol hc (hplain.symbol_ne_empty hc) hmiddle fun rest hrest => ?_
    have hgroup := hg.spells_group hplain ho label hrest fun _ => Spaced.spells_nil
    rwa [List.append_nil] at hgroup
  known := by
    have hopener := hr.unary_of_knows ho (hr.kind_of_knows_opener ho)
    exact ⟨hr.binary_of_knows hc hkind, ⟨hopener, hf.known⟩, hopener, hg.known⟩
  respectsPrecedence :=
    (settled_group hf.respectsPrecedence hfclosed label o).respectsPrecedence_binary
      (settled_group hg.respectsPrecedence hgclosed label o) label c

end Formula.Written

/-- A text is read with all groups closed if it has as many right parentheses as left ones, and only
    then. Texts that are put in parentheses are asked for no more than this. -/
theorem allClosed_iff_count_eq {text : List Char} {p : Parsed} (h : parse text = .ok p) :
    p.formula.AllClosed ↔ text.count '(' = text.count ')' := by
  obtain ⟨hspells, -⟩ := reads_of_parseWith Registry.sound_standard h
  have hcount := hspells.count_parentheses (fun op => Registry.knows_standard_iff.1)
    (p.formula.foldlM_depth?_sourceTokens 0)
  rw [← Formula.openGroups_eq_zero_iff]
  simp only [List.count_nil] at hcount
  omega

/-- A text that is written for a formula is read, and rendered and evaluated as the formula is. The
    labels of the formula may be anything. -/
theorem Formula.Written.exists_parse_eq {ι : Type} {f : Formula ι} {text : List Char}
    (h : f.Written Registry.standard text) :
    ∃ p, parse text = .ok p ∧ (∀ n, p.formula.render n = f.render n) ∧
      ∀ v, p.formula.evaluate v = f.evaluate v :=
  ⟨_, h.parseWith_eq Registry.plain_standard Registry.sound_standard,
    fun n => f.render_numbered n, fun v => f.evaluate_numbered v⟩

/-- Texts in which every group is closed keep their meaning in parentheses. Joined by a binary operator
    or negated, with any blanks between, they are read, written and evaluated as they are by themselves.
    Texts that leave a group open are excluded, because the parenthesis behind them would close it. -/
theorem exists_parse_of_groups {f g : List Char} {p q : Parsed} (hp : parse f = .ok p)
    (hq : parse g = .ok q) (hpclosed : p.formula.AllClosed) (hqclosed : q.formula.AllClosed) :
    (∀ b : Connective, .connective b ∈ Operator.standard → b.kind = .binary → ∀ text,
      Spaced ["(".toList, f, ")".toList, b.symbol.toList, "(".toList, g, ")".toList] text →
        ∃ whole, parse text = .ok whole ∧
          whole.formula.render .polish =
            b.symbol ++ p.formula.render .polish ++ q.formula.render .polish ∧
          ∀ v, whole.formula.evaluate v =
            b.rule.apply (some (p.formula.evaluate v)) (q.formula.evaluate v)) ∧
      ∀ text, Spaced ["!".toList, "(".toList, f, ")".toList] text →
        ∃ whole, parse text = .ok whole ∧
          whole.formula.render .polish = "!" ++ p.formula.render .polish ∧
          ∀ v, whole.formula.evaluate v = !p.formula.evaluate v := by
  have hpwritten : p.formula.Written .standard f := .of_parseWith .standard hp
  have hqwritten : q.formula.Written .standard g := .of_parseWith .standard hq
  have hopener : Registry.standard.Knows (.opener ⟨"(", .unary⟩) :=
    Registry.knows_standard_iff.2 (by decide +kernel)
  constructor
  · intro b hb hkind text htext
    have hwritten := hpwritten.binary_groups Registry.plain_standard Registry.sound_standard hqwritten
      hpclosed hqclosed hopener (Registry.knows_standard_iff.2 hb) hkind 0 htext
    obtain ⟨whole, hparse, hrender, hevaluate⟩ := hwritten.exists_parse_eq
    refine ⟨whole, hparse, ?_, fun v => ?_⟩
    · rw [hrender, Formula.render_polish_binary, Formula.render_polish_group,
        Formula.render_polish_group]
    · simp only [hevaluate, Formula.evaluate_eq_truth]
      rfl
  · intro text htext
    have hnot : Registry.standard.Knows
        (.connective ⟨"!", .unary, 1000, Rule.ofFunction fun _ right => !right⟩) :=
      Registry.knows_standard_iff.2 (by decide +kernel)
    have hwritten := hpwritten.unary_group Registry.plain_standard Registry.sound_standard
      hpclosed hopener hnot rfl 0 htext
    obtain ⟨whole, hparse, hrender, hevaluate⟩ := hwritten.exists_parse_eq
    refine ⟨whole, hparse, ?_, fun v => ?_⟩
    · rw [hrender, Formula.render_polish_unary, Formula.render_polish_group]
    · simp only [hevaluate, Formula.evaluate_eq_truth, Formula.truth, Rule.apply_ofFunction]

/-- The disjunction is joined to an operand of a tighter operator. The parentheses keep that operator
    out of it. -/
theorem exists_parse_of_groups_openAtRight :
    (Parsed.ofFormula Formula.openAtRight.closeAll.numbered).formula.AllClosed ∧
      (∃ whole, parse " (a|!b&(c) )&\t( c)".toList = .ok whole ∧
        whole.formula.render .polish = "&|a&!bcc") ∧
      ∃ whole, parse "! (a|!b&(c))".toList = .ok whole ∧
        ∀ v, whole.formula.evaluate v = !(v "a" || (!v "b" && v "c")) := by
  have hp : parse "a|!b&(c)".toList =
      .ok (Parsed.ofFormula Formula.openAtRight.closeAll.numbered) :=
    parseWith_eq_ok_ofFormula_iff.2 (by decide +kernel)
  have hq : parse "c".toList = .ok (Parsed.ofFormula (.leaf 0 (.atom "c"))) :=
    parseWith_eq_ok_ofFormula_iff.2 (by decide +kernel)
  have hclosed : (Parsed.ofFormula Formula.openAtRight.closeAll.numbered).formula.AllClosed := by
    decide +kernel
  have hvalue : ∀ v, (Parsed.ofFormula Formula.openAtRight.closeAll.numbered).formula.evaluate v =
      (v "a" || (!v "b" && v "c")) := by
    intro v
    rw [Parsed.ofFormula, Formula.evaluate_numbered, Formula.evaluate_eq_truth,
      Formula.truth_closeAll]
    simp [Formula.openAtRight, Formula.truth, Proposition.value]
  have hbinary : Spaced ["(".toList, "a|!b&(c)".toList, ")".toList, "&".toList, "(".toList,
      "c".toList, ")".toList] " (a|!b&(c) )&\t( c)".toList :=
    .blank rfl (.piece _ (.piece _ (.blank rfl (.piece _ (.piece _ (.blank rfl (.piece _
      (.blank rfl (.piece _ (.piece _ .done))))))))))
  have hunary : Spaced ["!".toList, "(".toList, "a|!b&(c)".toList, ")".toList]
      "! (a|!b&(c))".toList :=
    .piece _ (.blank rfl (.piece _ (.piece _ (.piece _ .done))))
  obtain ⟨hjoined, hnegated⟩ := exists_parse_of_groups hp hq hclosed trivial
  obtain ⟨whole, hparse, hrender, -⟩ :=
    hjoined ⟨"&", .binary, 15, Rule.ofFunction fun left right => left.getD false && right⟩
      (by decide +kernel) rfl _ hbinary
  obtain ⟨negated, hnegatedParse, -, hevaluate⟩ := hnegated _ hunary
  refine ⟨hclosed, ⟨whole, hparse, hrender.trans (by decide +kernel)⟩, negated, hnegatedParse, ?_⟩
  intro v
  rw [hevaluate, hvalue]

/-- A group that is left open takes the right parenthesis that is put behind it. -/
example : (parse "(a|(b)&(c)".toList).toOption.map (fun p => p.formula.render .polish) =
    some "|a&bc" := by
  decide +kernel

end Sentential
