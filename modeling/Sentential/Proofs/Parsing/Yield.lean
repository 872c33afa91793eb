import Mathlib.Data.List.Nodup
import Mathlib.Data.List.Perm.Basic
import Sentential.Proofs.Formula.Closing
import Sentential.Proofs.Parsing.Arena
import Sentential.Proofs.Parsing.Plain

namespace Sentential

/-- The characters of a text that are no blanks. -/
def Text.withoutBlanks (text : List Char) : List Char :=
  text.filter fun c => !isBlank c

private theorem Text.withoutBlanks_append (front rest : List Char) :
    withoutBlanks (front ++ rest) = withoutBlanks front ++ withoutBlanks rest :=
  List.filter_append front rest

private theorem Text.withoutBlanks_eq_self {text : List Char} (h : ∀ c ∈ text, isBlank c = false) :
    withoutBlanks text = text :=
  List.filter_eq_self.2 fun c hc => by rw [h c hc]; rfl

private theorem Text.isBlank_eq_false_of_isIdentifierChar {c : Char} (h : isIdentifierChar c = true) :
    isBlank c = false := by
  cases hblank : isBlank c with
  | false => rfl
  | true => rw [isIdentifierChar_eq_false_of_isBlank hblank] at h; cases h

/-- A token takes its own text from the front, if no symbol has blanks in it. -/
theorem Token.Begins.withoutBlanks_eq {known : Operator → Prop}
    (hknown : ∀ op, known op → ∀ c ∈ op.symbol.toList, Text.isBlank c = false)
    {text rest : List Char} {t : Token} (h : t.Begins known text rest) :
    Text.withoutBlanks text = t.text.toList ++ Text.withoutBlanks rest := by
  cases h with
  | @identifier name rest hname hrun hend =>
    have hblank : ∀ c ∈ name, Text.isBlank c = false := fun c hc =>
      Text.isBlank_eq_false_of_isIdentifierChar (hrun c hc)
    rw [Text.withoutBlanks_append, Text.withoutBlanks_eq_self hblank, Token.text,
      Proposition.name_ofIdentifier, String.toList_ofList]
  | @symbol op hop hsymbol rest =>
    have htext : op.token.text = op.symbol := by cases op <;> rfl
    rw [Text.withoutBlanks_append, Text.withoutBlanks_eq_self (hknown op hop), htext]
  | closer rest => rfl

/-- Of a text that is spelt by tokens, only blanks are not in them. Blanks inside of symbols would be
    lost, which is excluded. -/
theorem Spells.withoutBlanks_eq {known : Operator → Prop}
    (hknown : ∀ op, known op → ∀ c ∈ op.symbol.toList, Text.isBlank c = false)
    {text rest : List Char} {ts : List Token} (h : Spells known text ts rest) :
    Text.withoutBlanks text = ts.flatMap (fun t => t.text.toList) ++ Text.withoutBlanks rest := by
  induction h with
  | done rest => rfl
  | @blank c text rest ts hc _ ih =>
    rw [← ih]
    exact List.filter_cons_of_neg (by simp [hc])
  | @token text middle rest t ts ht _ ih =>
    rw [ht.withoutBlanks_eq hknown, ih, List.flatMap_cons, List.append_assoc]

namespace Formula

variable {ι : Type}

/-- The number of groups that were not closed. -/
def openGroups : Formula ι → Nat
  | leaf .. => 0
  | unary _ _ operand => operand.openGroups
  | binary _ _ left right => left.openGroups + right.openGroups
  | group _ _ closed body => body.openGroups + if closed then 0 else 1
  | regroup _ _ closed discarded body =>
    discarded.openGroups + (body.openGroups + if closed then 0 else 1)

/-- Where every group is closed, none is counted as open. -/
theorem AllClosed.openGroups_eq {f : Formula ι} (h : f.AllClosed) : f.openGroups = 0 := by
  induction f with
  | leaf label p => rfl
  | unary label c operand ih => exact ih h
  | binary label c left right ihl ihr => rw [openGroups, ihl h.1, ihr h.2]
  | group label o closed body ih =>
    obtain ⟨rfl, hbody⟩ := h
    rw [openGroups, ih hbody]
    rfl
  | regroup label o closed discarded body ihd ih =>
    obtain ⟨rfl, hdiscarded, hbody⟩ := h
    rw [openGroups, ihd hdiscarded, ih hbody]
    rfl

/-- Where only the last groups may be open, all that is written but not read are the right parentheses
    at the end. There is one for each of these groups. -/
theorem OpenAtEnd.tokens_eq {f : Formula ι} (hopen : f.OpenAtEnd) (hregroup : f.NoRegroup) :
    f.tokens .algebraic = f.sourceTokens ++ List.replicate f.openGroups .closer := by
  induction f with
  | leaf label p => rfl
  | unary label c operand ih => rw [tokens, sourceTokens, openGroups, ih hopen hregroup]; rfl
  | binary label c left right ihl ihr =>
    obtain ⟨hclosed, hright⟩ := hopen
    have hleft := ihl hclosed.openAtEnd hregroup.1
    rw [hclosed.openGroups_eq, List.replicate_zero, List.append_nil] at hleft
    rw [tokens, sourceTokens, openGroups, hclosed.openGroups_eq, Nat.zero_add, hleft,
      ihr hright hregroup.2, List.append_assoc]
    rfl
  | group label o closed body ih =>
    cases closed with
    | true =>
      have hclosed : body.AllClosed := hopen
      rw [tokens, sourceTokens, openGroups, ih hclosed.openAtEnd hregroup, hclosed.openGroups_eq]
      simp [closing]
    | false =>
      have hbody : body.OpenAtEnd := hopen
      rw [tokens, sourceTokens, openGroups, ih hbody hregroup]
      simp [closing, List.replicate_succ']
  | regroup label o closed discarded body _ _ => exact hregroup.elim

end Formula

/-- Whether the node is a group that was not closed. -/
def Node.isOpenGroup (node : Node) : Bool :=
  match node.formula with
  | .group _ _ closed _ => !closed
  | .regroup _ _ closed _ _ => !closed
  | _ => false

namespace Formula

private theorem countP_walk_isOpenGroup (parent : Option NodeId) (f : Formula NodeId) :
    (f.walk parent).countP Node.isOpenGroup = f.openGroups := by
  induction f generalizing parent with
  | leaf id p => rfl
  | unary id c operand ih => simp [walk, openGroups, Node.isOpenGroup, ih]
  | binary id c left right ihl ihr => simp [walk, openGroups, Node.isOpenGroup, ihl, ihr]
  | group id o closed body ih =>
    cases closed <;> simp [walk, openGroups, Node.isOpenGroup, ih]
  | regroup id o closed discarded body ihd ih =>
    cases closed <;> simp [walk, openGroups, Node.isOpenGroup, ihd, ih]

namespace WellNumbered

variable {r : Registry} {f : Formula NodeId}

private theorem nodup_nodes (f : Formula NodeId) : f.nodes.toList.Nodup := by
  refine List.pairwise_iff_getElem.2 fun i j hi hj hij heq => ?_
  have hlabel : ∀ k (hk : k < f.nodes.toList.length), f.nodes.toList[k].formula.label = k := by
    intro k hk
    exact (mem_walk_of_getElem?_nodes (Array.getElem?_eq_getElem hk)).2
  exact Nat.ne_of_lt hij (by rw [← hlabel i hi, ← hlabel j hj, heq])

private theorem mem_nodes_iff (h : f.WellNumbered) (hf : f.Over r) {node : Node} :
    node ∈ f.nodes.toList ↔ node ∈ f.walk none := by
  rw [List.mem_iff_getElem?]
  simp only [Array.getElem?_toList, h.getElem?_nodes_iff hf]
  exact ⟨fun ⟨_, hmem, _⟩ => hmem, fun hmem => ⟨_, hmem, rfl⟩⟩

/-- The operators among the numbered nodes are those on the way, where each occurs once. Open groups can
    be counted in either place because of it. -/
theorem countP_nodes_eq (h : f.WellNumbered) (hf : f.Over r) {P : Node → Bool}
    (hP : ∀ node, P node = true → node.proposition? = none) :
    f.nodes.toList.countP P = (f.walk none).countP P := by
  have hwalk : ((f.walk none).filter P).Nodup := by
    refine ((h.pairwise_walk hf).filter P).imp_of_mem fun {m n} hm _ hmn heq => ?_
    have hsome := (hmn (by rw [heq])).2
    rw [hP m (List.mem_filter.1 hm).2] at hsome
    cases hsome
  have hperm := (List.perm_ext_iff_of_nodup ((nodup_nodes f).filter P) hwalk).2 fun node => by
    rw [List.mem_filter, List.mem_filter, h.mem_nodes_iff hf]
  rw [List.countP_eq_length_filter, List.countP_eq_length_filter, hperm.length_eq]

end WellNumbered

end Formula

/-- The algebraic rendering of what was read is the text without its blanks, and a right parenthesis for
    each group that was left open. Symbols with blanks in them are excluded, because these blanks are
    written. -/
theorem render_eq_withoutBlanks {M : Type → Type} [PrefixMap M] [LawfulPrefixMap M] {r : Registry}
    (hr : r.Validated) (hknown : ∀ op, r.Knows op → ∀ c ∈ op.symbol.toList, Text.isBlank c = false)
    {text : List Char} {p : Parsed}
    (h : parseWith (Dialect.ofRegistry r : Dialect M) text = .ok p) :
    (p.formula.render .algebraic).toList =
      Text.withoutBlanks text ++ List.replicate (p.nodes.toList.countP Node.isOpenGroup) ')' := by
  obtain ⟨hspells, hleads⟩ := reads_of_parseWith hr.sound h
  have hrespects := respectsPrecedence_of_parseWith (Dialect.sound_ofRegistry hr) h
  have hcount : p.nodes.toList.countP Node.isOpenGroup = p.formula.openGroups := by
    rw [p.nodes_eq, (Formula.wellNumbered_of_parseWith h).countP_nodes_eq
      (Formula.over_of_leads_sourceTokens hleads), Formula.countP_walk_isOpenGroup]
    intro node hnode
    obtain ⟨f, parent⟩ := node
    cases f with
    | leaf id p => cases hnode
    | _ => rfl
  rw [Formula.toList_render, hrespects.openAtEnd.tokens_eq hrespects.noRegroup, List.flatMap_append,
    hspells.withoutBlanks_eq hknown, hcount]
  simp [Text.withoutBlanks, List.flatMap_replicate, Token.text]

/-- The blanks go. The open group gets its right parenthesis. -/
theorem render_eq_withoutBlanks_openAtRight :
    Registry.standard.Validated ∧
      (∀ op, Registry.standard.Knows op → ∀ c ∈ op.symbol.toList, Text.isBlank c = false) ∧
      parseWith (Dialect.ofRegistry Registry.standard : Dialect PrefixMap.Trie)
        " a |\t! b&( c\n".toList = .ok (Parsed.ofFormula Formula.openAtRight.numbered) ∧
      (Formula.openAtRight.numbered.render .algebraic).toList =
        Text.withoutBlanks " a |\t! b&( c\n".toList ++ [')'] := by
  have hknown : ∀ op, Registry.standard.Knows op →
      ∀ c ∈ op.symbol.toList, Text.isBlank c = false := by
    intro op hop c hc
    obtain ⟨first, hfirst, hblank, -⟩ := Registry.plain_standard op hop
    rw [hfirst, List.mem_singleton] at hc
    rwa [hc]
  have hparse : parseWith (Dialect.ofRegistry Registry.standard : Dialect PrefixMap.Trie)
      " a |\t! b&( c\n".toList = .ok (Parsed.ofFormula Formula.openAtRight.numbered) :=
    parseWith_eq_ok_ofFormula_iff.2 (by decide +kernel)
  have hopen : (Parsed.ofFormula Formula.openAtRight.numbered).nodes.toList.countP
      Node.isOpenGroup = 1 := by decide +kernel
  have hrender := render_eq_withoutBlanks .standard hknown hparse
  rw [hopen] at hrender
  exact ⟨.standard, hknown, hparse, hrender⟩

end Sentential
