import Sentential.Proofs.Parsing.Assembly

namespace Sentential

namespace Registry

/-- Whether the registry has this operator, under its own symbol. -/
def Knows (r : Registry) (op : Operator) : Prop :=
  r.unary[op.symbol]? = some op ∨ r.binary[op.symbol]? = some op

/-- The tokens that a registry has for a place: identifiers, unary operators and openers where an
    operand is due, right parentheses and binary operators behind one. -/
inductive Offers (r : Registry) : Expectation → Token → Prop where
  | operand (name : String) : Offers r .operand (.operand (.ofIdentifier name))
  | unary {c : Connective} (hc : r.unary[c.symbol]? = some (.connective c)) :
    Offers r .operand (.connective c)
  | opener {o : Opener} (ho : r.unary[o.symbol]? = some (.opener o)) : Offers r .operand (.opener o)
  | closer : Offers r .operator .closer
  | binary {c : Connective} (hc : r.binary[c.symbol]? = some (.connective c)) :
    Offers r .operator (.connective c)
  | regroup {o : Opener} (ho : r.binary[o.symbol]? = some (.opener o)) :
    Offers r .operator (.opener o)

/-- A sequence of tokens in which each is offered where it stands, and what may stand behind it. -/
inductive Leads (r : Registry) : Expectation → List Token → Expectation → Prop where
  | nil (expected : Expectation) : Leads r expected [] expected
  | cons {expected last : Expectation} {t : Token} {rest : List Token} (ht : r.Offers expected t)
    (hrest : Leads r t.expectation rest last) : Leads r expected (t :: rest) last

variable {r : Registry}

/-- Two sequences of tokens can be put behind each other where the second begins with what the first one
    leads to. A formula is put together from its operands this way. -/
theorem Leads.append {first middle last : Expectation} {ts rest : List Token}
    (hts : r.Leads first ts middle) (hrest : r.Leads middle rest last) :
    r.Leads first (ts ++ rest) last := by
  induction hts with
  | nil expected => exact hrest
  | cons ht _ ih => exact .cons ht (ih hrest)

/-- A unary operator of the registry is offered where an operand is due. It may be a connective or an
    opener. -/
theorem offers_unary {op : Operator} (h : r.unary[op.symbol]? = some op) :
    r.Offers .operand op.token := by
  cases op with
  | connective c => exact .unary h
  | opener o => exact .opener h

/-- A binary operator of the registry is offered behind an operand. In a sound registry it is a
    connective. -/
theorem offers_binary {op : Operator} (h : r.binary[op.symbol]? = some op) :
    r.Offers .operator op.token := by
  cases op with
  | connective c => exact .binary h
  | opener o => exact .regroup h

/-- Where registration checks operators, an offered token stands where it may. No opener is offered
    behind an operand then. -/
theorem Sound.stands_of_offers (hr : r.Sound) {expected : Expectation} {t : Token}
    (h : r.Offers expected t) : t.Stands expected := by
  cases h with
  | operand name => exact .operand _
  | unary hc => exact .unary (refusal?_connective_eq_none_iff.1 (hr.unary _ _ hc).2.2).1
  | opener ho => exact .opener _
  | closer => exact .closer
  | binary hc => exact .binary (refusal?_connective_eq_none_iff.1 (hr.binary _ _ hc).2.2).1
  | regroup ho =>
    obtain ⟨-, hbinary, hrefusal⟩ := hr.binary _ _ ho
    have hunary := (refusal?_opener_eq_none_iff.1 hrefusal).2
    cases hunary.symm.trans hbinary

/-- Where registration checks operators, tokens that are offered one after the other stand where they
    may. -/
theorem Sound.orderly_of_leads (hr : r.Sound) {expected last : Expectation} {ts : List Token}
    (h : r.Leads expected ts last) : Token.Orderly expected ts := by
  induction h with
  | nil expected => exact .nil expected
  | cons ht _ ih => exact .cons (hr.stands_of_offers ht) ih

end Registry

/-- What is expected behind some tokens can be told from the tokens. How they were put together plays no
    part. -/
theorem Assembly.expectation_of_takeAll? {r : Registry} {expected : Expectation} {ts : List Token}
    {a last : Assembly} (h : a.takeAll? ts = some last)
    (hts : r.Leads a.due.expectation ts expected) : last.due.expectation = expected := by
  induction ts generalizing a with
  | nil =>
    obtain rfl := Option.some.inj h
    cases hts
    rfl
  | cons t rest ih =>
    obtain ⟨next, htake, hrest⟩ := Option.bind_eq_some_iff.1 h
    cases hts with
    | cons ht htail =>
      rw [← (take?_eq_some_iff.1 htake).expectation_eq] at htail
      exact ih hrest htail

namespace Formula

variable {ι : Type}

/-- Every node has an operator that the registry has for its place, and every leaf is what its
    identifier denotes. -/
@[simp] def Over (r : Registry) : Formula ι → Prop
  | leaf _ p => p = .ofIdentifier p.name
  | unary _ c operand => r.unary[c.symbol]? = some (.connective c) ∧ operand.Over r
  | binary _ c left right =>
    r.binary[c.symbol]? = some (.connective c) ∧ left.Over r ∧ right.Over r
  | group _ o _ body => r.unary[o.symbol]? = some (.opener o) ∧ body.Over r
  | regroup _ o _ discarded body =>
    r.binary[o.symbol]? = some (.opener o) ∧ discarded.Over r ∧ body.Over r

private theorem leads_closing (r : Registry) (closed : Bool) :
    r.Leads .operator (closing closed) .operator := by
  cases closed with
  | true => exact .cons .closer (.nil _)
  | false => exact .nil _

/-- The tokens of a formula are offered one after the other, and an operator may follow. This is where
    it is used that its operators are in the registry. -/
theorem Over.leads_sourceTokens {r : Registry} {f : Formula ι} (h : f.Over r) :
    r.Leads .operand f.sourceTokens .operator := by
  induction f with
  | leaf label p =>
    have hp : p = .ofIdentifier p.name := h
    rw [sourceTokens, hp]
    exact .cons (.operand _) (.nil _)
  | unary label c operand ih => exact .cons (.unary h.1) (ih h.2)
  | binary label c left right ihl ihr => exact (ihl h.2.1).append (.cons (.binary h.1) (ihr h.2.2))
  | group label o closed body ih =>
    exact .cons (.opener h.1) ((ih h.2).append (leads_closing r closed))
  | regroup label o closed discarded body ihd ih =>
    exact (ihd h.2.1).append (.cons (.regroup h.1) ((ih h.2.2).append (leads_closing r closed)))

private theorem leads_of_leads_closing {r : Registry} {closed : Bool} {rest : List Token}
    {last : Expectation} (h : r.Leads .operator (closing closed ++ rest) last) :
    r.Leads .operator rest last := by
  cases closed with
  | true =>
    cases h with
    | cons ht hrest => exact hrest
  | false => exact h

/-- What stands in front of the rest fixes the place of every operator in it. Whether an operator is
    unary or binary is thus decided by the tokens before it. -/
theorem over_of_leads_append {r : Registry} {f : Formula ι} {rest : List Token} {last : Expectation}
    (h : r.Leads .operand (f.sourceTokens ++ rest) last) :
    f.Over r ∧ r.Leads .operator rest last := by
  induction f generalizing rest with
  | leaf label p =>
    cases h with
    | cons ht hrest =>
      refine ⟨?_, hrest⟩
      cases ht with
      | operand name => exact congrArg Proposition.ofIdentifier (Proposition.name_ofIdentifier name).symm
  | unary label c operand ih =>
    cases h with
    | cons ht hrest =>
      obtain ⟨hoperand, hbehind⟩ := ih hrest
      cases ht with
      | unary hc => exact ⟨⟨hc, hoperand⟩, hbehind⟩
  | binary label c left right ihl ihr =>
    rw [sourceTokens, List.append_assoc] at h
    obtain ⟨hleft, hmiddle⟩ := ihl h
    cases hmiddle with
    | cons ht hrest =>
      obtain ⟨hright, hbehind⟩ := ihr hrest
      cases ht with
      | binary hc => exact ⟨⟨hc, hleft, hright⟩, hbehind⟩
  | group label o closed body ih =>
    rw [sourceTokens, List.cons_append, List.append_assoc] at h
    cases h with
    | cons ht hrest =>
      obtain ⟨hbody, hbehind⟩ := ih hrest
      cases ht with
      | opener ho => exact ⟨⟨ho, hbody⟩, leads_of_leads_closing hbehind⟩
  | regroup label o closed discarded body ihd ih =>
    rw [sourceTokens, List.append_assoc, List.cons_append, List.append_assoc] at h
    obtain ⟨hdiscarded, hmiddle⟩ := ihd h
    cases hmiddle with
    | cons ht hrest =>
      obtain ⟨hbody, hbehind⟩ := ih hrest
      cases ht with
      | regroup ho => exact ⟨⟨ho, hdiscarded, hbody⟩, leads_of_leads_closing hbehind⟩

/-- A formula whose tokens are offered one after the other has only operators of the registry, each in
    its place. It is the converse of `Over.leads_sourceTokens`. -/
theorem over_of_leads_sourceTokens {r : Registry} {f : Formula ι} {last : Expectation}
    (h : r.Leads .operand f.sourceTokens last) : f.Over r := by
  rw [← List.append_nil f.sourceTokens] at h
  exact (over_of_leads_append h).1

end Formula

end Sentential
