import Sentential.Proofs.Parsing.Depth
import Sentential.Proofs.Parsing.Plain

namespace Sentential

/-- The grammar of formulas over some operators: an identifier, a unary operator in front of a
    formula, a group that is closed or stays open, and a binary operator between two formulas. It is
    ambiguous. -/
inductive Derivable (known : Operator → Prop) : List Token → Prop where
  | identifier (name : String) : Derivable known [.operand (.ofIdentifier name)]
  | unary {c : Connective} {ts : List Token} (hc : known (.connective c)) (hkind : c.kind = .unary)
    (h : Derivable known ts) : Derivable known (.connective c :: ts)
  | closed {o : Opener} {ts : List Token} (ho : known (.opener o)) (h : Derivable known ts) :
    Derivable known (.opener o :: (ts ++ [.closer]))
  | opened {o : Opener} {ts : List Token} (ho : known (.opener o)) (h : Derivable known ts) :
    Derivable known (.opener o :: ts)
  | binary {c : Connective} {left right : List Token} (hc : known (.connective c))
    (hkind : c.kind = .binary) (hleft : Derivable known left) (hright : Derivable known right) :
    Derivable known (left ++ .connective c :: right)

namespace Registry

variable {r : Registry}

/-- A unary operator that the registry has is found among the unary ones. -/
theorem Sound.unary_of_knows (hr : r.Sound) {op : Operator} (h : r.Knows op)
    (hkind : op.kind = .unary) : r.unary[op.symbol]? = some op := by
  rcases h with hunary | hbinary
  · exact hunary
  · cases hkind.symm.trans (hr.binary _ _ hbinary).2.1

/-- A binary operator that the registry has is found among the binary ones. -/
theorem Sound.binary_of_knows (hr : r.Sound) {op : Operator} (h : r.Knows op)
    (hkind : op.kind = .binary) : r.binary[op.symbol]? = some op := by
  rcases h with hunary | hbinary
  · cases hkind.symm.trans (hr.unary _ _ hunary).2.1
  · exact hbinary

/-- All openers of a registry stand in front of operands. Registration refuses the other ones. -/
theorem Sound.kind_of_knows_opener (hr : r.Sound) {o : Opener} (h : r.Knows (.opener o)) :
    o.kind = .unary := by
  rcases h with hunary | hbinary
  · exact (refusal?_opener_eq_none_iff.1 (hr.unary _ _ hunary).2.2).2
  · exact (refusal?_opener_eq_none_iff.1 (hr.binary _ _ hbinary).2.2).2

end Registry

namespace Derivable

/-- In a derivable sequence operands and operators stand where they are offered. An operator may follow
    at its end. -/
theorem leads {r : Registry} (hr : r.Sound) {ts : List Token} (h : Derivable r.Knows ts) :
    r.Leads .operand ts .operator := by
  induction h with
  | identifier name => exact .cons (.operand name) (.nil _)
  | unary hc hkind _ ih => exact .cons (.unary (hr.unary_of_knows hc hkind)) ih
  | closed ho _ ih =>
    have hopener := hr.unary_of_knows ho (hr.kind_of_knows_opener ho)
    exact .cons (.opener hopener) (ih.append (.cons .closer (.nil _)))
  | opened ho _ ih => exact .cons (.opener (hr.unary_of_knows ho (hr.kind_of_knows_opener ho))) ih
  | binary hc hkind _ _ ihl ihr =>
    exact ihl.append (.cons (.binary (hr.binary_of_knows hc hkind)) ihr)

/-- However a sequence is derived, each of its right parentheses closes a group of its own, so that no
    group around it is closed. It is stated for any number of groups around, which the induction needs. -/
theorem exists_depth {known : Operator → Prop} {ts : List Token} (h : Derivable known ts)
    (depth : Nat) : ∃ behind, ts.foldlM Token.depth? depth = some behind ∧ depth ≤ behind := by
  induction h generalizing depth with
  | identifier name => exact ⟨depth, rfl, Nat.le_refl _⟩
  | unary _ _ _ ih => exact ih depth
  | closed _ _ ih =>
    obtain ⟨behind, hbody, hle⟩ := ih (depth + 1)
    have hopen : behind ≠ 0 := by omega
    refine ⟨behind - 1, ?_, by omega⟩
    rw [List.foldlM_cons, Token.depth?, Option.bind_eq_bind, Option.bind_some, List.foldlM_append,
      hbody]
    simp [Token.depth?, hopen]
  | opened _ _ ih =>
    obtain ⟨behind, hbody, hle⟩ := ih (depth + 1)
    exact ⟨behind, hbody, by omega⟩
  | binary _ _ _ _ ihl ihr =>
    obtain ⟨middle, hleft, hmiddle⟩ := ihl depth
    obtain ⟨behind, hright, hbehind⟩ := ihr middle
    refine ⟨behind, ?_, Nat.le_trans hmiddle hbehind⟩
    rw [List.foldlM_append, hleft]
    exact hright

end Derivable

/-- The tree that is read is itself a derivation of its tokens. It is one of many, since the grammar is
    ambiguous. -/
theorem Formula.Over.derivable {ι : Type} {r : Registry} (hr : r.Sound) {f : Formula ι}
    (h : f.Over r) : Derivable r.Knows f.sourceTokens := by
  induction f with
  | leaf label p =>
    have hp : p = .ofIdentifier p.name := h
    rw [sourceTokens, hp]
    exact .identifier _
  | unary label c operand ih => exact .unary (.inl h.1) (hr.unary _ _ h.1).2.1 (ih h.2)
  | binary label c left right ihl ihr =>
    exact .binary (.inr h.1) (hr.binary _ _ h.1).2.1 (ihl h.2.1) (ihr h.2.2)
  | group label o closed body ih =>
    cases closed with
    | true => exact .closed (.inl h.1) (ih h.2)
    | false =>
      rw [sourceTokens, closing, if_neg Bool.false_ne_true, List.append_nil]
      exact .opened (.inl h.1) (ih h.2)
  | regroup label o closed discarded body _ _ =>
    -- No opener is registered for the place behind an operand.
    cases (hr.kind_of_knows_opener (.inr h.1)).symm.trans (hr.binary _ _ h.1).2.1

section

variable {M : Type → Type} [PrefixMap M] [LawfulPrefixMap M] {r : Registry}

/-- The texts that are read as a formula are those that spell a sequence of the grammar. It holds under
    any registry of single characters, of which the standard one is a case. -/
theorem exists_parseWith_eq_ok_iff (hplain : r.Plain) (hr : r.Sound) {text : List Char} :
    (∃ p, parseWith (Dialect.ofRegistry r : Dialect M) text = .ok p) ↔
      ∃ ts, Spells r.Knows text ts [] ∧ Derivable r.Knows ts := by
  constructor
  · rintro ⟨p, hp⟩
    obtain ⟨hspells, hleads⟩ := reads_of_parseWith hr hp
    exact ⟨_, hspells, (Formula.over_of_leads_sourceTokens hleads).derivable hr⟩
  · rintro ⟨ts, hspells, hderivable⟩
    have hleads := hderivable.leads hr
    -- Operands and operators alternate and no right parenthesis is without its group: nothing else
    -- can stop the reading.
    obtain ⟨behind, hdepth, -⟩ := hderivable.exists_depth 0
    have hgroups := Assembly.map_groups_takeAll? (a := .start) (hr.orderly_of_leads hleads)
    obtain ⟨last, htaken, -⟩ := Option.map_eq_some_iff.1 (hgroups.trans hdepth)
    have hexpectation := Assembly.expectation_of_takeAll? htaken hleads
    cases hdue : last.due with
    | operand =>
      rw [hdue] at hexpectation
      cases hexpectation
    | operator left => exact ⟨_, parseWith_of_spells hplain hr hspells hleads htaken hdue⟩

end

/-- A text is a formula in the standard dialect if it spells a sequence of tokens that the grammar
    derives from the standard operators, and only then. Neither precedences nor the way in which reading
    proceeds are mentioned on that side. -/
theorem exists_parse_eq_ok_iff (text : List Char) :
    (∃ p, parse text = .ok p) ↔
      ∃ ts, Spells (· ∈ Operator.standard) text ts [] ∧ Derivable (· ∈ Operator.standard) ts := by
  have hknows : Registry.standard.Knows = (· ∈ Operator.standard) :=
    funext fun op => propext Registry.knows_standard_iff
  rw [← hknows]
  exact exists_parseWith_eq_ok_iff Registry.plain_standard Registry.sound_standard

end Sentential
