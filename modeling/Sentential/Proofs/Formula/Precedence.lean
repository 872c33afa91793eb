import Sentential.Proofs.Formula.Tokens

namespace Sentential

/-- The connective with another precedence. -/
def Connective.mapPrecedence (m : Int → Int) (c : Connective) : Connective :=
  { c with precedence := m c.precedence }

/-- Connectives that differ still differ after their precedences have been changed one to one. -/
theorem Connective.mapPrecedence_injective {m : Int → Int} (hm : Function.Injective m) :
    Function.Injective (mapPrecedence m) := by
  intro c d h
  obtain ⟨symbol, kind, precedence, rule⟩ := c
  obtain ⟨hsymbol, hkind, hprecedence, hrule⟩ := by simpa [mapPrecedence] using h
  rw [hsymbol, hkind, hrule, hm hprecedence]

/-- The token with another precedence, if it has one. -/
def Token.mapPrecedence (m : Int → Int) : Token → Token
  | operand p => operand p
  | connective c => connective (c.mapPrecedence m)
  | opener o => opener o
  | closer => closer

end Sentential

namespace Sentential.Formula

variable {ι : Type}

/-- The precedences of the operators on the right spine, which runs through right operands and stops
    at a group or a leaf. -/
def rightPrecedences : Formula ι → List Int
  | leaf .. => []
  | unary _ c operand => c.precedence :: operand.rightPrecedences
  | binary _ c _ right => c.precedence :: right.rightPrecedences
  | group .. => []
  | regroup .. => []

/-- The precedences of the operators on the left spine, which runs through the left operands of
    binary operators. -/
def leftPrecedences : Formula ι → List Int
  | leaf .. => []
  | unary .. => []
  | binary _ c left _ => c.precedence :: left.leftPrecedences
  | group .. => []
  | regroup .. => []

/-- No binary operator has a looser operator on the right spine of its left operand. -/
def LeftBound : Formula ι → Prop
  | leaf .. => True
  | unary _ _ operand => operand.LeftBound
  | binary _ c left right =>
    (∀ q ∈ left.rightPrecedences, c.precedence ≤ q) ∧ left.LeftBound ∧ right.LeftBound
  | group _ _ _ body => body.LeftBound
  | regroup _ _ _ discarded body => discarded.LeftBound ∧ body.LeftBound

/-- All binary operators on the left spine of a right operand bind tighter than the operator that it
    belongs to. -/
def RightBound : Formula ι → Prop
  | leaf .. => True
  | unary _ c operand => (∀ q ∈ operand.leftPrecedences, c.precedence < q) ∧ operand.RightBound
  | binary _ c left right =>
    (∀ q ∈ right.leftPrecedences, c.precedence < q) ∧ left.RightBound ∧ right.RightBound
  | group _ _ _ body => body.RightBound
  | regroup _ _ _ discarded body => discarded.RightBound ∧ body.RightBound

/-- Every group is closed. -/
def AllClosed : Formula ι → Prop
  | leaf .. => True
  | unary _ _ operand => operand.AllClosed
  | binary _ _ left right => left.AllClosed ∧ right.AllClosed
  | group _ _ closed body => closed = true ∧ body.AllClosed
  | regroup _ _ closed discarded body => closed = true ∧ discarded.AllClosed ∧ body.AllClosed

/-- Open groups lie on the way from the root through right operands and bodies, where no group is
    closed. -/
def OpenAtEnd : Formula ι → Prop
  | leaf .. => True
  | unary _ _ operand => operand.OpenAtEnd
  | binary _ _ left right => left.AllClosed ∧ right.OpenAtEnd
  | group _ _ closed body => if closed then body.AllClosed else body.OpenAtEnd
  | regroup _ _ closed discarded body =>
    discarded.AllClosed ∧ if closed then body.AllClosed else body.OpenAtEnd

/-- No opener stands behind an operand. -/
def NoRegroup : Formula ι → Prop
  | leaf .. => True
  | unary _ _ operand => operand.NoRegroup
  | binary _ _ left right => left.NoRegroup ∧ right.NoRegroup
  | group _ _ _ body => body.NoRegroup
  | regroup .. => False

/-- A tree that groups its tokens as their precedences ask for, ties to the left. -/
structure RespectsPrecedence (f : Formula ι) : Prop where
  leftBound : f.LeftBound
  rightBound : f.RightBound
  openAtEnd : f.OpenAtEnd
  noRegroup : f.NoRegroup

instance decidableLeftBound : (f : Formula ι) → Decidable f.LeftBound
  | leaf .. => inferInstanceAs (Decidable True)
  | unary _ _ operand => decidableLeftBound operand
  | binary _ _ left right =>
    have := decidableLeftBound left
    have := decidableLeftBound right
    inferInstanceAs (Decidable (_ ∧ _ ∧ _))
  | group _ _ _ body => decidableLeftBound body
  | regroup _ _ _ discarded body =>
    have := decidableLeftBound discarded
    have := decidableLeftBound body
    inferInstanceAs (Decidable (_ ∧ _))

instance decidableRightBound : (f : Formula ι) → Decidable f.RightBound
  | leaf .. => inferInstanceAs (Decidable True)
  | unary _ _ operand =>
    have := decidableRightBound operand
    inferInstanceAs (Decidable (_ ∧ _))
  | binary _ _ left right =>
    have := decidableRightBound left
    have := decidableRightBound right
    inferInstanceAs (Decidable (_ ∧ _ ∧ _))
  | group _ _ _ body => decidableRightBound body
  | regroup _ _ _ discarded body =>
    have := decidableRightBound discarded
    have := decidableRightBound body
    inferInstanceAs (Decidable (_ ∧ _))

instance decidableAllClosed : (f : Formula ι) → Decidable f.AllClosed
  | leaf .. => inferInstanceAs (Decidable True)
  | unary _ _ operand => decidableAllClosed operand
  | binary _ _ left right =>
    have := decidableAllClosed left
    have := decidableAllClosed right
    inferInstanceAs (Decidable (_ ∧ _))
  | group _ _ _ body =>
    have := decidableAllClosed body
    inferInstanceAs (Decidable (_ ∧ _))
  | regroup _ _ _ discarded body =>
    have := decidableAllClosed discarded
    have := decidableAllClosed body
    inferInstanceAs (Decidable (_ ∧ _ ∧ _))

instance decidableOpenAtEnd : (f : Formula ι) → Decidable f.OpenAtEnd
  | leaf .. => inferInstanceAs (Decidable True)
  | unary _ _ operand => decidableOpenAtEnd operand
  | binary _ _ _ right =>
    have := decidableOpenAtEnd right
    inferInstanceAs (Decidable (_ ∧ _))
  | group _ _ true body => inferInstanceAs (Decidable body.AllClosed)
  | group _ _ false body => decidableOpenAtEnd body
  | regroup _ _ true discarded body =>
    inferInstanceAs (Decidable (discarded.AllClosed ∧ body.AllClosed))
  | regroup _ _ false _ body =>
    have := decidableOpenAtEnd body
    inferInstanceAs (Decidable (_ ∧ _))

instance decidableNoRegroup : (f : Formula ι) → Decidable f.NoRegroup
  | leaf .. => inferInstanceAs (Decidable True)
  | unary _ _ operand => decidableNoRegroup operand
  | binary _ _ left right =>
    have := decidableNoRegroup left
    have := decidableNoRegroup right
    inferInstanceAs (Decidable (_ ∧ _))
  | group _ _ _ body => decidableNoRegroup body
  | regroup .. => inferInstanceAs (Decidable False)

instance (f : Formula ι) : Decidable f.RespectsPrecedence :=
  decidable_of_iff (f.LeftBound ∧ f.RightBound ∧ f.OpenAtEnd ∧ f.NoRegroup)
    ⟨fun ⟨hleft, hright, hopen, hregroup⟩ => ⟨hleft, hright, hopen, hregroup⟩,
      fun ⟨hleft, hright, hopen, hregroup⟩ => ⟨hleft, hright, hopen, hregroup⟩⟩

/-- Where every group is closed there is none that could be open in a wrong place. The converse fails,
    because the last groups may be open. -/
theorem AllClosed.openAtEnd {f : Formula ι} (h : f.AllClosed) : f.OpenAtEnd := by
  induction f with
  | leaf label p => trivial
  | unary label c operand ih => exact ih h
  | binary label c left right _ ih => exact ⟨h.1, ih h.2⟩
  | group label o closed body _ =>
    obtain ⟨rfl, hbody⟩ := h
    exact hbody
  | regroup label o closed discarded body _ _ =>
    obtain ⟨rfl, hdiscarded, hbody⟩ := h
    exact ⟨hdiscarded, hbody⟩

/-- Numbering a formula leaves the precedences on its right spine alone. They are what an operator
    behind the formula is compared with. -/
theorem rightPrecedences_number (numbering : Numbering) (f : Formula ι) :
    (f.number numbering).1.rightPrecedences = f.rightPrecedences := by
  induction f generalizing numbering with
  | leaf label p => rfl
  | unary label c operand ih => simp [number, rightPrecedences, ih]
  | binary label c left right _ ih => simp [number, rightPrecedences, ih]
  | group label o closed body _ => rfl
  | regroup label o closed discarded body _ _ => rfl

/-- Numbering a formula neither closes nor opens a group. Whether all are closed can be told from any
    numbering of it. -/
theorem allClosed_number {numbering : Numbering} {f : Formula ι} :
    (f.number numbering).1.AllClosed ↔ f.AllClosed := by
  induction f generalizing numbering with
  | leaf label p => rfl
  | unary label c operand ih => exact ih
  | binary label c left right ihl ihr => simp [number, AllClosed, ihl, ihr]
  | group label o closed body ih => simp [number, AllClosed, ih]
  | regroup label o closed discarded body ihd ih => simp [number, AllClosed, ihd, ih]

/-- An operator on the left spine is one of the tokens. A bound for all tokens therefore bounds the left
    spine. -/
theorem exists_mem_sourceTokens_of_mem_leftPrecedences {f : Formula ι} {q : Int}
    (h : q ∈ f.leftPrecedences) : ∃ c, .connective c ∈ f.sourceTokens ∧ c.precedence = q := by
  induction f with
  | binary label c left right ih _ =>
    rcases List.mem_cons.1 h with rfl | hleft
    · exact ⟨c, by simp [sourceTokens], rfl⟩
    · obtain ⟨other, hmem, hq⟩ := ih hleft
      exact ⟨other, by simp [sourceTokens, hmem], hq⟩
  | _ => cases h

/-- The formula with other precedences. -/
@[simp] def mapPrecedence (m : Int → Int) : Formula ι → Formula ι
  | leaf label p => leaf label p
  | unary label c operand => unary label (c.mapPrecedence m) (operand.mapPrecedence m)
  | binary label c left right =>
    binary label (c.mapPrecedence m) (left.mapPrecedence m) (right.mapPrecedence m)
  | group label o closed body => group label o closed (body.mapPrecedence m)
  | regroup label o closed discarded body =>
    regroup label o closed (discarded.mapPrecedence m) (body.mapPrecedence m)

/-- Changing precedences changes the tokens one by one, and none of their texts. -/
theorem sourceTokens_mapPrecedence (m : Int → Int) (f : Formula ι) :
    (f.mapPrecedence m).sourceTokens = f.sourceTokens.map (Token.mapPrecedence m) := by
  induction f with
  | leaf label p => rfl
  | unary label c operand ih => simp [mapPrecedence, sourceTokens, Token.mapPrecedence, ih]
  | binary label c left right ihl ihr =>
    simp [mapPrecedence, sourceTokens, Token.mapPrecedence, ihl, ihr]
  | group label o closed body ih =>
    cases closed <;> simp [mapPrecedence, sourceTokens, Token.mapPrecedence, closing, ih]
  | regroup label o closed discarded body ihd ih =>
    cases closed <;> simp [mapPrecedence, sourceTokens, Token.mapPrecedence, closing, ihd, ih]

/-- Precedences can be changed before or after the labels are taken off. Labels and precedences have
    nothing to do with each other. -/
theorem unlabelled_mapPrecedence (m : Int → Int) (f : Formula ι) :
    (f.mapPrecedence m).unlabelled = f.unlabelled.mapPrecedence m := by
  unfold unlabelled
  induction f with
  | leaf label p => rfl
  | unary label c operand ih => simp [mapPrecedence, relabel, ih]
  | binary label c left right ihl ihr => simp [mapPrecedence, relabel, ihl, ihr]
  | group label o closed body ih => simp [mapPrecedence, relabel, ih]
  | regroup label o closed discarded body ihd ih => simp [mapPrecedence, relabel, ihd, ih]

/-- Formulas that differ still differ after their precedences have been changed one to one. -/
theorem mapPrecedence_injective {m : Int → Int} (hm : Function.Injective m) :
    Function.Injective (mapPrecedence m : Formula ι → Formula ι) := by
  have hconnective := Connective.mapPrecedence_injective hm
  intro f
  induction f with
  | leaf label p => intro g h; cases g <;> simp_all [mapPrecedence]
  | unary label c operand ih =>
    intro g h
    cases g with
    | unary other d body =>
      obtain ⟨rfl, hc, hbody⟩ := by simpa [mapPrecedence] using h
      rw [hconnective hc, ih hbody]
    | _ => cases h
  | binary label c left right ihl ihr =>
    intro g h
    cases g with
    | binary other d first second =>
      obtain ⟨rfl, hc, hfirst, hsecond⟩ := by simpa [mapPrecedence] using h
      rw [hconnective hc, ihl hfirst, ihr hsecond]
    | _ => cases h
  | group label o closed body ih =>
    intro g h
    cases g with
    | group other p shut inner =>
      obtain ⟨rfl, rfl, rfl, hinner⟩ := by simpa [mapPrecedence] using h
      rw [ih hinner]
    | _ => cases h
  | regroup label o closed discarded body ihd ih =>
    intro g h
    cases g with
    | regroup other p shut first inner =>
      obtain ⟨rfl, rfl, rfl, hfirst, hinner⟩ := by simpa [mapPrecedence] using h
      rw [ihd hfirst, ih hinner]
    | _ => cases h

private theorem rightPrecedences_mapPrecedence (m : Int → Int) (f : Formula ι) :
    (f.mapPrecedence m).rightPrecedences = f.rightPrecedences.map m := by
  induction f with
  | leaf label p => rfl
  | unary label c operand ih => simp [mapPrecedence, rightPrecedences, Connective.mapPrecedence, ih]
  | binary label c left right _ ih =>
    simp [mapPrecedence, rightPrecedences, Connective.mapPrecedence, ih]
  | group label o closed body _ => rfl
  | regroup label o closed discarded body _ _ => rfl

private theorem leftPrecedences_mapPrecedence (m : Int → Int) (f : Formula ι) :
    (f.mapPrecedence m).leftPrecedences = f.leftPrecedences.map m := by
  induction f with
  | leaf label p => rfl
  | unary label c operand _ => rfl
  | binary label c left right ih _ =>
    simp [mapPrecedence, leftPrecedences, Connective.mapPrecedence, ih]
  | group label o closed body _ => rfl
  | regroup label o closed discarded body _ _ => rfl

private theorem allClosed_mapPrecedence {m : Int → Int} {f : Formula ι} :
    (f.mapPrecedence m).AllClosed ↔ f.AllClosed := by
  induction f with
  | leaf label p => rfl
  | unary label c operand ih => exact ih
  | binary label c left right ihl ihr => simp [mapPrecedence, AllClosed, ihl, ihr]
  | group label o closed body ih => simp [mapPrecedence, AllClosed, ih]
  | regroup label o closed discarded body ihd ih => simp [mapPrecedence, AllClosed, ihd, ih]

/-- Only the order of the precedences matters to a tree. If a change keeps that order, a tree that
    respects the old precedences respects the new ones. -/
theorem RespectsPrecedence.mapPrecedence {m : Int → Int} (hm : ∀ {a b : Int}, a < b → m a < m b)
    {f : Formula ι} (h : f.RespectsPrecedence) : (f.mapPrecedence m).RespectsPrecedence := by
  have hle : ∀ {a b : Int}, a ≤ b → m a ≤ m b := by
    intro a b hab
    rcases Int.lt_or_eq_of_le hab with hlt | rfl
    · exact Int.le_of_lt (hm hlt)
    · exact Int.le_refl _
  obtain ⟨hleft, hright, hopen, hregroup⟩ := h
  induction f with
  | leaf label p => exact ⟨trivial, trivial, trivial, trivial⟩
  | unary label c operand ih =>
    obtain ⟨hbound, hoperand⟩ := hright
    obtain ⟨hl, hr, ho, hn⟩ := ih hleft hoperand hopen hregroup
    refine ⟨hl, ⟨?_, hr⟩, ho, hn⟩
    rw [leftPrecedences_mapPrecedence, List.forall_mem_map]
    exact fun q hq => hm (hbound q hq)
  | binary label c left right ihl ihr =>
    obtain ⟨hlbound, hll, hlr⟩ := hleft
    obtain ⟨hrbound, hrl, hrr⟩ := hright
    obtain ⟨hclosed, hor⟩ := hopen
    obtain ⟨hnl, hnr⟩ := hregroup
    obtain ⟨hl, hr, _, hn⟩ := ihl hll hrl hclosed.openAtEnd hnl
    obtain ⟨hl', hr', ho', hn'⟩ := ihr hlr hrr hor hnr
    refine ⟨⟨?_, hl, hl'⟩, ⟨?_, hr, hr'⟩, ⟨allClosed_mapPrecedence.2 hclosed, ho'⟩, hn, hn'⟩
    · rw [rightPrecedences_mapPrecedence, List.forall_mem_map]
      exact fun q hq => hle (hlbound q hq)
    · rw [leftPrecedences_mapPrecedence, List.forall_mem_map]
      exact fun q hq => hm (hrbound q hq)
  | group label o closed body ih =>
    cases closed with
    | true =>
      obtain ⟨hl, hr, _, hn⟩ := ih hleft hright (AllClosed.openAtEnd hopen) hregroup
      exact ⟨hl, hr, allClosed_mapPrecedence.2 hopen, hn⟩
    | false =>
      obtain ⟨hl, hr, ho, hn⟩ := ih hleft hright hopen hregroup
      exact ⟨hl, hr, ho, hn⟩
  | regroup label o closed discarded body _ _ => exact hregroup.elim

end Sentential.Formula
