import Sentential.Proofs.Parsing.Assembly

namespace Sentential

namespace Formula

variable {ι : Type}

/-- What stands where an operand has just been read: no operator can reach into it. -/
structure Settled (f : Formula ι) : Prop where
  respectsPrecedence : f.RespectsPrecedence
  allClosed : f.AllClosed
  leftPrecedences_eq : f.leftPrecedences = []
  rightPrecedences_eq : f.rightPrecedences = []

private theorem settled_leaf (label : ι) (p : Proposition) : (leaf label p).Settled :=
  ⟨⟨trivial, trivial, trivial, trivial⟩, trivial, rfl, rfl⟩

end Formula

namespace Frame

/-- The precedences of the binary operators that stand on a left spine, whatever the right operand
    will be. -/
def leftPrecedences : Frame → List Int
  | unary .. => []
  | binary _ c left => c.precedence :: left.leftPrecedences
  | group .. => []
  | regroup .. => []

/-- The left operand is whole, and nothing on the right of it is looser than the operator. -/
def Bound : Frame → Prop
  | unary .. => True
  | binary _ c left =>
    left.RespectsPrecedence ∧ left.AllClosed ∧ ∀ q ∈ left.rightPrecedences, c.precedence ≤ q
  | group .. => True
  | regroup .. => False

private theorem leftPrecedences_fill (closed : Bool) (operand : Formula NodeId) (frame : Frame) :
    (frame.fill closed operand).leftPrecedences = frame.leftPrecedences := by
  cases frame <;> rfl

private theorem respectsPrecedence_fill {frame : Frame} (hframe : frame.Bound)
    {operand : Formula NodeId} (h : operand.RespectsPrecedence)
    (hleft : ∀ q ∈ operand.leftPrecedences, frame.precedence < q) :
    (frame.fill false operand).RespectsPrecedence := by
  obtain ⟨hl, hr, hopen, hregroup⟩ := h
  cases frame with
  | unary id c => exact ⟨hl, ⟨hleft, hr⟩, hopen, hregroup⟩
  | binary id c left =>
    obtain ⟨hrespects, hclosed, hright⟩ := hframe
    exact ⟨⟨hright, hrespects.leftBound, hl⟩, ⟨hleft, hrespects.rightBound, hr⟩, ⟨hclosed, hopen⟩,
      ⟨hrespects.noRegroup, hregroup⟩⟩
  | group id o => exact ⟨hl, hr, hopen, hregroup⟩
  | regroup id o discarded => exact hframe.elim

private theorem allClosed_fill {frame : Frame} (hframe : frame.Bound) (hgroup : frame.isGroup = false)
    {operand : Formula NodeId} (h : operand.AllClosed) : (frame.fill false operand).AllClosed := by
  cases frame with
  | unary id c => exact h
  | binary id c left => exact ⟨hframe.2.1, h⟩
  | group id o => cases hgroup
  | regroup id o discarded => cases hgroup

private theorem settled_fill {frame : Frame} (hframe : frame.Bound) (hgroup : frame.isGroup = true)
    {operand : Formula NodeId} (h : operand.RespectsPrecedence) (hclosed : operand.AllClosed) :
    (frame.fill true operand).Settled := by
  cases frame with
  | unary id c => cases hgroup
  | binary id c left => cases hgroup
  | group id o =>
    exact ⟨⟨h.leftBound, h.rightBound, hclosed, h.noRegroup⟩, ⟨rfl, hclosed⟩, rfl, rfl⟩
  | regroup id o discarded => exact hframe.elim

/-- A connective that is completed comes first on the right spine. -/
private theorem rightPrecedences_fill {frame : Frame} (hgroup : frame.isGroup = false)
    (operand : Formula NodeId) :
    (frame.fill false operand).rightPrecedences =
      frame.precedence :: operand.rightPrecedences := by
  cases frame with
  | unary id c => rfl
  | binary id c left => rfl
  | group id o => cases hgroup
  | regroup id o discarded => cases hgroup

end Frame

namespace Spine

/-- Each operator has a left operand that fits it and binds tighter than the operator above. -/
def Bound : Spine → Prop
  | [] => True
  | frame :: rest =>
    frame.Bound ∧ (∀ q ∈ frame.leftPrecedences, floor rest < q) ∧ Bound rest

/-- A connective takes a left operand that respects precedence. What it climbs over binds at least as
    tightly, and what it stops under less tightly. -/
theorem bound_climb {c : Connective} (hc : openPrecedence < c.precedence) (id : NodeId)
    {spine : Spine} (hspine : spine.Bound) {operand : Formula NodeId}
    (hoperand : operand.RespectsPrecedence) (hclosed : operand.AllClosed)
    (hleft : ∀ q ∈ operand.leftPrecedences, spine.floor < q)
    (hright : ∀ q ∈ operand.rightPrecedences, c.precedence ≤ q) :
    Bound (.binary id c (spine.climb c.precedence operand).1 ::
      (spine.climb c.precedence operand).2) := by
  induction spine generalizing operand with
  | nil =>
    have hwhole : wholePrecedence < c.precedence := Int.lt_trans (by decide) hc
    exact ⟨⟨hoperand, hclosed, hright⟩, List.forall_mem_cons.2 ⟨hwhole, hleft⟩, trivial⟩
  | cons frame rest ih =>
    rw [climb]
    split
    · rename_i hclimb
      obtain ⟨hframe, habove, hrest⟩ := hspine
      -- An open group has a lower precedence than any connective, so it is not climbed over.
      have hgroup : frame.isGroup = false :=
        Frame.isGroup_of_openPrecedence_lt (Int.lt_of_lt_of_le hc hclimb)
      refine ih hrest (frame.respectsPrecedence_fill hframe hoperand hleft)
        (frame.allClosed_fill hframe hgroup hclosed) ?_ ?_
      · rwa [frame.leftPrecedences_fill]
      · rw [frame.rightPrecedences_fill hgroup]
        exact List.forall_mem_cons.2 ⟨hclimb, hright⟩
    · rename_i hstop
      exact ⟨⟨hoperand, hclosed, hright⟩,
        List.forall_mem_cons.2 ⟨Int.not_le.1 hstop, hleft⟩, hspine⟩

/-- A right parenthesis makes an operand of all that its group contains. No operator behind it reaches
    into the group. -/
theorem settled_of_close? {spine outer : Spine} (hspine : spine.Bound)
    {operand group : Formula NodeId} (hoperand : operand.RespectsPrecedence)
    (hclosed : operand.AllClosed) (hleft : ∀ q ∈ operand.leftPrecedences, spine.floor < q)
    (h : spine.close? operand = some (group, outer)) : outer.Bound ∧ group.Settled := by
  induction spine generalizing operand with
  | nil => cases h
  | cons frame rest ih =>
    obtain ⟨hframe, habove, hrest⟩ := hspine
    rw [close?] at h
    cases hgroup : frame.isGroup with
    | true =>
      obtain ⟨rfl, rfl⟩ := by simpa [hgroup] using h
      exact ⟨hrest, frame.settled_fill hframe hgroup hoperand hclosed⟩
    | false =>
      refine ih hrest (frame.respectsPrecedence_fill hframe hoperand hleft)
        (frame.allClosed_fill hframe hgroup hclosed) ?_ (by simpa [hgroup] using h)
      rwa [frame.leftPrecedences_fill]

private theorem respectsPrecedence_complete {spine : Spine} (hspine : spine.Bound)
    {operand : Formula NodeId} (hoperand : operand.RespectsPrecedence)
    (hleft : ∀ q ∈ operand.leftPrecedences, spine.floor < q) :
    (spine.complete operand).RespectsPrecedence := by
  induction spine generalizing operand with
  | nil => exact hoperand
  | cons frame rest ih =>
    obtain ⟨hframe, habove, hrest⟩ := hspine
    refine ih hrest (frame.respectsPrecedence_fill hframe hoperand hleft) ?_
    rwa [frame.leftPrecedences_fill]

end Spine

namespace Assembly

/-- What every token keeps when it is put in its place. -/
structure Bound (a : Assembly) : Prop where
  spine : a.spine.Bound
  settled : ∀ left, a.due = .operator left → left.Settled

/-- Before any token there is nothing on the spine. -/
theorem bound_start : start.Bound :=
  ⟨trivial, fun _ hdue => by cases hdue⟩

/-- Every token that stands where it may keeps the operators on the spine bound as they should be. There
    is one case for each way of taking a token. -/
theorem Bound.takes {a next : Assembly} {t : Token} (ha : a.Bound)
    (ht : t.Stands a.due.expectation) (h : a.Takes t next) : next.Bound := by
  obtain ⟨hspine, hsettled⟩ := ha
  cases h with
  | operand numbering spine p =>
    refine ⟨hspine, fun left hdue => ?_⟩
    cases hdue
    exact Formula.settled_leaf _ p
  | unary numbering spine c =>
    exact ⟨⟨trivial, List.forall_mem_nil _, hspine⟩, fun _ hdue => by cases hdue⟩
  | group numbering spine o =>
    exact ⟨⟨trivial, List.forall_mem_nil _, hspine⟩, fun _ hdue => by cases hdue⟩
  | closer numbering hclose =>
    obtain ⟨hrespects, hclosed, hleft, -⟩ := hsettled _ rfl
    obtain ⟨houter, hgroup⟩ := Spine.settled_of_close? hspine hrespects hclosed (by simp [hleft]) hclose
    refine ⟨houter, fun left hdue => ?_⟩
    cases hdue
    exact hgroup
  | binary numbering spine left c =>
    obtain ⟨hrespects, hclosed, hleft, hright⟩ := hsettled _ rfl
    cases ht with
    | binary hc =>
      exact ⟨Spine.bound_climb hc _ hspine hrespects hclosed (by simp [hleft]) (by simp [hright]),
        fun _ hdue => by cases hdue⟩
  | regroup numbering spine left o => cases ht

end Assembly

/-- What a sound dialect reads respects the precedences of its operators. It needs no more than that
    they bind tighter than open groups. -/
theorem respectsPrecedence_of_parseWith {M : Type → Type} [PrefixMap M] {d : Dialect M}
    (hd : d.Sound) {text : List Char} {p : Parsed} (h : parseWith d text = .ok p) :
    p.formula.RespectsPrecedence := by
  obtain ⟨-, last, left, htake, hdue, rfl⟩ := parseWith_eq_ok_iff.1 h
  have horderly : Token.Orderly Assembly.start.due.expectation (d.scan text).tokens :=
    d.orderly_scan hd text
  have hlast : last.Bound :=
    Assembly.invariant_of_takeAll? Assembly.Bound.takes horderly Assembly.bound_start htake
  have hsettled := hlast.settled left hdue
  exact Spine.respectsPrecedence_complete hlast.spine hsettled.respectsPrecedence
    (by simp [hsettled.leftPrecedences_eq])

namespace Assembly

variable {ι : Type}

/-- Reading back: a tree that respects precedence is what its tokens are put together to, under any
    spine whose operators yield to those on its left spine. The induction is on the tree, which is why
    it is stated for any spine. -/
theorem takeAll?_sourceTokens {f : Formula ι} (hf : f.RespectsPrecedence)
    (hpositive : ∀ c, .connective c ∈ f.sourceTokens → openPrecedence < c.precedence)
    (numbering : Numbering) {spine : Spine} (hfloor : ∀ q ∈ f.leftPrecedences, spine.floor < q) :
    takeAll? ⟨numbering, spine, .operand⟩ f.sourceTokens =
      some ⟨(f.number numbering).2, ((f.number numbering).1.descend spine).1,
        .operator ((f.number numbering).1.descend spine).2⟩ := by
  obtain ⟨hleft, hright, hopen, hregroup⟩ := hf
  induction f generalizing numbering spine with
  | leaf label p => rfl
  | unary label c operand ih =>
    obtain ⟨hbound, hoperand⟩ := hright
    have hmem : ∀ d, .connective d ∈ operand.sourceTokens → openPrecedence < d.precedence :=
      fun d hd => hpositive d (List.mem_cons_of_mem _ hd)
    exact ih hmem _ hbound hleft hoperand hopen hregroup
  | binary label c left right ihl ihr =>
    obtain ⟨htight, hll, hlr⟩ := hleft
    obtain ⟨hbound, hrl, hrr⟩ := hright
    obtain ⟨hclosed, hopenRight⟩ := hopen
    obtain ⟨hnl, hnr⟩ := hregroup
    obtain ⟨hc, hfloorLeft⟩ := List.forall_mem_cons.1 hfloor
    have hfirst := ihl (fun d hd => hpositive d (List.mem_append_left _ hd)) numbering hfloorLeft
      hll hrl hclosed.openAtEnd hnl
    -- The operator finds the whole left operand, whose own operators it climbs over.
    have hclimb := Formula.climb_descend (Formula.allClosed_number.2 hclosed)
      ((Formula.rightPrecedences_number numbering left).symm ▸ htight) spine
    rw [Spine.climb_of_floor_lt hc] at hclimb
    have htakes := Takes.binary (left.number numbering).2 ((left.number numbering).1.descend spine).1
      ((left.number numbering).1.descend spine).2 c
    rw [hclimb] at htakes
    rw [Formula.sourceTokens, takeAll?_append, hfirst, Option.bind_some, takeAll?,
      take?_eq_some_iff.2 htakes, Option.bind_some]
    have hmem : ∀ d, .connective d ∈ right.sourceTokens → openPrecedence < d.precedence :=
      fun d hd => hpositive d (List.mem_append_right _ (List.mem_cons_of_mem _ hd))
    exact ihr hmem _ hbound hlr hrr hopenRight hnr
  | group label o closed body ih =>
    have hmem : ∀ d, .connective d ∈ body.sourceTokens → openPrecedence < d.precedence :=
      fun d hd => hpositive d (List.mem_cons_of_mem _ (List.mem_append_left _ hd))
    have hbody : ∀ q ∈ body.leftPrecedences,
        Spine.floor (.group numbering.operator.1 o :: spine) < q := by
      intro q hq
      obtain ⟨d, hd, rfl⟩ := Formula.exists_mem_sourceTokens_of_mem_leftPrecedences hq
      exact hmem d hd
    rw [Formula.sourceTokens, takeAll?, take?_eq_some_iff.2 (.group numbering spine o),
      Option.bind_some, takeAll?_append]
    cases closed with
    | false =>
      rw [ih hmem _ hbody hleft hright hopen hregroup]
      rfl
    | true =>
      have hclosed : body.AllClosed := hopen
      have hbodyClosed : (body.number numbering.operator.2).1.AllClosed :=
        Formula.allClosed_number.2 hclosed
      have hclose := Formula.close?_descend hbodyClosed (.group numbering.operator.1 o :: spine)
      rw [ih hmem _ hbody hleft hright hclosed.openAtEnd hregroup, Option.bind_some,
        Formula.closing, if_pos rfl, takeAll?, take?_eq_some_iff.2 (.closer _ hclose)]
      rfl
  | regroup label o closed discarded body _ _ => exact hregroup.elim

/-- A tree that respects precedence is what its tokens are put together to from the start. The tree need
    not come from a text. -/
theorem exists_takeAll?_start {f : Formula ι} (hf : f.RespectsPrecedence)
    (hpositive : ∀ c, .connective c ∈ f.sourceTokens → openPrecedence < c.precedence) :
    ∃ last left, start.takeAll? f.sourceTokens = some last ∧ last.due = .operator left ∧
      last.spine.complete left = f.numbered := by
  have hfloor : ∀ q ∈ f.leftPrecedences, Spine.floor [] < q := by
    intro q hq
    obtain ⟨c, hc, rfl⟩ := Formula.exists_mem_sourceTokens_of_mem_leftPrecedences hq
    exact Int.lt_trans (by decide) (hpositive c hc)
  exact ⟨_, _, takeAll?_sourceTokens hf hpositive Numbering.empty hfloor, rfl,
    Formula.complete_descend f.numbered []⟩

end Assembly

/-- All tokens of a sound dialect bind tighter than an open group. No climb goes past one. -/
theorem Token.Orderly.openPrecedence_lt {expected : Expectation} {ts : List Token}
    (h : Token.Orderly expected ts) {c : Connective} (hc : .connective c ∈ ts) :
    openPrecedence < c.precedence := by
  induction h with
  | nil expected => cases hc
  | @cons expected t rest ht hrest ih =>
    rcases List.mem_cons.1 hc with rfl | htail
    · cases ht <;> assumption
    · exact ih htail

/-- What a text is read as is the only tree of its tokens that respects precedence, numbered in reading
    order. The other tree may have any labels. -/
theorem numbered_eq_of_parseWith {M : Type → Type} [PrefixMap M] {d : Dialect M} (hd : d.Sound)
    {text : List Char} {p : Parsed} (h : parseWith d text = .ok p) {ι : Type} {g : Formula ι}
    (hg : g.RespectsPrecedence) (htokens : g.sourceTokens = p.formula.sourceTokens) :
    g.numbered = p.formula := by
  rw [sourceTokens_of_parseWith h] at htokens
  obtain ⟨-, last, left, htake, hdue, rfl⟩ := parseWith_eq_ok_iff.1 h
  have hpositive : ∀ c, .connective c ∈ g.sourceTokens → openPrecedence < c.precedence := by
    intro c hc
    rw [htokens] at hc
    exact (d.orderly_scan hd text).openPrecedence_lt hc
  obtain ⟨final, operand, hfinal, hoperand, hnumbered⟩ :=
    Assembly.exists_takeAll?_start hg hpositive
  rw [htokens, htake] at hfinal
  obtain rfl := Option.some.inj hfinal
  obtain rfl := Due.operator.inj (hdue.symm.trans hoperand)
  exact hnumbered.symm

/-- Raising all precedences alike puts them above that of an open group. Trees of any operators can be
    read back then. -/
theorem exists_openPrecedence_lt_add (ts : List Token) :
    ∃ k, ∀ c, .connective c ∈ ts → openPrecedence < c.precedence + k := by
  induction ts with
  | nil => exact ⟨0, fun c hc => by cases hc⟩
  | cons t rest ih =>
    obtain ⟨k, hk⟩ := ih
    cases t with
    | connective d =>
      refine ⟨max k (1 - d.precedence), fun c hc => ?_⟩
      rcases List.mem_cons.1 hc with heq | hrest
      · obtain rfl := Token.connective.inj heq
        simp only [openPrecedence]
        omega
      · have := hk c hrest
        simp only [openPrecedence] at this ⊢
        omega
    | _ => exact ⟨k, fun c hc => hk c (by simpa using hc)⟩

/-- Two trees of the same tokens that respect precedence are the same but for their labels. It holds for
    any operators: raising all precedences alike makes both trees what the reader makes of their tokens. -/
theorem Formula.unlabelled_eq_of_sourceTokens_eq {ι κ : Type} {f : Formula ι} {g : Formula κ}
    (hf : f.RespectsPrecedence) (hg : g.RespectsPrecedence)
    (h : f.sourceTokens = g.sourceTokens) : f.unlabelled = g.unlabelled := by
  obtain ⟨k, hk⟩ := exists_openPrecedence_lt_add f.sourceTokens
  have hmono : ∀ {a b : Int}, a < b → a + k < b + k := fun hab => Int.add_lt_add_right hab k
  have hinjective : Function.Injective (· + k) := fun a b hab => (Int.add_left_inj k).1 hab
  have htokens : (f.mapPrecedence (· + k)).sourceTokens = (g.mapPrecedence (· + k)).sourceTokens := by
    rw [Formula.sourceTokens_mapPrecedence, Formula.sourceTokens_mapPrecedence, h]
  have hpositive : ∀ c, .connective c ∈ (f.mapPrecedence (· + k)).sourceTokens →
      openPrecedence < c.precedence := by
    intro c hc
    rw [Formula.sourceTokens_mapPrecedence] at hc
    obtain ⟨t, ht, heq⟩ := List.mem_map.1 hc
    cases t with
    | connective d =>
      obtain rfl := Token.connective.inj heq
      exact hk d ht
    | _ => cases heq
  obtain ⟨last, left, htake, hdue, hf'⟩ :=
    Assembly.exists_takeAll?_start (hf.mapPrecedence hmono) hpositive
  obtain ⟨final, operand, hfinal, hoperand, hg'⟩ :=
    Assembly.exists_takeAll?_start (hg.mapPrecedence hmono) (htokens ▸ hpositive)
  -- The same tokens lead to the same place, hence to the same tree.
  rw [← htokens, htake] at hfinal
  obtain rfl := Option.some.inj hfinal
  obtain rfl := Due.operator.inj (hdue.symm.trans hoperand)
  have hnumbered : (f.mapPrecedence (· + k)).numbered = (g.mapPrecedence (· + k)).numbered :=
    hf'.symm.trans hg'
  have hunlabelled := congrArg Formula.unlabelled hnumbered
  rw [numbered, numbered, unlabelled_number, unlabelled_number, unlabelled_mapPrecedence,
    unlabelled_mapPrecedence] at hunlabelled
  exact mapPrecedence_injective hinjective hunlabelled

/-- Under a validated registry, what an accepted text is read as respects precedence and consists of the
    tokens of the text, and it is the only such tree. That two trees with the same tokens are equal if
    they respect precedence holds for any operators. The rules for precedence say nothing of how a text
    is read. -/
theorem parseWith_unique_respectsPrecedence {M : Type → Type} [PrefixMap M] [LawfulPrefixMap M]
    {r : Registry} (hr : r.Validated) :
    (∀ {text : List Char} {p : Parsed}, parseWith (Dialect.ofRegistry r : Dialect M) text = .ok p →
      p.formula.RespectsPrecedence ∧
        p.formula.sourceTokens = ((Dialect.ofRegistry r : Dialect M).scan text).tokens ∧
        ∀ {ι : Type} (g : Formula ι), g.RespectsPrecedence →
          g.sourceTokens = p.formula.sourceTokens → g.numbered = p.formula) ∧
      ∀ {ι κ : Type} (f : Formula ι) (g : Formula κ), f.RespectsPrecedence → g.RespectsPrecedence →
        f.sourceTokens = g.sourceTokens → f.unlabelled = g.unlabelled := by
  have hsound : (Dialect.ofRegistry r : Dialect M).Sound := Dialect.sound_ofRegistry hr
  refine ⟨fun {text p} h => ?_, fun f g => Formula.unlabelled_eq_of_sourceTokens_eq⟩
  exact ⟨respectsPrecedence_of_parseWith hsound h, sourceTokens_of_parseWith h,
    fun g => numbered_eq_of_parseWith hsound h⟩

/-- The tree of the text has the conjunction below the disjunction. The open group is at its right end. -/
theorem parseWith_unique_respectsPrecedence_openAtRight :
    Formula.openAtRight.numbered.RespectsPrecedence ∧
      Formula.openAtRight.numbered.sourceTokens =
        ((Dialect.ofRegistry Registry.standard : Dialect PrefixMap.Trie).scan
          "a|!b&(c".toList).tokens ∧
      Formula.openAtRight.unlabelled = Formula.openAtRight.numbered.unlabelled := by
  obtain ⟨haccepted, hunique⟩ :=
    parseWith_unique_respectsPrecedence (M := PrefixMap.Trie) Registry.Validated.standard
  obtain ⟨hrespects, htokens, -⟩ := haccepted parseWith_openAtRight
  exact ⟨hrespects, htokens,
    hunique Formula.openAtRight Formula.openAtRight.numbered (by decide) hrespects (by decide +kernel)⟩

end Sentential
