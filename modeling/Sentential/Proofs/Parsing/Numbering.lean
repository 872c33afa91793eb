import Sentential.Proofs.Parsing.Atoms

namespace Sentential

/-- Numbers of which each was given before or is the next one to give. All numbers below `first` were
    given before these, all below `last` are given behind them. -/
inductive CountsUp : (first : Nat) → List Nat → (last : Nat) → Prop where
  | nil (n : Nat) : CountsUp n [] n
  | old {n id last : Nat} {ids : List Nat} (hid : id < n) (h : CountsUp n ids last) :
    CountsUp n (id :: ids) last
  | new {n last : Nat} {ids : List Nat} (h : CountsUp (n + 1) ids last) : CountsUp n (n :: ids) last

namespace CountsUp

/-- Numbers are only ever added to those that were given. The count never goes down. -/
theorem le {first last : Nat} {ids : List Nat} (h : CountsUp first ids last) : first ≤ last := by
  induction h with
  | nil n => exact Nat.le_refl n
  | old hid h ih => exact ih
  | new h ih => exact Nat.le_of_succ_le ih

/-- All numbers in the list have been given by its end. They are in range for an array of that size. -/
theorem lt_of_mem {first last id : Nat} {ids : List Nat} (h : CountsUp first ids last)
    (hid : id ∈ ids) : id < last := by
  induction h with
  | nil n => cases hid
  | old hold h ih =>
    rcases List.mem_cons.1 hid with rfl | hrest
    · exact Nat.lt_of_lt_of_le hold h.le
    · exact ih hrest
  | new h ih =>
    rcases List.mem_cons.1 hid with rfl | hrest
    · exact h.le
    · exact ih hrest

private theorem eraseDups_removeAll {first last : Nat} {ids : List Nat} (h : CountsUp first ids last) :
    (ids.removeAll (List.range first)).eraseDups = List.range' first (last - first) := by
  induction h with
  | nil n => simp [List.removeAll]
  | @old n id last ids hid h ih =>
    rw [← ih]
    simp [List.removeAll, hid]
  | @new n last ids h ih =>
    have hrange : last - n = (last - (n + 1)) + 1 := by
      have := h.le
      omega
    have hbehind : (ids.removeAll (List.range n)).filter (fun id => !id == n) =
        ids.removeAll (List.range (n + 1)) := by
      rw [List.removeAll, List.removeAll, List.filter_filter]
      refine List.filter_congr fun id _ => ?_
      simp only [List.elem_eq_contains, List.contains_eq_mem, List.mem_range, Nat.lt_succ_iff_lt_or_eq]
      by_cases hid : id = n <;> simp [hid]
    have hfirst : (n :: ids).removeAll (List.range n) = n :: ids.removeAll (List.range n) := by
      simp [List.removeAll]
    rw [hfirst, List.eraseDups_cons, hbehind, ih, hrange, List.range'_succ]

/-- Numbers that count up from zero occur for the first time in their order. Without the repetitions
    they are all numbers that were given. -/
theorem eraseDups_eq_range {ids : List Nat} {last : Nat} (h : CountsUp 0 ids last) :
    ids.eraseDups = List.range last := by
  have hall := h.eraseDups_removeAll
  have hnone : ids.removeAll (List.range 0) = ids := List.filter_eq_self.2 fun id _ => rfl
  rwa [hnone, Nat.sub_zero, ← List.range_eq_range'] at hall

end CountsUp

namespace Numbering

/-- Leaves have numbers that were given, and no two identifiers have one number. -/
structure WellFormed (numbering : Numbering) : Prop where
  lt_next : ∀ {name : String} {id : NodeId}, numbering.leaves[name]? = some id → id < numbering.next
  injective : ∀ {name other : String} {id : NodeId}, numbering.leaves[name]? = some id →
    numbering.leaves[other]? = some id → name = other

/-- Before any token no identifier has a number. -/
theorem wellFormed_empty : empty.WellFormed where
  lt_next h := by simp [empty] at h
  injective h := by simp [empty] at h

/-- Giving a number to an operator leaves the leaves alone. The number is a new one. -/
theorem WellFormed.operator {numbering : Numbering} (h : numbering.WellFormed) :
    numbering.operator.2.WellFormed where
  lt_next hid := Nat.lt_succ_of_lt (h.lt_next hid)
  injective := h.injective

/-- An identifier gets its own number, or keeps the one it has. -/
theorem WellFormed.leaf {numbering : Numbering} (h : numbering.WellFormed) (name : String) :
    (numbering.leaf name).2.WellFormed := by
  unfold Numbering.leaf
  cases hfound : numbering.leaves[name]? with
  | some id => exact h
  | none =>
    refine ⟨fun {other id} hid => ?_, fun {first second id} hfirst hsecond => ?_⟩
    · simp only [Std.TreeMap.getElem?_insert, Std.compare_eq_iff_eq] at hid
      split at hid
      · obtain rfl := Option.some.inj hid
        exact Nat.lt_succ_self _
      · exact Nat.lt_succ_of_lt (h.lt_next hid)
    · simp only [Std.TreeMap.getElem?_insert, Std.compare_eq_iff_eq] at hfirst hsecond
      split at hfirst <;> split at hsecond
      · exact ‹name = first›.symm.trans ‹name = second›
      · -- A number given before is not the new one.
        obtain rfl := Option.some.inj hfirst
        exact absurd (h.lt_next hsecond) (Nat.lt_irrefl _)
      · obtain rfl := Option.some.inj hsecond
        exact absurd (h.lt_next hfirst) (Nat.lt_irrefl _)
      · exact h.injective hfirst hsecond

/-- Whatever token comes, leaves keep numbers of their own. This is the step of the induction on tokens. -/
theorem WellFormed.take {numbering : Numbering} (h : numbering.WellFormed) (t : Token) :
    (numbering.take t).2.WellFormed := by
  cases t with
  | operand p => exact h.leaf p.name
  | connective c => exact h.operator
  | opener o => exact h.operator
  | closer => exact h

/-- Tokens are numbered in the order in which they come. Only an identifier that came before gets no new
    number. -/
theorem WellFormed.countsUp_takeAll {numbering : Numbering} (h : numbering.WellFormed)
    (ts : List Token) : CountsUp numbering.next ((numbering.takeAll ts).1.filterMap Prod.fst)
      (numbering.takeAll ts).2.next := by
  induction ts generalizing numbering with
  | nil => exact .nil _
  | cons t rest ih =>
    have hrest := ih (h.take t)
    cases t with
    | operand p =>
      have hleaf : ∀ id, (numbering.leaf p.name).1 = id →
          (id < numbering.next ∧ (numbering.leaf p.name).2.next = numbering.next) ∨
            (id = numbering.next ∧ (numbering.leaf p.name).2.next = numbering.next + 1) := by
        rintro id rfl
        unfold Numbering.leaf
        cases hfound : numbering.leaves[p.name]? with
        | some id => exact .inl ⟨h.lt_next hfound, rfl⟩
        | none => exact .inr ⟨rfl, rfl⟩
      rw [Numbering.take] at hrest
      rcases hleaf _ rfl with ⟨hid, hnext⟩ | ⟨hid, hnext⟩
      · rw [hnext] at hrest
        exact .old hid hrest
      · rw [hnext] at hrest
        simp only [Numbering.takeAll, Numbering.take, List.filterMap_cons, hid]
        exact .new hrest
    | connective c => exact .new hrest
    | opener o => exact .new hrest
    | closer => exact hrest

/-- What is recorded behind a token was recorded before it or has the new number. -/
private theorem getElem?_leaves_of_take {numbering : Numbering} {t : Token} {name : String}
    {id : NodeId} (h : (numbering.take t).2.leaves[name]? = some id) :
    numbering.leaves[name]? = some id ∨ id = numbering.next := by
  cases t with
  | operand p =>
    rw [take, leaf] at h
    cases hfound : numbering.leaves[p.name]? with
    | some other =>
      rw [hfound] at h
      exact .inl h
    | none =>
      simp only [hfound, Std.TreeMap.getElem?_insert] at h
      split at h
      · exact .inr (Option.some.inj h).symm
      · exact .inl h
  | connective c | opener o | closer => exact .inl h

/-- A token gets a new number, unless its identifier has one. -/
private theorem WellFormed.new_or_leaf {numbering : Numbering} (h : numbering.WellFormed)
    {ts : List Token} {id : NodeId} {t : Token} (hmem : (some id, t) ∈ (numbering.takeAll ts).1) :
    numbering.next ≤ id ∨ ∃ p, t = .operand p ∧ numbering.leaves[p.name]? = some id := by
  induction ts generalizing numbering with
  | nil => cases hmem
  | cons first rest ih =>
    rcases List.mem_cons.1 hmem with heq | hrest
    · obtain ⟨hid, rfl⟩ := Prod.mk.inj heq
      cases t with
      | operand p =>
        obtain rfl := Option.some.inj hid
        unfold Numbering.leaf
        cases hfound : numbering.leaves[p.name]? with
        | some id => exact .inr ⟨p, rfl, hfound⟩
        | none => exact .inl (Nat.le_refl _)
      | connective c => exact .inl (Nat.le_of_eq (Option.some.inj hid).symm)
      | opener o => exact .inl (Nat.le_of_eq (Option.some.inj hid).symm)
      | closer => cases hid
    · have hnext : numbering.next ≤ (numbering.take first).2.next := (h.countsUp_takeAll [first]).le
      rcases ih (h.take first) hrest with hnew | ⟨p, rfl, hleaf⟩
      · exact .inl (Nat.le_trans hnext hnew)
      · rcases getElem?_leaves_of_take hleaf with hbefore | hid
        · exact .inr ⟨p, rfl, hbefore⟩
        · exact .inl (Nat.le_of_eq hid.symm)

/-- Two tokens have one number only as occurrences of one identifier. Operators share their numbers with
    nothing. -/
theorem WellFormed.pairwise_takeAll {numbering : Numbering} (h : numbering.WellFormed)
    (ts : List Token) : (numbering.takeAll ts).1.Pairwise fun a b => ∀ id, a.1 = some id →
      b.1 = some id → ∃ p q, a.2 = .operand p ∧ b.2 = .operand q ∧ p.name = q.name := by
  induction ts generalizing numbering with
  | nil => exact .nil
  | cons t rest ih =>
    refine .cons ?_ (ih (h.take t))
    rintro ⟨label, other⟩ hmem id hid rfl
    have hold := (h.take t).new_or_leaf hmem
    cases t with
    | operand p =>
      obtain rfl := Option.some.inj hid
      have hleaf := getElem?_leaves_leaf numbering p.name
      rcases hold with hnew | ⟨q, rfl, hq⟩
      · exact absurd ((h.leaf p.name).lt_next hleaf) (Nat.not_lt.2 hnew)
      · exact ⟨p, q, rfl, rfl, (h.leaf p.name).injective hleaf hq⟩
    | closer => cases hid
    | connective c | opener o =>
      obtain rfl := Option.some.inj hid
      rcases hold with hnew | ⟨q, -, hq⟩
      · exact absurd hnew (Nat.not_succ_le_self _)
      · exact absurd (h.lt_next hq) (Nat.lt_irrefl _)

end Numbering

end Sentential
