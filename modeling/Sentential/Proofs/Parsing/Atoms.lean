import Sentential.Proofs.Formula.Nodes
import Sentential.Proofs.Parsing.Assembly

namespace Sentential

namespace Numbering

/-- The number that an identifier gets is recorded for it. It is found there when the identifier comes
    again. -/
theorem getElem?_leaves_leaf (numbering : Numbering) (name : String) :
    (numbering.leaf name).2.leaves[name]? = some (numbering.leaf name).1 := by
  unfold leaf
  cases hfound : numbering.leaves[name]? with
  | some id => simpa using hfound
  | none => simp

/-- The leaf of an identifier keeps its number, whatever tokens follow. Records are never changed. -/
theorem getElem?_leaves_take {numbering : Numbering} {name : String} {id : NodeId}
    (h : numbering.leaves[name]? = some id) (t : Token) :
    (numbering.take t).2.leaves[name]? = some id := by
  cases t with
  | operand p =>
    rw [take, leaf]
    cases hfound : numbering.leaves[p.name]? with
    | some other => exact h
    | none =>
      have hne : p.name ≠ name := by
        rintro rfl
        cases h.symm.trans hfound
      simpa [Std.TreeMap.getElem?_insert, hne] using h
  | connective c => exact h
  | opener o => exact h
  | closer => exact h

private theorem getElem?_leaves_takeAll {numbering : Numbering} {name : String} {id : NodeId}
    (h : numbering.leaves[name]? = some id) (ts : List Token) :
    (numbering.takeAll ts).2.leaves[name]? = some id := by
  induction ts generalizing numbering with
  | nil => exact h
  | cons t rest ih => exact ih (getElem?_leaves_take h t)

/-- All occurrences of an identifier have the number that is recorded for it. There is thus one leaf for
    all of them. -/
theorem getElem?_leaves_of_mem_takeAll {numbering : Numbering} {ts : List Token} {id : NodeId}
    {p : Proposition} (h : (some id, .operand p) ∈ (numbering.takeAll ts).1) :
    (numbering.takeAll ts).2.leaves[p.name]? = some id := by
  induction ts generalizing numbering with
  | nil => cases h
  | cons t rest ih =>
    rcases List.mem_cons.1 h with heq | hrest
    · obtain ⟨hid, rfl⟩ := Prod.mk.inj heq
      obtain rfl := Option.some.inj hid
      exact getElem?_leaves_takeAll (getElem?_leaves_leaf numbering p.name) rest
    · exact ih hrest

end Numbering

namespace Parsed

/-- The atom of a leaf is written in the text, as an operand with the number of the leaf. No leaf comes
    from anywhere else. -/
theorem mem_labelledTokens_of_atom? {p : Parsed} {id : NodeId} {name : String}
    (h : p.atom? id = some name) :
    (some id, .operand (.atom name)) ∈ p.formula.labelledTokens := by
  obtain ⟨node, hnode, hrest⟩ := Option.bind_eq_some_iff.1 h
  obtain ⟨proposition, hproposition, hname⟩ := Option.bind_eq_some_iff.1 hrest
  have hatom : proposition = .atom name := by
    cases proposition <;> simp_all
  rw [p.nodes_eq] at hnode
  obtain ⟨hmem, hlabel⟩ := Formula.mem_walk_of_getElem?_nodes hnode
  have htoken := Formula.labelledToken_mem_of_mem_walk hmem
  obtain ⟨found, parent⟩ := node
  cases found with
  | leaf label q =>
    obtain rfl := Option.some.inj hproposition
    subst hlabel hatom
    exact htoken
  | _ => cases hproposition

/-- An atom has one leaf. Setting the value of an atom by its name or by its number is therefore the
    same. -/
theorem eq_of_atom?_eq_atom? {M : Type → Type} [PrefixMap M] {d : Dialect M} {text : List Char}
    {p : Parsed} (hp : parseWith d text = .ok p) {id other : NodeId} {name : String}
    (hid : p.atom? id = some name) (hother : p.atom? other = some name) : id = other := by
  have hmem := mem_labelledTokens_of_atom? hid
  have hmemOther := mem_labelledTokens_of_atom? hother
  rw [labelledTokens_of_parseWith hp] at hmem hmemOther
  have hleaf := Numbering.getElem?_leaves_of_mem_takeAll hmem
  have hleafOther := Numbering.getElem?_leaves_of_mem_takeAll hmemOther
  exact Option.some.inj (hleaf.symm.trans hleafOther)

end Parsed

end Sentential
