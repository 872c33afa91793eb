import Sentential.Proofs.Cursor
import Sentential.Proofs.Linked.Reading

namespace Sentential

namespace ParseState

/-- A step that goes on puts one token in its place. Blanks before the token are skipped. -/
theorem exists_takes_of_step {M : Type → Type} [PrefixMap M] {d : Dialect M} {s next : ParseState}
    (h : step d s = .ok (.inr next)) : ∃ t,
      s.cursor.skipBlank.token? d s.due.expectation = some (t, next.cursor) ∧
        s.assembly.Takes t next.assembly := by
  cases htoken : s.cursor.skipBlank.token? d s.due.expectation with
  | none =>
    rw [step_of_token?_eq_none htoken] at h
    obtain ⟨f, -, hf⟩ := Linked.exists_of_map_eq_ok h
    cases hf
  | some taken =>
    obtain ⟨t, rest⟩ := taken
    rw [step_of_token?_eq_some htoken] at h
    obtain ⟨a, hfeed, heq⟩ := Linked.exists_of_map_eq_ok h
    obtain rfl := Sum.inr.inj heq
    exact ⟨t, rfl, Assembly.feed_eq_ok_iff.1 hfeed⟩

end ParseState

/-- A token that is taken stands at the front of what is ahead, and the cursor moves behind it. -/
private theorem Cursor.exists_front_of_token? {M : Type → Type} [PrefixMap M] [LawfulPrefixMap M]
    {r : Registry} {expected : Expectation} {cursor rest : Cursor} {t : Token}
    (h : cursor.token? (Dialect.ofRegistry r : Dialect M) expected = some (t, rest)) :
    ∃ front, cursor.remaining = front ++ rest.remaining ∧
      rest.position = cursor.position + front.length := by
  cases takes_of_token? h with
  | identifier hname =>
    obtain ⟨run, -, -, hremaining, hposition, -⟩ := identifier?_eq_some_iff.1 hname
    exact ⟨run, hremaining, hposition⟩
  | unary _ _ hop =>
    obtain ⟨key, -, -, hremaining, hposition⟩ := exists_mem_of_symbol? hop
    exact ⟨key.toList, hremaining, hposition⟩
  | closer hpeek =>
    obtain ⟨hremaining, hposition⟩ := advance_one_of_peek? hpeek
    exact ⟨[')'], hremaining, hposition⟩
  | binary _ _ hop =>
    obtain ⟨key, -, -, hremaining, hposition⟩ := exists_mem_of_symbol? hop
    exact ⟨key.toList, hremaining, hposition⟩

namespace Linked

/-- The states that reading a text in place comes to. -/
inductive Reaches {M : Type → Type} [PrefixMap M] (d : Dialect M) (text : List Char) :
    Reader → Prop where
  | start : Reaches d text (Reader.start text)
  | step {r next : Reader} (hr : Reaches d text r) (hstep : r.step d = .ok (some next)) :
    Reaches d text next

namespace Reaches

variable {M : Type → Type} [PrefixMap M] {text : List Char} {r : Reader}

/-- What holds before any token and is kept by every token that is read holds of all that is built in
    place. It is stated for the assembly that the builder stores, where such facts are easier to see. -/
theorem exists_follows {d : Dialect M} {P : Assembly → Prop} (hstart : P Assembly.start)
    (hstep : ∀ {a next : Assembly} {t : Token} {cursor rest : Cursor}, P a →
      cursor.token? d a.due.expectation = some (t, rest) → a.Takes t next → P next)
    (h : Reaches d text r) : ∃ s, Follows s r ∧ P s.assembly := by
  induction h with
  | start => exact ⟨ParseState.start text, Follows.start text, hstart⟩
  | @step r next _ hnext ih =>
    obtain ⟨s, hfollows, hs⟩ := ih
    rcases hfollows.step_cases d with ⟨e, -, herror⟩ | ⟨f, -, hend, -⟩ | ⟨s', r', hs', hr', hfollows'⟩
    · cases hnext.symm.trans herror
    · cases hnext.symm.trans hend
    · obtain rfl := Option.some.inj (Except.ok.inj (hnext.symm.trans hr'))
      obtain ⟨t, htoken, htakes⟩ := ParseState.exists_takes_of_step hs'
      exact ⟨s', hfollows', hstep hs htoken htakes⟩

/-- The cursor stands within the text, behind as many characters as it counts. All positions that are
    reported are positions of the text. -/
theorem exists_behind [LawfulPrefixMap M] {registry : Registry}
    (h : Reaches (Dialect.ofRegistry registry : Dialect M) text r) :
    ∃ behind, text = behind ++ r.cursor.remaining ∧ r.cursor.position = behind.length := by
  induction h with
  | start => exact ⟨[], rfl, rfl⟩
  | @step r next _ hnext ih =>
    obtain ⟨behind, htext, hposition⟩ := ih
    obtain ⟨t, htoken⟩ := Reader.exists_token?_of_step hnext
    obtain ⟨front, hfront, hmoved⟩ := Cursor.exists_front_of_token? htoken
    rw [Cursor.skipBlank_eq] at hfront hmoved
    refine ⟨behind ++ r.cursor.remaining.takeWhile Text.isBlank ++ front, ?_, ?_⟩
    · rw [List.append_assoc, ← hfront, List.append_assoc, List.takeWhile_append_dropWhile, htext]
    · rw [hmoved, hposition, List.length_append, List.length_append]

/-- Where reading ends with a tree, it has come to the end of the text. The tree is made of the cells
    that are there then. -/
theorem exists_of_run_eq_ok {d : Dialect M} {r : Reader} (h : Reaches d text r) {t : Tree}
    (hrun : r.run d = .ok t) : ∃ last, Reaches d text last ∧ last.step d = .ok none ∧
      freeze last.builder.cells last.cursor.skipBlank.position = .ok t := by
  cases hstep : r.step d with
  | error e =>
    rw [Reader.run_of_step_eq_error hstep] at hrun
    cases hrun
  | ok outcome =>
    cases outcome with
    | none =>
      rw [Reader.run_of_step_eq_none hstep] at hrun
      exact ⟨r, h, hstep, hrun⟩
    | some next =>
      rw [Reader.run_of_step_eq_some hstep] at hrun
      exact exists_of_run_eq_ok (h.step hstep) hrun
termination_by r.cursor.remaining.length
decreasing_by exact Reader.length_remaining_step hstep

end Reaches

end Linked

end Sentential
