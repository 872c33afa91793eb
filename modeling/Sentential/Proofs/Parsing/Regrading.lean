import Sentential.Proofs.Operator.Regrading

namespace Sentential

private theorem Token.expectation_mapPrecedence (m : Int → Int) (t : Token) :
    (t.mapPrecedence m).expectation = t.expectation := by
  cases t <;> rfl

/-- A token whose precedence is one of `grades` if it has any. -/
def Token.Graded (grades : Set Int) (t : Token) : Prop :=
  ∀ c, t = .connective c → c.precedence ∈ grades

namespace Frame

variable {m : Int → Int} {grades : Set Int}

/-- The frame with other precedences, also of the operators in its left operand. -/
def mapPrecedence (m : Int → Int) : Frame → Frame
  | unary id c => unary id (c.mapPrecedence m)
  | binary id c left => binary id (c.mapPrecedence m) (left.mapPrecedence m)
  | group id o => group id o
  | regroup id o discarded => regroup id o (discarded.mapPrecedence m)

/-- A frame whose precedence is one of `grades` if it is that of a connective. -/
def Graded (grades : Set Int) : Frame → Prop
  | unary _ c => c.precedence ∈ grades
  | binary _ c _ => c.precedence ∈ grades
  | group .. => True
  | regroup .. => True

private theorem isGroup_mapPrecedence (m : Int → Int) (frame : Frame) :
    (frame.mapPrecedence m).isGroup = frame.isGroup := by
  cases frame <;> rfl

private theorem fill_mapPrecedence (m : Int → Int) (closed : Bool) (operand : Formula NodeId)
    (frame : Frame) :
    (frame.mapPrecedence m).fill closed (operand.mapPrecedence m) =
      (frame.fill closed operand).mapPrecedence m := by
  cases frame <;> rfl

/-- An operator that climbs over a frame still does so when both have their new precedences. -/
private theorem Graded.map_le_precedence_iff {frame : Frame} (h : frame.Graded grades)
    (hm : Regrades m grades) {p : Int} (hp : p ∈ grades) :
    m p ≤ (frame.mapPrecedence m).precedence ↔ p ≤ frame.precedence := by
  have hopen : m p ≤ openPrecedence ↔ p ≤ openPrecedence :=
    iff_of_false (Int.not_le.2 (hm.openPrecedence_lt_map p hp))
      (Int.not_le.2 (hm.openPrecedence_lt p hp))
  cases frame with
  | unary id c => exact hm.map_le_map_iff hp h
  | binary id c left => exact hm.map_le_map_iff hp h
  | group id o => exact hopen
  | regroup id o discarded => exact hopen

/-- An opener behind an operand climbs over all frames, whatever their precedences. -/
private theorem Graded.openPrecedence_le_iff {frame : Frame} (h : frame.Graded grades)
    (hm : Regrades m grades) :
    openPrecedence ≤ (frame.mapPrecedence m).precedence ↔ openPrecedence ≤ frame.precedence := by
  have hgraded : ∀ p ∈ grades, (openPrecedence ≤ m p ↔ openPrecedence ≤ p) := fun p hp =>
    iff_of_true (Int.le_of_lt (hm.openPrecedence_lt_map p hp)) (Int.le_of_lt (hm.openPrecedence_lt p hp))
  cases frame with
  | unary id c => exact hgraded _ h
  | binary id c left => exact hgraded _ h
  | group id o => rfl
  | regroup id o discarded => rfl

end Frame

namespace Spine

/-- The spine with other precedences. -/
def mapPrecedence (m : Int → Int) (spine : Spine) : Spine :=
  spine.map (Frame.mapPrecedence m)

private theorem hasGroup_mapPrecedence (m : Int → Int) (spine : Spine) :
    hasGroup (spine.mapPrecedence m) = spine.hasGroup := by
  rw [hasGroup, mapPrecedence, List.any_map, hasGroup]
  exact congrArg spine.any (funext (Frame.isGroup_mapPrecedence m))

private theorem complete_mapPrecedence (m : Int → Int) (operand : Formula NodeId) (spine : Spine) :
    complete (operand.mapPrecedence m) (spine.mapPrecedence m) =
      (spine.complete operand).mapPrecedence m := by
  unfold complete mapPrecedence
  induction spine generalizing operand with
  | nil => rfl
  | cons frame rest ih =>
    rw [List.map_cons, List.foldl_cons, List.foldl_cons, Frame.fill_mapPrecedence]
    exact ih _

private theorem close?_mapPrecedence (m : Int → Int) (operand : Formula NodeId) (spine : Spine) :
    close? (operand.mapPrecedence m) (spine.mapPrecedence m) =
      (spine.close? operand).map (Prod.map (Formula.mapPrecedence m) (mapPrecedence m)) := by
  induction spine generalizing operand with
  | nil => rfl
  | cons frame rest ih =>
    rw [close?, mapPrecedence, List.map_cons, close?, Frame.isGroup_mapPrecedence,
      Frame.fill_mapPrecedence, Frame.fill_mapPrecedence]
    split
    · rfl
    · exact ih _

/-- Where the comparisons with the frames come out alike, two operators climb equally far. The operand
    that is completed on the way differs in its precedences only. -/
theorem climb_mapPrecedence {m : Int → Int} {low high : Int} {spine : Spine}
    (h : ∀ frame ∈ spine, high ≤ (frame.mapPrecedence m).precedence ↔ low ≤ frame.precedence)
    (operand : Formula NodeId) :
    climb high (operand.mapPrecedence m) (spine.mapPrecedence m) =
      Prod.map (Formula.mapPrecedence m) (mapPrecedence m) (spine.climb low operand) := by
  induction spine generalizing operand with
  | nil => rfl
  | cons frame rest ih =>
    obtain ⟨hframe, hrest⟩ := List.forall_mem_cons.1 h
    rw [climb, mapPrecedence, List.map_cons, climb]
    by_cases hclimb : low ≤ frame.precedence
    · rw [if_pos hclimb, if_pos (hframe.2 hclimb), Frame.fill_mapPrecedence]
      exact ih hrest _
    · rw [if_neg hclimb, if_neg (mt hframe.1 hclimb)]
      rfl

end Spine

/-- What is due, where an operand just read gets other precedences. -/
def Due.mapPrecedence (m : Int → Int) : Due → Due
  | operand => operand
  | operator left => operator (left.mapPrecedence m)

/-- The token with another precedence at the position where it was. -/
def Lexeme.mapPrecedence (m : Int → Int) (l : Lexeme) : Lexeme :=
  ⟨l.token.mapPrecedence m, l.position⟩

/-- The tokens of a text with other precedences. The text ends where it did. -/
def Scan.mapPrecedence (m : Int → Int) (scan : Scan) : Scan :=
  ⟨scan.lexemes.map (Lexeme.mapPrecedence m), scan.stop⟩

namespace Assembly

variable {m : Int → Int} {grades : Set Int} {a : Assembly}

/-- The state with other precedences, in the operators above and in the operand just read. -/
def mapPrecedence (m : Int → Int) (a : Assembly) : Assembly :=
  ⟨a.numbering, a.spine.mapPrecedence m, a.due.mapPrecedence m⟩

/-- All precedences that the next operator is compared with are among `grades`. -/
def Graded (grades : Set Int) (a : Assembly) : Prop :=
  ∀ frame ∈ a.spine, frame.Graded grades

private theorem Takes.graded {next : Assembly} {t : Token} (h : a.Takes t next) (ha : a.Graded grades)
    (ht : t.Graded grades) : next.Graded grades := by
  cases h with
  | operand numbering spine p => exact ha
  | unary numbering spine c => exact List.forall_mem_cons.2 ⟨ht c rfl, ha⟩
  | group numbering spine o => exact List.forall_mem_cons.2 ⟨trivial, ha⟩
  | closer numbering hclose => exact fun frame hframe => ha frame ((Spine.suffix_of_close? hclose).mem hframe)
  | binary numbering spine left c =>
    refine List.forall_mem_cons.2 ⟨ht c rfl, fun frame hframe => ?_⟩
    exact ha frame ((spine.climb_suffix c.precedence left).mem hframe)
  | regroup numbering spine left o =>
    refine List.forall_mem_cons.2 ⟨trivial, fun frame hframe => ?_⟩
    exact ha frame ((spine.climb_suffix openPrecedence left).mem hframe)

private theorem fault_mapPrecedence (m : Int → Int) (a : Assembly) (stop : Stop) :
    (a.mapPrecedence m).fault stop = a.fault stop := by
  obtain ⟨numbering, spine, due⟩ := a
  obtain ⟨found, position⟩ := stop
  cases due <;> cases found <;> simp [fault, mapPrecedence, Due.mapPrecedence, Spine.hasGroup_mapPrecedence]

private theorem finish_mapPrecedence (m : Int → Int) (a : Assembly) (stop : Stop) :
    (a.mapPrecedence m).finish stop = (a.finish stop).map (Formula.mapPrecedence m) := by
  have hfault := a.fault_mapPrecedence m stop
  obtain ⟨numbering, spine, due⟩ := a
  cases due with
  | operand => exact congrArg Except.error hfault
  | operator left =>
    obtain ⟨found, position⟩ := stop
    cases found with
    | none => exact congrArg Except.ok (spine.complete_mapPrecedence m left)
    | some found => rfl

/-- A token with its new precedence is put in the same place, or fails in the same way. All comparisons
    on the way come out as before. -/
theorem Graded.feed_mapPrecedence (ha : a.Graded grades) (hm : Regrades m grades) {l : Lexeme}
    (hl : l.token.Graded grades) :
    (a.mapPrecedence m).feed (l.mapPrecedence m) = (a.feed l).map (mapPrecedence m) := by
  have hfault := fun stop => a.fault_mapPrecedence m stop
  obtain ⟨numbering, spine, due⟩ := a
  obtain ⟨t, position⟩ := l
  cases due with
  | operand =>
    cases t with
    | closer => exact congrArg Except.error (hfault _)
    | _ => rfl
  | operator left =>
    cases t with
    | operand p => exact congrArg Except.error (hfault _)
    | closer =>
      have hclose := spine.close?_mapPrecedence m left
      simp only [feed, mapPrecedence, Due.mapPrecedence, Lexeme.mapPrecedence, Token.mapPrecedence, hclose]
      cases spine.close? left <;> rfl
    | connective c =>
      have hclimb := Spine.climb_mapPrecedence
        (fun frame hframe => (ha frame hframe).map_le_precedence_iff hm (hl c rfl)) left
      simp only [feed, mapPrecedence, Due.mapPrecedence, Lexeme.mapPrecedence, Token.mapPrecedence,
        Connective.mapPrecedence, hclimb]
      rfl
    | opener o =>
      have hclimb := Spine.climb_mapPrecedence
        (fun frame hframe => (ha frame hframe).openPrecedence_le_iff hm) left
      simp only [feed, mapPrecedence, Due.mapPrecedence, Lexeme.mapPrecedence, Token.mapPrecedence, hclimb]
      rfl

/-- Two readers of the same tokens, one with the new precedences, come to the same end in step. The
    induction is on the tokens. -/
theorem Graded.read_mapPrecedence (ha : a.Graded grades) (hm : Regrades m grades) (stop : Stop)
    {ls : List Lexeme} (hls : ∀ l ∈ ls, l.token.Graded grades) :
    (a.mapPrecedence m).read stop (ls.map (Lexeme.mapPrecedence m)) =
      (a.read stop ls).map (Formula.mapPrecedence m) := by
  induction ls generalizing a with
  | nil => exact a.finish_mapPrecedence m stop
  | cons l rest ih =>
    obtain ⟨hl, hrest⟩ := List.forall_mem_cons.1 hls
    rw [List.map_cons, read, ha.feed_mapPrecedence hm hl, read]
    cases hfeed : a.feed l with
    | error e => rfl
    | ok next => exact ih ((feed_eq_ok_iff.1 hfeed).graded ha hl) hrest

end Assembly

namespace Registry

private theorem graded_token {r : Registry} {symbol : String} {kind : Kind} {op : Operator}
    (h : r.lookup symbol kind = .ok op) : op.token.Graded r.grades := by
  rintro c hc
  cases op with
  | connective other =>
    obtain rfl := Token.connective.inj hc
    exact ⟨symbol, kind, other, h, rfl⟩
  | opener o => cases hc

end Registry

namespace Dialect.Freezes

variable {M N : Type → Type} [PrefixMap M] [PrefixMap N] [LawfulPrefixMap M] [LawfulPrefixMap N]
  {d : Dialect M} {e : Dialect N} {r s : Registry} {m : Int → Int}

/-- The same symbols are taken, with their new precedences. Which symbol is taken does not depend on
    precedences. -/
theorem token?_mapPrecedence (hd : d.Freezes r) (he : e.Freezes s) (h : r.RegradesTo m s)
    (expected : Expectation) (cursor : Cursor) :
    cursor.token? e expected =
      (cursor.token? d expected).map (Prod.map (Token.mapPrecedence m) id) := by
  have hsymbol : ∀ {entries others : List (String × Operator)} {table other : Std.TreeMap String Operator},
      entries.Perm table.toList → others.Perm other.toList →
        (∀ key : String, other[key]? = table[key]?.map (Operator.mapPrecedence m)) →
          cursor.symbol? (PrefixMap.ofList others : N Operator) =
            (cursor.symbol? (PrefixMap.ofList entries : M Operator)).map
              (Prod.map (Operator.mapPrecedence m) id) := by
    intro entries others table other hentries hothers hlookup
    refine Cursor.symbol?_map fun key _ _ => ?_
    rw [PrefixMap.lastValue?_of_perm hentries, PrefixMap.lastValue?_of_perm hothers, hlookup]
  have htoken : ∀ taken : Option (Operator × Cursor),
      (taken.map (Prod.map (Operator.mapPrecedence m) id)).map (Prod.map Operator.token id) =
        (taken.map (Prod.map Operator.token id)).map (Prod.map (Token.mapPrecedence m) id) := by
    intro taken
    cases taken with
    | none => rfl
    | some taken =>
      obtain ⟨op, rest⟩ := taken
      simp [Operator.token_mapPrecedence]
  obtain ⟨⟨_, hunary, hdUnary⟩, ⟨_, hbinary, hdBinary⟩⟩ := hd
  obtain ⟨⟨_, hunary', heUnary⟩, ⟨_, hbinary', heBinary⟩⟩ := he
  have hsymbolUnary := hsymbol hunary hunary' h.unary
  have hsymbolBinary := hsymbol hbinary hbinary' h.binary
  rw [← hdUnary, ← heUnary] at hsymbolUnary
  rw [← hdBinary, ← heBinary] at hsymbolBinary
  unfold Cursor.token?
  cases cursor.peek? with
  | none => rfl
  | some found =>
    cases expected with
    | operand =>
      cases cursor.identifier? with
      | some taken => rfl
      | none =>
        simp only [hsymbolUnary]
        exact htoken _
    | operator =>
      simp only [hsymbolBinary]
      split
      · rfl
      · exact htoken _

/-- A symbol that is taken is that of an operator of the registry. -/
private theorem graded_of_token? (hd : d.Freezes r) {expected : Expectation} {cursor rest : Cursor}
    {t : Token} (h : cursor.token? d expected = some (t, rest)) : t.Graded r.grades := by
  have hsymbol : ∀ (kind : Kind) {entries : List (String × Operator)}
      {table : Std.TreeMap String Operator} {map : M Operator} {op : Operator} {behind : Cursor},
      r.table kind = .ok table → entries.Perm table.toList → map = PrefixMap.ofList entries →
        cursor.symbol? map = some (op, behind) → op.token.Graded r.grades := by
    rintro kind entries table _ op behind htable hentries rfl hop
    obtain ⟨key, hmem, -⟩ := Cursor.exists_mem_of_symbol? hop
    have hfound := Std.TreeMap.mem_toList_iff_getElem?_eq_some.1 (hentries.mem_iff.1 hmem)
    exact Registry.graded_token (Registry.lookup_of_table htable hfound)
  obtain ⟨⟨_, hunary, hdUnary⟩, ⟨_, hbinary, hdBinary⟩⟩ := hd
  cases Cursor.takes_of_token? h with
  | identifier _ => exact nofun
  | unary _ _ hop => exact hsymbol .unary rfl hunary hdUnary hop
  | closer _ => exact nofun
  | binary _ _ hop => exact hsymbol .binary rfl hbinary hdBinary hop

/-- The same tokens are found at the same places. Precedences have no say in how a text is cut. -/
theorem scan_mapPrecedence (hd : d.Freezes r) (he : e.Freezes s) (h : r.RegradesTo m s)
    (expected : Expectation) (cursor : Cursor) :
    cursor.scan e expected = (cursor.scan d expected).mapPrecedence m := by
  have htoken := token?_mapPrecedence hd he h expected cursor.skipBlank
  cases hfound : cursor.skipBlank.token? d expected with
  | none =>
    rw [hfound] at htoken
    rw [Cursor.scan_of_token?_eq_none hfound, Cursor.scan_of_token?_eq_none htoken]
    rfl
  | some taken =>
    obtain ⟨t, rest⟩ := taken
    rw [hfound, Option.map_some, Prod.map_apply, id] at htoken
    rw [Cursor.scan_of_token?_eq_some hfound, Cursor.scan_of_token?_eq_some htoken,
      t.expectation_mapPrecedence, scan_mapPrecedence hd he h t.expectation rest]
    rfl
termination_by cursor.remaining.length
decreasing_by
  exact Nat.lt_of_lt_of_le (Cursor.length_remaining_token? hfound)
    (Cursor.length_remaining_skipBlank_le cursor)

private theorem graded_of_mem_scan (hd : d.Freezes r) (expected : Expectation) (cursor : Cursor) :
    ∀ l ∈ (cursor.scan d expected).lexemes, l.token.Graded r.grades := by
  cases hfound : cursor.skipBlank.token? d expected with
  | none =>
    rw [Cursor.scan_of_token?_eq_none hfound]
    exact nofun
  | some taken =>
    obtain ⟨t, rest⟩ := taken
    rw [Cursor.scan_of_token?_eq_some hfound]
    exact List.forall_mem_cons.2 ⟨hd.graded_of_token? hfound, graded_of_mem_scan hd t.expectation rest⟩
termination_by cursor.remaining.length
decreasing_by
  exact Nat.lt_of_lt_of_le (Cursor.length_remaining_token? hfound)
    (Cursor.length_remaining_skipBlank_le cursor)

/-- The reader climbs to the same places, so it reads the same formula or meets the same fault. Only
    precedences in the formula differ. -/
theorem parseWith_mapPrecedence (hd : d.Freezes r) (he : e.Freezes s) (h : r.RegradesTo m s)
    (hm : Regrades m r.grades) (text : List Char) :
    parseWith e text =
      (parseWith d text).map fun p => Parsed.ofFormula (p.formula.mapPrecedence m) := by
  have hscan : e.scan text = (d.scan text).mapPrecedence m :=
    scan_mapPrecedence hd he h .operand (Cursor.ofList text)
  have hstart : Assembly.start.Graded r.grades := nofun
  have hread : Assembly.start.read (e.scan text).stop (e.scan text).lexemes =
      (Assembly.start.read (d.scan text).stop (d.scan text).lexemes).map (Formula.mapPrecedence m) := by
    rw [hscan]
    exact hstart.read_mapPrecedence hm (d.scan text).stop
      (hd.graded_of_mem_scan .operand (Cursor.ofList text))
  rw [parseWith_eq_read, parseWith_eq_read, hread]
  cases Assembly.start.read (d.scan text).stop (d.scan text).lexemes <;> rfl

end Dialect.Freezes

/-- Two parses that have nothing different but the precedences of their connectives. -/
structure Parsed.Regraded (m : Int → Int) (p q : Parsed) : Prop where
  root_eq : q.root = p.root
  size_eq : q.nodes.size = p.nodes.size
  symbols_eq : q.symbols = p.symbols
  node : ∀ {id : NodeId} {node : Node}, p.nodes[id]? = some node → ∃ other, q.nodes[id]? = some other ∧
    other.left = node.left ∧ other.right = node.right ∧ other.parent = node.parent ∧
      other.formula.head = node.formula.head.mapPrecedence m
  render_eq : ∀ n, q.formula.render n = p.formula.render n
  evaluate_eq : ∀ v, q.formula.evaluate v = p.formula.evaluate v

private theorem Parsed.regraded_mapPrecedence (m : Int → Int) (p : Parsed) :
    p.Regraded m (ofFormula (p.formula.mapPrecedence m)) := by
  have hlinks := Formula.keepsLinks_mapPrecedence m
  refine {
    root_eq := p.formula.label_mapPrecedence m
    size_eq := ?_
    symbols_eq := ?_
    node := fun {id node} hnode => ?_
    render_eq := fun n => p.formula.render_mapPrecedence m n
    evaluate_eq := fun v => ?_ }
  · rw [p.nodes_eq]
    exact hlinks.size_nodes p.formula
  · rw [p.symbols_eq, p.nodes_eq]
    exact hlinks.ofNodes_eq p.formula
  · rw [p.nodes_eq] at hnode
    exact ⟨_, hlinks.getElem?_nodes hnode, hlinks.left_over node, hlinks.right_over node, rfl,
      node.formula.head_mapPrecedence m⟩
  · rw [Formula.evaluate_eq_truth, Formula.evaluate_eq_truth]
    exact p.formula.truth_mapPrecedence m v

/-- Two outcomes of reading that have nothing different but the precedences of connectives. -/
inductive SameOutcome (m : Int → Int) : Except SyntaxError Parsed → Except SyntaxError Parsed → Prop where
  | ok {p q : Parsed} (h : p.Regraded m q) : SameOutcome m (.ok p) (.ok q)
  | error (e : SyntaxError) : SameOutcome m (.error e) (.error e)

/-- Only the order of precedences matters. Where all connectives of a registry get new precedences in
    the same order, again between those of open and closed groups, the new registry is as valid as the
    old one, and every text is read as before under it. The order has to be kept among the precedences
    in use only. -/
theorem sameOutcome_of_map_lt_map {r : Registry} (hr : r.Validated) {m : Int → Int}
    (hmono : ∀ p ∈ r.grades, ∀ q ∈ r.grades, p < q → m p < m q)
    (hbetween : ∀ p ∈ r.grades, openPrecedence < m p ∧ m p < closedPrecedence) :
    (∃ s : Registry, s.Validated ∧ r.RegradesTo m s) ∧
      ∀ s : Registry, r.RegradesTo m s →
        ∀ (M N : Type → Type) [PrefixMap M] [PrefixMap N] [LawfulPrefixMap M] [LawfulPrefixMap N]
          (d : Dialect M) (e : Dialect N), d.Freezes r → e.Freezes s → ∀ text,
            SameOutcome m (parseWith d text) (parseWith e text) := by
  have hregrades : Regrades m r.grades :=
    ⟨hmono, fun p hp => (hr.sound.between_of_mem_grades hp).1, fun p hp => (hbetween p hp).1⟩
  refine ⟨hr.sound.exists_regradesTo hbetween, fun s hs M N _ _ _ _ d e hd he text => ?_⟩
  rw [hd.parseWith_mapPrecedence he hs hregrades]
  cases parseWith d text with
  | ok p => exact .ok (p.regraded_mapPrecedence m)
  | error fault => exact .error fault

/-- All standard precedences are spread out and moved up. The text is read as before. -/
theorem sameOutcome_of_map_lt_map_openAtRight :
    let m : Int → Int := fun p => 3 * p + 5
    (∀ p ∈ Registry.standard.grades, ∀ q ∈ Registry.standard.grades, p < q → m p < m q) ∧
      (∀ p ∈ Registry.standard.grades, openPrecedence < m p ∧ m p < closedPrecedence) ∧
      ∃ s : Registry, s.Validated ∧ Registry.standard.RegradesTo m s ∧
        ∃ q, parseWith (Dialect.ofRegistry s : Dialect PrefixMap.Sorted) "a|!b&(c".toList = .ok q ∧
          (Parsed.ofFormula Formula.openAtRight.numbered).Regraded m q := by
  intro m
  have hmono : ∀ p ∈ Registry.standard.grades, ∀ q ∈ Registry.standard.grades,
      p < q → m p < m q := by
    intro p _ q _ hlt
    show 3 * p + 5 < 3 * q + 5
    omega
  have hbetween : ∀ p ∈ Registry.standard.grades, openPrecedence < m p ∧ m p < closedPrecedence := by
    have hstandard : ∀ op ∈ Operator.standard, openPrecedence < m op.precedence ∧
        m op.precedence < closedPrecedence := by decide
    rintro p ⟨symbol, kind, c, hlookup, rfl⟩
    have hknows := Registry.sound_standard.knows_of_lookup hlookup
    exact hstandard _ (Registry.knows_standard_iff.1 hknows)
  obtain ⟨⟨s, hs, hregrades⟩, hsame⟩ := sameOutcome_of_map_lt_map .standard hmono hbetween
  refine ⟨hmono, hbetween, s, hs, hregrades, ?_⟩
  have houtcome := hsame s hregrades PrefixMap.Trie PrefixMap.Sorted _ _
    (Dialect.freezes_ofRegistry Registry.standard) (Dialect.freezes_ofRegistry s) "a|!b&(c".toList
  rw [parseWith_openAtRight] at houtcome
  generalize parseWith (Dialect.ofRegistry s : Dialect PrefixMap.Sorted) _ = outcome at houtcome ⊢
  cases houtcome with
  | ok h => exact ⟨_, rfl, h⟩

end Sentential
