import Sentential.CommandLine
import Sentential.Proofs.Parsing.Faults
import Sentential.Proofs.Parsing.Yield
import Sentential.Proofs.TruthTable.NormalForms
import Sentential.Proofs.TruthTable.Refusals

namespace Sentential

/-- The characters of a token of a text are no blanks, if no symbol has blanks in it. -/
private theorem Spells.isBlank_of_mem_text {known : Operator → Prop}
    (hknown : ∀ op, known op → ∀ c ∈ op.symbol.toList, Text.isBlank c = false) {text : List Char}
    {ts : List Token} (h : Spells known text ts []) {t : Token} (ht : t ∈ ts) {c : Char}
    (hc : c ∈ t.text.toList) : Text.isBlank c = false := by
  have hmem : c ∈ Text.withoutBlanks text := by
    rw [h.withoutBlanks_eq hknown]
    exact List.mem_append_left _ (List.mem_flatMap.2 ⟨t, ht, hc⟩)
  simpa using (List.mem_filter.1 hmem).2

namespace Formula

variable {ι : Type} {n : Notation} {t : Token}

private theorem mem_sourceTokens_group {label : ι} {o : Opener} {closed : Bool} {body : Formula ι}
    (hbody : t ∈ body.tokens n → t = .closer ∨ t ∈ body.sourceTokens)
    (h : t ∈ (group label o closed body).tokens n) :
    t = .closer ∨ t ∈ (group label o closed body).sourceTokens := by
  have hpart : t = .opener o ∨ t = .closer ∨ t ∈ body.tokens n := by
    cases n <;> simp only [tokens, List.mem_append, List.mem_cons, List.not_mem_nil] at h <;> tauto
  rcases hpart with rfl | rfl | hmem
  · exact .inr List.mem_cons_self
  · exact .inl rfl
  · exact (hbody hmem).imp_right fun hsource => List.mem_cons_of_mem _ (List.mem_append_left _ hsource)

/-- Nothing is written but tokens of the formula and right parentheses, in any notation. -/
private theorem mem_sourceTokens_of_mem_tokens {f : Formula ι} (h : t ∈ f.tokens n) :
    t = .closer ∨ t ∈ f.sourceTokens := by
  induction f with
  | leaf label p => cases n <;> exact .inr h
  | unary label c operand ih =>
    have hpart : t = .connective c ∨ t ∈ operand.tokens n := by
      cases n <;> simpa [tokens, or_comm] using h
    rcases hpart with rfl | hoperand
    · exact .inr List.mem_cons_self
    · exact (ih hoperand).imp_right (List.mem_cons_of_mem _)
  | binary label c left right ihl ihr =>
    have hpart : t = .connective c ∨ t ∈ left.tokens n ∨ t ∈ right.tokens n := by
      cases n <;> simp only [tokens, List.mem_append, List.mem_cons, List.not_mem_nil] at h <;> tauto
    simp only [sourceTokens, List.mem_append, List.mem_cons]
    rcases hpart with rfl | hleft | hright
    · exact .inr (.inr (.inl rfl))
    · exact (ihl hleft).imp_right .inl
    · exact (ihr hright).imp_right fun hmem => .inr (.inr hmem)
  | group label o closed body ih => exact mem_sourceTokens_group ih h
  | regroup label o closed discarded body _ ih =>
    -- It is written as the group without what stands to its left.
    have hgroup : t ∈ (group label o closed body).tokens n := by
      cases n <;> exact h
    exact (mem_sourceTokens_group ih hgroup).imp_right (List.mem_append_right _)

end Formula

namespace CommandLine

/-- The lines with their ends. -/
def unlines (lines : List String) : String :=
  String.join (lines.map (· ++ "\n"))

private theorem unlines_append (lines rest : List String) :
    unlines (lines ++ rest) = unlines lines ++ unlines rest := by
  rw [unlines, List.map_append, String.join_append]
  rfl

/-- What there is to say about one formula, line by line. The lines of a table come with those first
    in which the first columns are false. -/
inductive Report where
  | malformed (e : SyntaxError)
  | oversized (notations : List String) (count : Nat)
  | tabulated (notations : List String) (header : String) (body normalForms : List String)
  deriving DecidableEq, Repr

namespace Report

variable (p : Parsed)

/-- The lines with the two notations that have no parentheses. -/
def notations : List String :=
  ["PN : " ++ p.formula.render .polish, "RPN: " ++ p.formula.render .reversePolish]

/-- The names of the columns. -/
def names : List String :=
  (p.symbols.ordered .name).map Symbol.name

/-- The names of the columns and the formula. -/
def header : String :=
  String.join ((names p).map (· ++ "\t")) ++ p.formula.render .algebraic

/-- The line for some values of the columns and the value of the formula. -/
def bodyLine (bits : List Bool) (value : Bool) : String :=
  String.join ((bits ++ [value]).map fun value => (if value then "T" else "F") ++ "\t")

/-- The lines of the rows in ascending order, with all other names false. -/
def body : List String :=
  (List.range (2 ^ (names p).length)).map fun i =>
    bodyLine (binary (names p).length i) (p.rowValue (names p) Valuation.allFalse i)

/-- The lines of the two normal forms. Each lists its indices in ascending order. -/
def normalForms : List String :=
  ["∧ " ++ commaSeparated ((p.falseIndices (names p) Valuation.allFalse).map Nat.toUInt32),
    "∨ " ++ commaSeparated ((p.trueIndices (names p) Valuation.allFalse).map Nat.toUInt32)]

/-- The report on a formula. It does not depend on flags. -/
def ofText (formula : String) : Report :=
  match parse formula.toList with
  | .error e => malformed e
  | .ok p =>
    if p.formula.atoms.toFinset.card ≤ 31 then
      tabulated (notations p) (header p) (body p) (normalForms p)
    else oversized (notations p) p.formula.atoms.toFinset.card

/-- The lines that are written. One flag turns the body of the table around, the other one leaves out
    the table. -/
def lines (descending noTable : Bool) : Report → List String
  | malformed _ => []
  | oversized notations _ => notations
  | tabulated notations header body normalForms =>
    notations ++ (if noTable then [] else header :: if descending then body.reverse else body) ++
      normalForms

/-- What is wrong with the formula. -/
def fault? : Report → Option String
  | malformed e => some e.message
  | oversized _ count => some (TableError.tooManyPropositions count).message
  | tabulated .. => none

end Report

/-- A formula that cannot be read, or that has more variables than a table has columns. -/
def Fails (formula : String) : Prop :=
  (∃ e, parse formula.toList = .error e) ∨
    ∃ p, parse formula.toList = .ok p ∧ 31 < p.formula.atoms.toFinset.card

private theorem isSome_fault?_iff (formula : String) :
    (Report.ofText formula).fault?.isSome ↔ Fails formula := by
  unfold Report.ofText Fails
  cases parse formula.toList with
  | error e => simp [Report.fault?]
  | ok p =>
    by_cases hcard : p.formula.atoms.toFinset.card ≤ 31
    · simp [hcard, Report.fault?]
    · simp [hcard, Report.fault?, Nat.lt_of_not_le hcard]

section

variable (p : Parsed) (direction : Direction)

private theorem notationLines_eq : notationLines p = unlines (Report.notations p) :=
  String.toList_inj.1 (by simp [notationLines, unlines, Report.notations])

/-- Both directions give the same normal forms, since these are indices of rows and not positions. The
    lines are those of the report. -/
theorem normalFormLines_table :
    normalFormLines (p.table (Report.names p) direction Valuation.allFalse) =
      unlines (Report.normalForms p) := by
  rw [normalFormLines, Parsed.minterms_table, Parsed.maxterms_table]
  exact String.toList_inj.1 (by simp [unlines, Report.normalForms])

variable {p}

/-- The rows are written one line each, and turning them around turns the lines around. The header stays
    in front of them. -/
theorem render_table (hnames : (Report.names p).length ≤ maxColumns) (descending : Bool) :
    (p.table (Report.names p) (if descending then .descending else .ascending)
        Valuation.allFalse).render .plain =
      unlines (Report.header p :: if descending then (Report.body p).reverse else Report.body p) := by
  have hline : ∀ i ∈ List.range (2 ^ (Report.names p).length),
      TruthTable.line .plain (p.row (Report.names p) Valuation.allFalse i) =
        Report.bodyLine (binary (Report.names p).length i)
          (p.rowValue (Report.names p) Valuation.allFalse i) ++ "\n" := by
    intro i hi
    rw [TruthTable.line, Parsed.bits_row hnames p _ (List.mem_range.1 hi)]
    rfl
  have hheader : (p.table (Report.names p) (if descending then .descending else .ascending)
      Valuation.allFalse).header .plain = Report.header p ++ "\n" := rfl
  rw [TruthTable.render, hheader, Parsed.rows_table_eq_ascending, unlines, List.map_cons, String.join_cons]
  cases descending with
  | false =>
    simp only [Bool.false_eq_true, if_false, Report.body, List.map_map]
    exact congrArg (fun lines => _ ++ String.join lines) (List.map_congr_left hline)
  | true =>
    simp only [if_true, Report.body, List.map_reverse, List.map_map]
    exact congrArg (fun lines => _ ++ String.join lines.reverse) (List.map_congr_left hline)

end

/-- What is written for a formula, and what is wrong with it. Neither depends on the other formulas, and
    the fault does not depend on the switches. -/
theorem report_eq (options : Options) (formula : String) :
    report options formula =
      (unlines ((Report.ofText formula).lines options.descending options.noTable),
        (Report.ofText formula).fault?) := by
  unfold report Report.ofText
  cases hp : parse formula.toList with
  | error e => rfl
  | ok p =>
    have hperm : (p.symbols.ordered .name).Perm p.symbols.symbols := List.mergeSort_perm _ _
    have hlength : (p.symbols.ordered .name).length = p.formula.atoms.toFinset.card :=
      hperm.length_eq.trans (Parsed.length_symbols hp)
    by_cases hcard : p.formula.atoms.toFinset.card ≤ 31
    · have hnames : (Report.names p).length ≤ maxColumns := by
        rw [Report.names, List.length_map, hlength]
        exact hcard
      have htable : (p.enumerate (p.symbols.ordered .name)
          (if options.descending then .descending else .ascending) none Valuation.allFalse).1 =
            .ok (p.table (Report.names p) (if options.descending then .descending else .ascending)
              Valuation.allFalse) :=
        Parsed.enumerate_eq_ok_table (Parsed.admits_of_perm hp hcard hperm) _ _
      simp only [htable, notationLines_eq, normalFormLines_table, render_table hnames, if_pos hcard,
        Report.lines, Report.fault?, unlines_append]
      cases options.noTable <;> rfl
    · have hrefusal : p.refusal? (p.symbols.ordered .name) =
          some (.tooManyPropositions p.formula.atoms.toFinset.card) := by
        rw [Parsed.refusal?, hlength]
        exact if_pos (Nat.lt_of_not_le hcard)
      simp only [Parsed.enumerate, hrefusal, notationLines_eq, if_neg hcard, Report.lines, Report.fault?]

section

private theorem eq_or_exists_mem_of_mem_intercalate {separator c : Char} {words : List (List Char)}
    (h : c ∈ [separator].intercalate words) : c = separator ∨ ∃ word ∈ words, c ∈ word := by
  induction words with
  | nil => cases h
  | cons word rest ih =>
    cases rest with
    | nil => exact .inr ⟨word, List.mem_cons_self, by simpa [List.intercalate] using h⟩
    | cons next rest =>
      rw [List.intercalate, List.intersperse_cons_cons, List.flatten_cons, List.flatten_cons,
        List.mem_append, List.mem_append, List.mem_singleton] at h
      rcases h with hword | hseparator | hrest
      · exact .inr ⟨word, List.mem_cons_self, hword⟩
      · exact .inl hseparator
      · obtain heq | ⟨found, hfound, hc⟩ := ih hrest
        · exact .inl heq
        · exact .inr ⟨found, List.mem_cons_of_mem _ hfound, hc⟩

/-- The characters of a list with commas are commas and digits, so no line ends inside it. -/
private theorem eq_comma_or_isDigit_of_mem_commaSeparated {terms : List UInt32} {c : Char}
    (h : c ∈ (commaSeparated terms).toList) : c = ',' ∨ c.isDigit = true := by
  have hdigit : ∀ term : UInt32, ∀ c ∈ (toString term).toList, c.isDigit = true := by
    intro term c hc
    have hdigits : (toString term).toList = Nat.toDigits 10 term.toNat := String.toList_ofList
    rw [hdigits] at hc
    exact Nat.isDigit_of_mem_toDigits (by decide) (by decide) hc
  rw [commaSeparated, String.toList_intercalate] at h
  refine (eq_or_exists_mem_of_mem_intercalate h).imp_right ?_
  rintro ⟨word, hword, hc⟩
  simp only [List.map_map, List.mem_map] at hword
  obtain ⟨term, -, rfl⟩ := hword
  exact hdigit term c hc

variable {p : Parsed} {text : List Char}

/-- No token of a formula has blanks in it. -/
private theorem isBlank_of_mem_text (hp : parse text = .ok p) {t : Token}
    (ht : t ∈ p.formula.sourceTokens) {c : Char} (hc : c ∈ t.text.toList) : Text.isBlank c = false := by
  obtain ⟨hspells, -⟩ := reads_of_parseWith Registry.sound_standard hp
  refine hspells.isBlank_of_mem_text (fun op hop other hother => ?_) ht hc
  obtain ⟨first, hfirst, hblank, -⟩ := Registry.plain_standard op hop
  rw [hfirst] at hother
  rwa [List.mem_singleton.1 hother]

private theorem isBlank_of_mem_render (hp : parse text = .ok p) {n : Notation} {c : Char}
    (hc : c ∈ (p.formula.render n).toList) : Text.isBlank c = false := by
  rw [Formula.toList_render] at hc
  obtain ⟨t, ht, hct⟩ := List.mem_flatMap.1 hc
  rcases Formula.mem_sourceTokens_of_mem_tokens ht with rfl | hsource
  · rw [List.mem_singleton.1 hct]
    rfl
  · exact isBlank_of_mem_text hp hsource hct

private theorem isBlank_of_mem_name (hp : parse text = .ok p) {name : String}
    (hname : name ∈ Report.names p) {c : Char} (hc : c ∈ name.toList) : Text.isBlank c = false := by
  obtain ⟨s, hs, rfl⟩ := List.mem_map.1 hname
  have hatom := Parsed.atom?_of_mem_symbols ((List.mergeSort_perm _ _).mem_iff.1 hs)
  have htoken := List.mem_map_of_mem (f := Prod.snd) (Parsed.mem_labelledTokens_of_atom? hatom)
  rw [Formula.map_snd_labelledTokens] at htoken
  exact isBlank_of_mem_text hp htoken hc

private theorem newline_not_mem_bodyLine (bits : List Bool) (value : Bool) :
    '\n' ∉ (Report.bodyLine bits value).toList := by
  intro hmem
  rw [Report.bodyLine, String.toList_join] at hmem
  obtain ⟨cell, hcell, hc⟩ := List.mem_flatMap.1 hmem
  obtain ⟨word, -, rfl⟩ := List.mem_map.1 hcell
  cases word <;> exact absurd hc (by decide)

/-- Every line that is written is one line. Names and symbols are read from a text, in which a line end
    is a blank. -/
theorem newline_not_mem_of_mem_lines {formula line : String} {descending noTable : Bool}
    (h : line ∈ (Report.ofText formula).lines descending noTable) : '\n' ∉ line.toList := by
  unfold Report.ofText at h
  cases hp : parse formula.toList with
  | error e =>
    rw [hp] at h
    cases h
  | ok p =>
    have hrender : ∀ n, '\n' ∉ (p.formula.render n).toList := fun n hmem =>
      absurd (isBlank_of_mem_render hp hmem) (by decide)
    have hnotations : ∀ line ∈ Report.notations p, '\n' ∉ line.toList := by
      simp [Report.notations, hrender]
    have hheader : '\n' ∉ (Report.header p).toList := by
      have hname : ∀ name ∈ Report.names p, '\n' ∉ name.toList := fun name hname hmem =>
        absurd (isBlank_of_mem_name hp hname hmem) (by decide)
      simpa [Report.header, hrender] using hname
    have hbody : ∀ line ∈ Report.body p, '\n' ∉ line.toList := by
      intro line hline
      obtain ⟨i, -, rfl⟩ := List.mem_map.1 hline
      exact newline_not_mem_bodyLine _ _
    have hnormal : ∀ line ∈ Report.normalForms p, '\n' ∉ line.toList := by
      have hcommas : ∀ terms, '\n' ∉ (commaSeparated terms).toList := fun terms hmem =>
        absurd (eq_comma_or_isDigit_of_mem_commaSeparated hmem) (by decide)
      simp [Report.normalForms, hcommas]
    simp only [hp] at h
    split at h
    · rcases List.mem_append.1 h with hfront | hback
      · rcases List.mem_append.1 hfront with hnotation | htable
        · exact hnotations line hnotation
        · split at htable
          · cases htable
          · rcases List.mem_cons.1 htable with rfl | hrow
            · exact hheader
            · split at hrow
              · exact hbody line (List.mem_reverse.1 hrow)
              · exact hbody line hrow
      · exact hnormal line hback
    · exact hnotations line h

end

/-- Arguments that stand for the given options. -/
def arguments (options : Options) : List String :=
  (if options.descending then ["--descending"] else []) ++
    (if options.noTable then ["--no-table"] else []) ++ "--" :: options.formulas

private theorem readArguments_descending (options : Options) (rest : List String) :
    readArguments options ("--descending" :: rest) =
      (options.turnOn .descending).bind (readArguments · rest) := rfl

private theorem readArguments_noTable (options : Options) (rest : List String) :
    readArguments options ("--no-table" :: rest) =
      (options.turnOn .noTable).bind (readArguments · rest) := rfl

private theorem readArguments_formulas (options : Options) (formulas : List String) :
    readArguments options ("--" :: formulas) =
      some { options with formulas := formulas.reverse ++ options.formulas } := rfl

/-- Any formulas can be given, and any switches turned on with them: what stands behind `--` is never
    taken for a switch. -/
theorem ofArguments?_arguments {options : Options} (h : options.formulas ≠ []) :
    Options.ofArguments? (arguments options) = some options := by
  obtain ⟨descending, noTable, formulas⟩ := options
  have hread : readArguments ⟨false, false, []⟩ (arguments ⟨descending, noTable, formulas⟩) =
      some ⟨descending, noTable, formulas.reverse⟩ := by
    cases descending <;> cases noTable <;>
      simp [arguments, readArguments_descending, readArguments_noTable, readArguments_formulas,
        Options.turnOn]
  have hformulas : formulas ≠ [] := h
  simp [Options.ofArguments?, hread, hformulas]

/-- Everything that is reported for some formulas is what a run writes for some arguments. Formulas may
    begin with hyphens and switches be turned on in any combination. -/
theorem run_arguments {options : Options} (h : options.formulas ≠ []) :
    run (arguments options) = reportAll options := by
  rw [run, runWith, ofArguments?_arguments h]

section

variable (options : Options)

private theorem stdout_reportAll :
    (reportAll options).stdout = String.join (options.formulas.map fun formula =>
      unlines ((Report.ofText formula).lines options.descending options.noTable)) := by
  simp only [reportAll, List.map_map, report_eq]
  rfl

/-- The entries of the formulas that fail. -/
def faults : List String :=
  options.formulas.filterMap fun formula =>
    (Report.ofText formula).fault?.map fun message => formula ++ ": " ++ message ++ "\n"

private theorem stderr_reportAll : (reportAll options).stderr = String.join (faults options) := by
  simp only [reportAll, List.filterMap_map, report_eq]
  rfl

private theorem code_reportAll :
    (reportAll options).code = if (faults options).isEmpty then 0 else 1 := by
  simp only [reportAll, List.filterMap_map, report_eq]
  rfl

private theorem isEmpty_faults_iff :
    (faults options).isEmpty = true ↔ ∀ formula ∈ options.formulas, ¬ Fails formula := by
  rw [List.isEmpty_iff, faults, List.filterMap_eq_nil_iff]
  refine forall₂_congr fun formula _ => ?_
  rw [← isSome_fault?_iff, Option.map_eq_none_iff, Option.not_isSome_iff_eq_none]

private theorem code_reportAll_eq_zero_iff :
    (reportAll options).code = 0 ↔ ∀ formula ∈ options.formulas, ¬ Fails formula := by
  rw [code_reportAll, ← isEmpty_faults_iff]
  cases (faults options).isEmpty <;> decide

private theorem code_reportAll_eq_one_iff :
    (reportAll options).code = 1 ↔ ∃ formula ∈ options.formulas, Fails formula := by
  have hone : (reportAll options).code = 1 ↔ ¬ (reportAll options).code = 0 := by
    rw [code_reportAll]
    cases (faults options).isEmpty <;> decide
  rw [hone, code_reportAll_eq_zero_iff]
  simp only [not_forall, not_not, exists_prop]

end

/-- What a run owes to the formulas that it is given. Each of them has its own part in what is written,
    which is all that is written when it is given alone. -/
structure Outcome.Covers (outcome : Outcome) (options : Options) : Prop where
  /-- The parts come in the order of the formulas. -/
  stdout_eq : outcome.stdout = String.join (options.formulas.map fun formula =>
    (reportAll { options with formulas := [formula] }).stdout)
  /-- The part of a formula consists of the lines of its report, which no option changes. -/
  stdout_alone : ∀ formula, (reportAll { options with formulas := [formula] }).stdout =
    unlines ((Report.ofText formula).lines options.descending options.noTable)
  /-- There is an entry for each formula with a fault, in the order of the formulas. -/
  stderr_eq : outcome.stderr = String.join (options.formulas.filterMap fun formula =>
    (Report.ofText formula).fault?.map fun message => formula ++ ": " ++ message ++ "\n")
  code_eq_one_iff : outcome.code = 1 ↔ ∃ formula ∈ options.formulas, Fails formula
  code_eq_zero_iff : outcome.code = 0 ↔ ∀ formula ∈ options.formulas, ¬ Fails formula

/-- A run reports on each formula for itself, however its arguments are read. With the other direction
    the lines of the table bodies are turned around, without tables these lines and the headers are left
    out, and all else stays. No line has an end inside it, so the lines can be told apart. -/
theorem runWith_covers {read : List String → Option Options} {args : List String} {options : Options}
    (h : read args = some options) :
    (runWith read args).Covers options ∧
      ∀ formula, ∀ line ∈ (Report.ofText formula).lines options.descending options.noTable,
        '\n' ∉ line.toList := by
  have halone : ∀ formula, (reportAll { options with formulas := [formula] }).stdout =
      unlines ((Report.ofText formula).lines options.descending options.noTable) := by
    intro formula
    rw [stdout_reportAll]
    exact String.toList_inj.1 (by simp)
  have hrun : runWith read args = reportAll options := by
    rw [runWith, h]
  rw [hrun]
  refine ⟨⟨?_, halone, stderr_reportAll options, code_reportAll_eq_one_iff options,
    code_reportAll_eq_zero_iff options⟩, fun _ _ hline => newline_not_mem_of_mem_lines hline⟩
  simp only [halone]
  exact stdout_reportAll options

/-- One formula of two ends too early. It has no part in what is written, and the code tells of it. -/
theorem runWith_covers_descending :
    let args := ["-d", "a|!b&(c", "a&"]
    Options.ofArguments? args = some ⟨true, false, ["a|!b&(c", "a&"]⟩ ∧
      (run args).Covers ⟨true, false, ["a|!b&(c", "a&"]⟩ ∧
      (run (arguments ⟨true, false, ["a&"]⟩)).stdout = "" ∧ (run args).code = 1 := by
  intro args
  have hoptions : Options.ofArguments? args = some ⟨true, false, ["a|!b&(c", "a&"]⟩ := by
    decide +kernel
  have hparse : parse "a&".toList = .error (.unexpectedEnd 2) :=
    parseWith_eq_error_iff.2 (by decide +kernel)
  obtain ⟨hcovers, -⟩ := runWith_covers hoptions
  refine ⟨hoptions, hcovers, ?_, hcovers.code_eq_one_iff.2 ⟨"a&", by decide, .inl ⟨_, hparse⟩⟩⟩
  rw [run_arguments (by decide), hcovers.stdout_alone "a&", Report.ofText, hparse]
  rfl

end CommandLine

end Sentential
