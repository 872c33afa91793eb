import Sentential.TruthTable.Enumeration

namespace Sentential.CommandLine

/-- What the arguments ask for. -/
structure Options where
  descending : Bool
  noTable : Bool
  formulas : List String
  deriving DecidableEq, Repr

/-- A switch of the command line. -/
inductive Switch where
  | descending
  | noTable
  deriving DecidableEq, Repr

/-- Turns a switch on, which may be done once. -/
def Options.turnOn (options : Options) : Switch → Option Options
  | .descending => if options.descending then none else some { options with descending := true }
  | .noTable => if options.noTable then none else some { options with noTable := true }

/-- The switch with this letter. -/
def Switch.ofChar? : Char → Option Switch
  | 'd' => some .descending
  | 'n' => some .noTable
  | _ => none

/-- The switch with this name. -/
def Switch.ofName? : String → Option Switch
  | "descending" => some .descending
  | "no-table" => some .noTable
  | _ => none

/-- Reads the arguments in order. Formulas are collected last first. Behind `--` every argument is a
    formula, and so is a lone hyphen everywhere. -/
def readArguments (options : Options) : List String → Option Options
  | [] => some options
  | arg :: rest =>
    match arg.toList with
    | ['-', '-'] => some { options with formulas := rest.reverse ++ options.formulas }
    | '-' :: '-' :: name => do
      let switch ← Switch.ofName? (String.ofList name)
      readArguments (← options.turnOn switch) rest
    | '-' :: c :: more => do
      let switches ← (c :: more).mapM Switch.ofChar?
      readArguments (← switches.foldlM Options.turnOn options) rest
    | _ => readArguments { options with formulas := arg :: options.formulas } rest

/-- The options that the arguments stand for, with the formulas in order, unless an argument is
    wrong or there is no formula. -/
def Options.ofArguments? (args : List String) : Option Options := do
  let options ← readArguments ⟨false, false, []⟩ args
  if options.formulas.isEmpty then none
  else some { options with formulas := options.formulas.reverse }

/-- What a run writes, and its exit code. -/
structure Outcome where
  code : Nat
  stdout : String
  stderr : String
  deriving DecidableEq, Repr

/-- Numbers with commas between them. -/
def commaSeparated (terms : List UInt32) : String :=
  ",".intercalate (terms.map toString)

/-- The two lines of the notations without parentheses. -/
def notationLines (p : Parsed) : String :=
  "PN : " ++ p.formula.render .polish ++ "\n" ++ "RPN: " ++ p.formula.render .reversePolish ++ "\n"

/-- The two lines of the principal normal forms. -/
def normalFormLines (t : TruthTable) : String :=
  "∧ " ++ commaSeparated t.maxterms ++ "\n" ++ "∨ " ++ commaSeparated t.minterms ++ "\n"

/-- What is written about one formula, and what is wrong with it if anything is. -/
def report (options : Options) (formula : String) : String × Option String :=
  match parse formula.toList with
  | .error e => ("", some e.message)
  | .ok p =>
    let direction := if options.descending then Direction.descending else .ascending
    match (p.enumerate (p.symbols.ordered .name) direction none Valuation.allFalse).1 with
    | .error e => (notationLines p, some e.message)
    | .ok t =>
      let table := if options.noTable then "" else t.render .plain
      (notationLines p ++ table ++ normalFormLines t, none)

/-- Reports on all formulas in order. The code tells whether something was wrong with any. -/
def reportAll (options : Options) : Outcome :=
  let reports := options.formulas.map fun formula => (formula, report options formula)
  let faults := reports.filterMap fun (formula, _, fault) =>
    fault.map fun message => formula ++ ": " ++ message ++ "\n"
  { code := if faults.isEmpty then 0 else 1
    stdout := String.join (reports.map fun (_, written, _) => written)
    stderr := String.join faults }

/-- A run of the program on its arguments, where `read` says what they ask for. Wrong usage has a code
    of its own. -/
def runWith (read : List String → Option Options) (args : List String) : Outcome :=
  match read args with
  | some options => reportAll options
  | none => ⟨2, "", ""⟩

/-- A run of the program on its arguments. -/
def run (args : List String) : Outcome :=
  runWith Options.ofArguments? args

end Sentential.CommandLine
