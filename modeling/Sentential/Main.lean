import Sentential.CommandLine

/-- Reports on the formulas given as arguments. -/
def main (args : List String) : IO UInt32 := do
  let outcome := Sentential.CommandLine.run args
  IO.print outcome.stdout
  IO.eprint outcome.stderr
  return outcome.code.toUInt32
