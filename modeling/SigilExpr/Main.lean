import SigilExpr.Command

/-!
# The command line

Reads the document that the first argument names, prints the report on it, and exits with its code.
-/

namespace SigilExpr

/-- Prints a report and gives its exit code. -/
def Command.Report.print (report : Command.Report) : IO UInt32 := do
  (← IO.getStdout).putStr report.stdout
  (← IO.getStderr).putStr report.stderr
  return report.exit.toUInt32

/-- The report on the document that the arguments name. -/
def Command.run (args : List String) : IO Command.Report := do
  match args with
  | [] => return Command.usage
  | name :: _ =>
    let mode := RuntimeMode.ofSetting (← IO.getEnv "JEXPR_RUNTIME_MODE")
    match ← (IO.FS.readFile name).toBaseIO with
    | .ok text => return Command.report name mode text
    | .error e => return Command.failure ("read " ++ name ++ ": " ++ toString e ++ "\n")

end SigilExpr

/-- The entry point of the command. -/
def main (args : List String) : IO UInt32 := do
  (← SigilExpr.Command.run args).print
