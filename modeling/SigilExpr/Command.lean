import SigilExpr.Json.Reader
import SigilExpr.Stock.Values

/-!
# The command

The command takes a document `{"value": v, "expression": node}`, evaluates the expression in a scope
about the value, on the spot and on a clock, and prints both results. `Command.report` is all of it
but the reading of the file: what is printed, and the exit code.

Besides the core interpreters there are two sums of numbers (`$mathSum`, `$mathMult` for products),
a comparison (`$gt`, true if the second number is the larger) and a choice (`$if`). A missing value
or expression counts as null.
-/

namespace SigilExpr.Command

open SigilExpr.Core (param)

/-! ### The registry -/

/-- The sum of two numbers as a double. -/
def sum : Handler := fun ps _ => .value (.ofFloat ((param ps 0).toFloat + (param ps 1).toFloat))

/-- The product of two numbers as a double. -/
def product : Handler := fun ps _ => .value (.ofFloat ((param ps 0).toFloat * (param ps 1).toFloat))

/-- Whether the second number is larger than the first. -/
def greater : Handler := fun ps _ => .value (.bool ((param ps 1).toFloat > (param ps 0).toFloat))

/-- The interpreters of the command, besides the core. -/
def definitions : List (String × Definition) :=
  [("$mathSum", .declared (.ofSpecs sum [.number, .number])),
    ("$mathMult", .declared (.ofSpecs product [.number, .number])),
    ("$gt", .declared (.ofSpecs greater [.number, .number])),
    ("$if", .declared
      ((Declaration.ofSpecs Stock.choose [.boolean, .delayed, .delayed]).withFallback none))]

/-- The definitions of the command. -/
def builder (runtimeMode : RuntimeMode) : Builder :=
  (Core.builder runtimeMode).registerAll definitions

/-! ### The report -/

/-- What the command prints, and its exit code. -/
structure Report where
  /-- The exit code. -/
  exit : Nat
  /-- The standard output. -/
  stdout : String
  /-- The standard error. -/
  stderr : String
deriving DecidableEq, Repr

/-- The report of a failure. -/
def failure (message : String) : Report := ⟨1, "", message⟩

/-- The report when no document is named. -/
def usage : Report :=
  failure ("Usage: run_expr <path.json>\n"
    ++ "  e.g. cargo run -p jexpr-core --example run_expr -- "
    ++ "crates/jexpr-core/examples/order.json\n")

/-- The report of a document that is no JSON. -/
def unreadable (name : String) : Report := failure ("parse " ++ name)

/-- The wording of an evaluation without a value. -/
def haltMessage : Halt → String
  | .failed e => e.display
  | .exhausted => "evaluation budget used up"

/-- The report of two evaluations of one expression. -/
def reportResults (name : String) (sync async : Except Halt Json) : Report :=
  match sync, async with
  | .error why, _ => failure ("sync " ++ name ++ ": " ++ haltMessage why ++ "\n")
  | .ok _, .error why => failure ("async " ++ name ++ ": " ++ haltMessage why ++ "\n")
  | .ok v, .ok w => ⟨0, "sync:  " ++ v.pretty ++ "\nasync: " ++ w.pretty ++ "\n", ""⟩

/-- The part of a document under a key, null if there is none. -/
def part (document : Json) (key : String) : Json :=
  (document.field? key).getD .null

/-- The report of a document. -/
def reportDocument (name : String) (runtimeMode : RuntimeMode) (document : Json) : Report :=
  match (builder runtimeMode).build with
  | .error e => failure ("registry: " ++ e.display ++ "\n")
  | .ok registry =>
    let scope := Scope.root (part document "value")
    let node := part document "expression"
    reportResults name (registry.evaluate scope node).verdict (registry.launch scope node).verdict

/-- The report of a document given as text. -/
def report (name : String) (runtimeMode : RuntimeMode) (text : String) : Report :=
  match Json.read? text with
  | none => unreadable name
  | some document => reportDocument name runtimeMode document

end SigilExpr.Command
