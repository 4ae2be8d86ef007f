import SigilExpr.Evaluate

/-!
# Core interpreters

Three interpreters that every registry starts with unless it is built from nothing:

* `["$value", path, default]` reads a path, no path standing for the current value; on a miss it is
  the value of the default, which is evaluated only then;
* `["$literal", v]` is `v` as it is written;
* `["$evaluate", node, v]` is the value of the node in a scope of its own about the value of `v`,
  or about the current value if `v` is left out.

The first two leave nothing to default; the third has the current value as its last parameter's
default.
-/

namespace SigilExpr.Core

/-- The identifier of the interpreter for values as written. -/
def literalId : String := "$literal"

/-- The identifier of the interpreter for scopes. -/
def evaluateId : String := "$evaluate"

/-- The parameter at a position, null if there is none. -/
def param (params : List Json) (position : Nat) : Json :=
  params[position]?.getD .null

/-- Reads a path, or has the default evaluated. -/
def readValue : Handler := fun params ctx =>
  match ctx.resolve? (param params 0).str? with
  | some v => .value v
  | none => .continueWith ctx.scope (param params 1)

/-- Gives back its parameter. -/
def giveBack : Handler := fun params _ =>
  .value (param params 0)

/-- Has a node evaluated in a scope about another value. -/
def evaluateIn : Handler := fun params ctx =>
  .continueWith (ctx.scope.withValue (param params 1)) (param params 0)

/-- The interpreter that reads the current value. -/
def value : Declaration :=
  (Declaration.ofSpecs readValue [.oneOf [.string, .null], .delayed]).withFallback none

/-- The interpreter for values as written. -/
def literal : Declaration :=
  (Declaration.ofSpecs giveBack [.delayed]).withFallback none

/-- The interpreter for scopes. -/
def evaluate : Declaration :=
  Declaration.ofSpecs evaluateIn [.delayed, .anything]

/-- The core interpreters under their identifiers. -/
def definitions : List (String × Definition) :=
  [(valueId, .declared value), (literalId, .declared literal), (evaluateId, .declared evaluate)]

/-- A builder that holds the core interpreters. -/
def builder (runtimeMode : RuntimeMode) : Builder :=
  (Builder.empty runtimeMode).registerAll definitions

end SigilExpr.Core
