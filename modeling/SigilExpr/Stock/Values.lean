import SigilExpr.Core

/-!
# Stock handlers for values and scopes

Ready-made handlers that pass values on, read the context, write to the log, or have an expression
evaluated somewhere else. A parameter that is absent counts as null.
-/

namespace SigilExpr.Stock

open SigilExpr.Core (param)

/-! ### Values -/

/-- All parameters as an array. -/
def params : Handler := fun ps _ => .value (.arr ps)

/-- The first parameter. -/
def first : Handler := Core.giveBack

/-- Always the same value. -/
def constant (v : Json) : Handler := fun _ _ => .value v

/-- The current value. -/
def current : Handler := fun _ ctx => .value ctx.value

/-- Always the same error. -/
def failure (e : EvalError) : Handler := fun _ _ => .fail e

/-- Writes the first parameter to the log and gives it back. -/
def log : Handler := fun ps _ => .log (param ps 0) (.value (param ps 0))

/-- Reads the path in the first parameter; none if that is not a string. The value read is put into
an array, which is empty on a miss. -/
def resolve : Handler := fun ps ctx =>
  match ctx.resolve? (param ps 0).str? with
  | some v => .value (.arr [v])
  | none => .value (.arr [])

/-! ### Expressions in parameters -/

/-- The value of the first parameter. -/
def evaluate : Handler := fun ps ctx => .continueWith ctx.scope (param ps 0)

/-- The value of the second parameter where the first is true, of the third where it is not. -/
def choose : Handler := fun ps ctx =>
  match param ps 0 with
  | .bool true => .continueWith ctx.scope (param ps 1)
  | _ => .continueWith ctx.scope (param ps 2)

/-- The value of the second parameter in a scope about the first. -/
def evaluateIn : Handler := fun ps ctx =>
  .continueWith (ctx.scope.withValue (param ps 0)) (param ps 1)

/-- The bindings that an object describes; none for other values. -/
def bindingsOf : Json → Fields Json
  | .obj fields => fields
  | _ => []

/-- The value of the third parameter in a scope about the first, with the bindings of the second. -/
def bind : Handler := fun ps ctx =>
  .continueWith (ctx.scope.child (param ps 0) (bindingsOf (param ps 1))) (param ps 2)

/-- The value of the third parameter with the first two as left and right side. -/
def compare : Handler := fun ps ctx =>
  let sides := Fields.ofList [(Scope.leftKey, param ps 0), (Scope.rightKey, param ps 1)]
  .continueWith (ctx.scope.child ctx.value sides) (param ps 2)

/-- The value of the first parameter, evaluated on the spot and checked against the spec that a form
describes. -/
def typed (form : Json) : Handler := fun ps ctx =>
  match TypeSpec.read form with
  | .error e => .fail e
  | .ok t => .evaluateTyped t ctx.scope (param ps 0) (Action.orFail .value)

end SigilExpr.Stock
