import SigilExpr.Error
import SigilExpr.Scope

/-!
# Handlers and what they do

A handler is the body of an interpreter: it gets parameters and a context and answers with an
`Action`, which is a piece of data. An action finishes or fails, writes to the log, or asks for the
value of an expression and goes on with what comes of it. Such a request is answered on the spot,
without waiting, in every mode. To have an expression evaluated in the mode of the caller, a handler
finishes with `Outcome.evaluate`, and the value of that expression is then the value of the call.

Since actions are data, whatever is claimed about evaluation holds for all handlers at once. There
are two limits. A handler stays in the registry that called it: it hands over a scope and a node,
never another registry to evaluate the node in. And a hand-written executable, which is free to do
as it likes, is taken to be a `Performance`: it waits once, and nothing that it asks for takes time.
-/

namespace SigilExpr

/-- What can be seen of a registry from inside an evaluation. -/
structure Directory where
  /-- The registered identifiers, in ascending order. -/
  ids : List String
  /-- The runtime mode. -/
  runtimeMode : RuntimeMode

/-- The surroundings of a call. -/
structure Context where
  /-- What paths are read in. -/
  scope : Scope
  /-- The registry, as far as it can be seen. -/
  directory : Directory

namespace Context

/-- The current value. -/
def value (ctx : Context) : Json := ctx.scope.value

/-- Reads a path; no path at all stands for the current value. -/
def resolve? (ctx : Context) : Option String → Option Json
  | none => some ctx.value
  | some path => ctx.scope.resolve? path

end Context

/-- How a handler ends well. It does not leave its registry: an expression that it ends with is
evaluated by the registry that called it. -/
inductive Outcome where
  /-- With a value. -/
  | value (v : Json)
  /-- With whatever this expression evaluates to in this scope. -/
  | evaluate (scope : Scope) (node : Json)

/-- What a handler does. What it has evaluated, too, is evaluated by the registry that called it. -/
inductive Action where
  /-- Ends well. -/
  | finish (outcome : Outcome)
  /-- Gives up. -/
  | fail (e : EvalError)
  /-- Writes a value to the log, then goes on. -/
  | log (v : Json) (next : Action)
  /-- Has an expression evaluated on the spot, then goes on with the result. -/
  | evaluate (scope : Scope) (node : Json) (resume : Except EvalError Json → Action)

namespace Action

/-- Ends with a value. -/
def value (v : Json) : Action := .finish (.value v)

/-- Ends with the value of an expression. -/
def continueWith (scope : Scope) (node : Json) : Action := .finish (.evaluate scope node)

/-- Has an expression evaluated on the spot and its value checked. -/
def evaluateTyped (t : TypeSpec) (scope : Scope) (node : Json)
    (resume : Except EvalError Json → Action) : Action :=
  .evaluate scope node fun result => resume (result.bind t.check)

/-- Goes on with a value and gives up on an error. -/
def orFail (next : Json → Action) : Except EvalError Json → Action
  | .ok v => next v
  | .error e => .fail e

end Action

/-- The body of an interpreter: parameters and context to action. -/
abbrev Handler := List Json → Context → Action

/-- What a hand-written executable does with a call: it writes to the log, waits, and acts. That
covers neither a second wait after the action has begun nor an evaluation in the mode of the caller
that the executable goes on after; a request of the action is answered on the spot. -/
structure Performance where
  /-- What it writes to the log at the moment of the call. -/
  onCall : List Json := []
  /-- How long it then waits, once somebody waits for it. -/
  ticks : Nat := 0
  /-- What it does after that. -/
  action : Action

end SigilExpr
