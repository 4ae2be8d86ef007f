import SigilExpr.Plan.Launch
import SigilExpr.Plan.Run
import SigilExpr.Registry
import SigilExpr.Resolve

/-!
# Evaluating expressions

A node that is a call stands for what its interpreter makes of the arguments; every other node
stands for itself. An `Evaluator` turns a node into a `Call`:

* when the node is handed over it is visited, and there may be something to warn about;
* a declaration, once waited for, resolves its arguments as siblings, then its handler is called,
  then the handler's action is carried out;
* a raw handler has its arguments evaluated as siblings first;
* a hand-written executable writes its first entries to the log as soon as it is called, and does
  the rest of what it does once waited for.

Whatever fails inside of a call is tagged with its identifier on the way out (`Call.within`). So a
failure passes one tag for each call around it, of which the innermost stays.

Calls can lead to further calls without end, so a plan is made for a budget of nested evaluations.
`Registry.evaluate` and `Registry.launch` choose the budget by the depth of the node.
-/

namespace SigilExpr

/-- A way to evaluate nodes. -/
abbrev Evaluator := Mode → Scope → Json → Call

/-- What is carried out when a handler has answered with an action. Requests for values are answered
on the spot, in every mode. -/
def Action.plan (eval : Evaluator) (mode : Mode) : Action → Plan
  | .finish (.value v) => .done v
  | .finish (.evaluate scope node) => (eval mode scope node).plan
  | .fail e => .fail e
  | .log v next => .emit (.logged v) (next.plan eval mode)
  | .evaluate scope node resume =>
    .ask (eval .sync scope node).plan fun answer => (resume answer).plan eval mode

/-- What a declaration does with arguments: it resolves them, then the handler is called. -/
def Declaration.plan (eval : Evaluator) (mode : Mode) (ctx : Context) (d : Declaration)
    (args : List Json) : Plan :=
  .join
    (TypeSpec.resolveEach mode (eval mode ctx.scope) d.signature.specs
      (d.signature.supply mode args))
    fun params =>
      .emit (.invoked ⟨some d.signature, ctx.scope, args, params⟩)
        ((d.handler params ctx).plan eval mode)

/-- What a raw handler does with arguments: they are evaluated, then it is called. -/
def Handler.plan (eval : Evaluator) (mode : Mode) (ctx : Context) (handler : Handler)
    (args : List Json) : Plan :=
  .join (args.map (eval mode ctx.scope)) fun params =>
    .emit (.invoked ⟨none, ctx.scope, args, params⟩) ((handler params ctx).plan eval mode)

/-- The call of a hand-written executable. -/
def Performance.call (eval : Evaluator) (mode : Mode) (performance : Performance) : Call :=
  ⟨performance.onCall.map .logged, .wait performance.ticks (performance.action.plan eval mode)⟩

/-- The call of a routine. -/
def Routine.call (eval : Evaluator) (mode : Mode) (ctx : Context) (routine : Routine)
    (args : List Json) : Call :=
  match routine with
  | .declared d => .ofPlan (d.plan eval mode ctx args)
  | .raw handler => .ofPlan (handler.plan eval mode ctx args)
  | .written perform => (perform args ctx).call eval mode

/-- The call of an executable. -/
def Executable.call (eval : Evaluator) (mode : Mode) (ctx : Context) (executable : Executable)
    (args : List Json) : Call :=
  match executable with
  | .supported routine => routine.call eval mode ctx args
  | .unsupported id => .ofPlan (.fail (.unsupported id mode))

namespace Registry

/-- The context that calls see in a scope. -/
def context (registry : Registry) (scope : Scope) : Context :=
  ⟨scope, registry.directory⟩

/-- What happens when a node is handed to the evaluator. -/
def arrival (registry : Registry) (node : Json) : List Event :=
  .visited node :: (registry.warnings node).map .warned

/-- The evaluation of a node with a way to evaluate the nodes it leads to. -/
def evaluateWith (registry : Registry) (eval : Evaluator) : Evaluator := fun mode scope node =>
  Call.after (registry.arrival node) <|
    match registry.call? node with
    | none => .ofPlan (.done node)
    | some (id, interpreter, args) =>
      ((interpreter.side mode).call eval mode (registry.context scope) args).within id

/-- The evaluation of nodes of which nothing can come: they are called, and break off once waited
for. -/
def spent (registry : Registry) : Evaluator := fun mode scope node =>
  (registry.evaluateWith (fun _ _ _ => .ofPlan .exhausted) mode scope node).breakOff

/-- The evaluation of nodes within a budget of nested evaluations. -/
def evaluator (registry : Registry) : Nat → Evaluator
  | 0 => registry.spent
  | budget + 1 => registry.evaluateWith (registry.evaluator budget)

/-- What happens at the moment of a call does not depend on the way to evaluate further nodes. -/
theorem opening_evaluateWith (registry : Registry) (eval eval' : Evaluator) (mode : Mode)
    (scope : Scope) (node : Json) :
    (registry.evaluateWith eval mode scope node).opening =
      (registry.evaluateWith eval' mode scope node).opening := by
  unfold evaluateWith
  cases registry.call? node with
  | none => rfl
  | some call =>
    obtain ⟨id, interpreter, args⟩ := call
    simp only [Call.after, Call.within]
    cases interpreter.side mode with
    | unsupported id => rfl
    | supported routine => cases routine <;> rfl

/-! ### Budgets -/

/-- The nested evaluations that every evaluation may use: room for every recursion that is meant to
end. -/
def standardBudget : Nat := 1000000

/-- The budget for a node: the standard one, and room for what is nested in the node. -/
def budgetFor (node : Json) : Nat :=
  standardBudget + node.depth

/-- The plan of evaluating a node within a budget. -/
def planWithin (registry : Registry) (budget : Nat) (mode : Mode) (scope : Scope) (node : Json) :
    Plan :=
  (registry.evaluator budget mode scope node).plan

/-- The plan of evaluating a node and checking its value within a budget. -/
def planTypedWithin (registry : Registry) (budget : Nat) (t : TypeSpec) (mode : Mode)
    (scope : Scope) (node : Json) : Plan :=
  (registry.planWithin budget mode scope node).bind t.checked

/-- The plan of resolving an argument within a budget. -/
def planResolveWithin (registry : Registry) (budget : Nat) (t : TypeSpec) (mode : Mode)
    (scope : Scope) (raw : Json) : Plan :=
  (t.resolve mode (registry.evaluator budget mode scope) raw).plan

/-- The plan of calling an executable directly within a budget. -/
def planCallWithin (registry : Registry) (budget : Nat) (executable : Executable)
    (args : List Json) (mode : Mode) (scope : Scope) : Plan :=
  (executable.call (registry.evaluator budget) mode (registry.context scope) args).plan

/-- The plan of evaluating a node. -/
def plan (registry : Registry) (mode : Mode) (scope : Scope) (node : Json) : Plan :=
  registry.planWithin (budgetFor node) mode scope node

/-- The plan of evaluating a node and checking its value. -/
def planTyped (registry : Registry) (t : TypeSpec) (mode : Mode) (scope : Scope) (node : Json) :
    Plan :=
  registry.planTypedWithin (budgetFor node) t mode scope node

/-- The plan of resolving an argument. -/
def planResolve (registry : Registry) (t : TypeSpec) (mode : Mode) (scope : Scope) (raw : Json) :
    Plan :=
  registry.planResolveWithin (budgetFor raw) t mode scope raw

/-- The plan of calling an executable directly. -/
def planCall (registry : Registry) (executable : Executable) (args : List Json)
    (mode : Mode) (scope : Scope) : Plan :=
  registry.planCallWithin (budgetFor (.arr args)) executable args mode scope

/-- With budget left, a node that is a call of a routine comes to what the routine does. -/
theorem planWithin_succ_of_call {registry : Registry} {node : Json} {id : String}
    {interpreter : Interpreter} {args : List Json} {mode : Mode} {routine : Routine}
    (hcall : registry.call? node = some (id, interpreter, args))
    (hside : interpreter.side mode = .supported routine) (budget : Nat) (scope : Scope) :
    registry.planWithin (budget + 1) mode scope node =
      .emitAll (registry.arrival node)
        ((routine.call (registry.evaluator budget) mode (registry.context scope) args).within
          id).plan := by
  rw [planWithin, evaluator, evaluateWith, hcall, Call.plan_after]
  simp only [hside, Executable.call]

/-- With budget left, a node that is no call stands for itself. -/
theorem planWithin_succ_of_not_call {registry : Registry} {node : Json}
    (hcall : registry.call? node = none) (budget : Nat) (mode : Mode) (scope : Scope) :
    registry.planWithin (budget + 1) mode scope node =
      .emitAll (registry.arrival node) (.done node) := by
  rw [planWithin, evaluator, evaluateWith, hcall, Call.plan_after, Call.plan_ofPlan]

/-- Evaluates a node on the spot. -/
def evaluate (registry : Registry) (scope : Scope) (node : Json) : Run Json :=
  (registry.plan .sync scope node).run

/-- Evaluates a node on a clock that starts at zero. -/
def launch (registry : Registry) (scope : Scope) (node : Json) : Timeline Json :=
  (registry.plan .async scope node).launch 0

end Registry

end SigilExpr
