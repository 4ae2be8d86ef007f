import SigilExpr.Interpreter

/-!
# Plans and calls

The evaluation of an expression stands for a `Plan`: what happens, in which order, what waits for
what, and what comes of it. A plan is data, and it does not say how siblings share time. Two
readings do: `Plan.run` goes through them one after the other, `Plan.launch` lets them proceed side
by side on a clock.

Some things happen as soon as an expression is handed to the evaluator, others only once somebody
waits for its value. So what an expression comes to is a `Call`: the events of its opening, and the
plan of everything further. What happens leaves a trace of events: every node that is handed to the
evaluator, every warning, every call of a handler, every entry of the log.

Evaluation can go on for ever, so a plan may also break off because its budget is used up. That is
no error of the evaluation: `Halt.exhausted` is told apart from `Halt.failed` everywhere.
-/

namespace SigilExpr

/-- The call of a handler. -/
structure Invocation where
  /-- The parameters as declared; none for a raw handler. -/
  signature : Option Signature
  /-- The scope of the call. -/
  scope : Scope
  /-- The arguments as written. -/
  args : List Json
  /-- The parameters that the handler gets. -/
  params : List Json

/-- Something that happens during an evaluation. -/
inductive Event where
  /-- A node is handed to the evaluator. -/
  | visited (node : Json)
  /-- A warning: this identifier looks like a call and is not registered. -/
  | warned (id : String)
  /-- A handler is called. -/
  | invoked (call : Invocation)
  /-- A value is written to the log. -/
  | logged (v : Json)

namespace Event

/-- The entry of the log that an event makes. -/
def logged? : Event → Option Json
  | logged v => some v
  | _ => none

/-- The identifier that an event warns about. -/
def warned? : Event → Option String
  | warned id => some id
  | _ => none

/-- The call that an event reports. -/
def invoked? : Event → Option Invocation
  | invoked call => some call
  | _ => none

/-- The node that an event hands to the evaluator. -/
def visited? : Event → Option Json
  | visited node => some node
  | _ => none

end Event

/-- Why an evaluation has no value. -/
inductive Halt where
  /-- It failed. -/
  | failed (e : EvalError)
  /-- Its budget was used up. -/
  | exhausted

namespace Halt

/-- Tags the error, if it is one, on its way out of an interpreter. -/
def within (id : String) : Halt → Halt
  | failed e => failed (e.within id)
  | exhausted => exhausted

@[simp] theorem within_failed (id : String) (e : EvalError) :
    (failed e).within id = failed (e.within id) := rfl

@[simp] theorem within_exhausted (id : String) : exhausted.within id = exhausted := rfl

/-- The innermost tag stays. -/
@[simp] theorem within_within (inner outer : String) (why : Halt) :
    (why.within inner).within outer = why.within inner := by
  cases why with
  | failed e => rw [within_failed, within_failed, EvalError.within_within]
  | exhausted => rfl

@[simp] theorem mapError_ok {α : Type} (f : Halt → Halt) (a : α) :
    (.ok a : Except Halt α).mapError f = .ok a := rfl

@[simp] theorem mapError_error {α : Type} (f : Halt → Halt) (why : Halt) :
    (.error why : Except Halt α).mapError f = .error (f why) := rfl

/-- Tags make no difference to a value. -/
@[simp] theorem mapError_within_eq_ok_iff {α : Type} {id : String} {verdict : Except Halt α}
    {a : α} : verdict.mapError (within id) = .ok a ↔ verdict = .ok a := by
  cases verdict <;> simp

/-- Nor do they make one to the end of a budget. -/
@[simp] theorem mapError_within_eq_exhausted_iff {α : Type} {id : String}
    {verdict : Except Halt α} :
    verdict.mapError (within id) = .error exhausted ↔ verdict = .error exhausted := by
  match verdict with
  | .ok a => simp
  | .error (.failed e) => simp
  | .error .exhausted => simp

@[simp] theorem mapError_within_within {α : Type} (inner outer : String) (verdict : Except Halt α) :
    (verdict.mapError (within inner)).mapError (within outer) =
      verdict.mapError (within inner) := by
  cases verdict <;> simp

end Halt

mutual

/-- What an evaluation is going to do once somebody waits for it. -/
inductive Plan where
  /-- Ends with a value. -/
  | done (v : Json)
  /-- Ends without one. -/
  | halt (why : Halt)
  /-- Lets something happen, then goes on. -/
  | emit (event : Event) (rest : Plan)
  /-- Waits, then goes on. -/
  | wait (ticks : Nat) (rest : Plan)
  /-- Has a question answered on the spot, then goes on with the answer. -/
  | ask (question : Plan) (resume : Except EvalError Json → Plan)
  /-- Makes calls, waits for all of them, and goes on with their values in the order of the
  calls. -/
  | join (calls : List Call) (rest : List Json → Plan)
  /-- Does what is done in the name of an interpreter, then goes on with its value. An error is
  tagged with the name on its way out. -/
  | dispatch (id : String) (part : Plan) (rest : Json → Plan)

/-- An evaluation from the moment of the call. -/
structure Call where
  /-- What happens at once, whether or not somebody ever waits. -/
  opening : List Event
  /-- What is done once somebody waits. -/
  body : Plan

end

namespace Plan

/-- **Induction.** What holds of a plan if it holds of all that the plan leads to holds of every
plan. -/
@[elab_as_elim, induction_eliminator]
theorem inductionOn {motive : Plan → Prop}
    (done : ∀ v, motive (.done v))
    (halt : ∀ why, motive (.halt why))
    (emit : ∀ event rest, motive rest → motive (.emit event rest))
    (wait : ∀ ticks rest, motive rest → motive (.wait ticks rest))
    (ask : ∀ question resume, motive question → (∀ answer, motive (resume answer)) →
      motive (.ask question resume))
    (join : ∀ calls rest, (∀ call ∈ calls, motive call.body) → (∀ vs, motive (rest vs)) →
      motive (.join calls rest))
    (dispatch : ∀ id part rest, motive part → (∀ v, motive (rest v)) →
      motive (.dispatch id part rest))
    (p : Plan) : motive p :=
  @Plan.rec motive (fun call => motive call.body) (fun calls => ∀ call ∈ calls, motive call.body)
    done halt emit wait ask join dispatch (fun _ _ h => h) (fun _ h => nomatch h)
    (fun _ _ head tail => List.forall_mem_cons.2 ⟨head, tail⟩) p

/-- Ends with an error. -/
def fail (e : EvalError) : Plan := .halt (.failed e)

/-- Breaks off because the budget is used up. -/
def exhausted : Plan := .halt .exhausted

/-- Ends with a value or an error. -/
def ofResult : Except EvalError Json → Plan
  | .ok v => .done v
  | .error e => .fail e

/-- Lets several things happen. -/
def emitAll (events : List Event) (rest : Plan) : Plan :=
  events.foldr .emit rest

/-- Goes on with the value of a plan. -/
def bind (next : Json → Plan) : Plan → Plan
  | .done v => next v
  | .halt why => .halt why
  | .emit event rest => .emit event (rest.bind next)
  | .wait ticks rest => .wait ticks (rest.bind next)
  | .ask question resume => .ask question fun answer => (resume answer).bind next
  | .join calls rest => .join calls fun vs => (rest vs).bind next
  | .dispatch id part rest => .dispatch id part fun v => (rest v).bind next

/-- Does everything in the name of an interpreter. -/
def within (id : String) (p : Plan) : Plan := .dispatch id p .done

@[simp] theorem emitAll_nil (rest : Plan) : emitAll [] rest = rest := rfl

@[simp] theorem emitAll_cons (event : Event) (events : List Event) (rest : Plan) :
    emitAll (event :: events) rest = .emit event (emitAll events rest) := rfl

theorem emitAll_append (xs ys : List Event) (rest : Plan) :
    emitAll (xs ++ ys) rest = emitAll xs (emitAll ys rest) := List.foldr_append

@[simp] theorem bind_done (next : Json → Plan) (v : Json) : (done v).bind next = next v := rfl

@[simp] theorem bind_halt (next : Json → Plan) (why : Halt) :
    (halt why).bind next = .halt why := rfl

@[simp] theorem bind_emitAll (next : Json → Plan) (events : List Event) (rest : Plan) :
    (emitAll events rest).bind next = emitAll events (rest.bind next) := by
  induction events with
  | nil => rfl
  | cons event events ih => simp [bind, ih]

end Plan

namespace Call

/-- A call at which nothing happens. -/
def ofPlan (body : Plan) : Call := ⟨[], body⟩

/-- The plan of making the call and waiting for it at once. -/
def plan (call : Call) : Plan := .emitAll call.opening call.body

/-- Lets more happen at the moment of the call, before anything else. -/
def after (events : List Event) (call : Call) : Call := ⟨events ++ call.opening, call.body⟩

/-- What is done once somebody waits is done in the name of an interpreter. -/
def within (id : String) (call : Call) : Call := ⟨call.opening, call.body.within id⟩

/-- The call is made, and breaks off once waited for. -/
def breakOff (call : Call) : Call := ⟨call.opening, .exhausted⟩

@[simp] theorem opening_within (id : String) (call : Call) :
    (call.within id).opening = call.opening := rfl

@[simp] theorem body_within (id : String) (call : Call) :
    (call.within id).body = call.body.within id := rfl

@[simp] theorem plan_ofPlan (body : Plan) : (ofPlan body).plan = body := rfl

theorem plan_after (events : List Event) (call : Call) :
    (call.after events).plan = .emitAll events call.plan := by
  rw [plan, after, Plan.emitAll_append, plan]

end Call

end SigilExpr
