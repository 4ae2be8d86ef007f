import SigilExpr.Plan.Basic

/-!
# Running a plan on the spot

The sequential reading of plans: calls are made and carried out from left to right, the first that
ends without a value ends the whole, and waiting takes no time.

`Plan.carryOut` is the reading itself; it hands on all that has happened so far, so that a plan may
go on for as long as it likes. `Plan.run` is what comes of it, and the equations below (`run_emit`,
`run_ask`, `run_join`, `run_dispatch`) say so in terms of what comes of the parts. Runs compose:
`Plan.run_bind`.
-/

namespace SigilExpr

/-- What a run on the spot comes to. -/
structure Run (α : Type) where
  /-- What happened. -/
  trace : List Event
  /-- How it ended. -/
  verdict : Except Halt α

namespace Run

variable {α β γ : Type}

/-- A run that ends at once. -/
def done (a : α) : Run α := ⟨[], .ok a⟩

/-- Puts events in front. -/
def after (events : List Event) (run : Run α) : Run α :=
  ⟨events ++ run.trace, run.verdict⟩

/-- Goes on with the value of a run. -/
def bind (run : Run α) (next : α → Run β) : Run β :=
  match run.verdict with
  | .ok a => (next a).after run.trace
  | .error why => ⟨run.trace, .error why⟩

/-- Changes the value of a run. -/
def map (f : α → β) (run : Run α) : Run β :=
  ⟨run.trace, f <$> run.verdict⟩

/-- Goes on with the value of a run or with its error. -/
def answer (run : Run α) (resume : Except EvalError α → Run β) : Run β :=
  match run.verdict with
  | .ok a => (resume (.ok a)).after run.trace
  | .error (.failed e) => (resume (.error e)).after run.trace
  | .error .exhausted => ⟨run.trace, .error .exhausted⟩

/-- Tags the error of a run. -/
def within (id : String) (run : Run α) : Run α :=
  ⟨run.trace, run.verdict.mapError (Halt.within id)⟩

/-- The entries of the log, in order. -/
def log (run : Run α) : List Json :=
  run.trace.filterMap Event.logged?

/-- The identifiers that were warned about, in order. -/
def warnings (run : Run α) : List String :=
  run.trace.filterMap Event.warned?

@[simp] theorem after_nil (run : Run α) : run.after [] = run := rfl

@[simp] theorem after_after (xs ys : List Event) (run : Run α) :
    (run.after ys).after xs = run.after (xs ++ ys) := by
  simp [after]

@[simp] theorem verdict_after (events : List Event) (run : Run α) :
    (run.after events).verdict = run.verdict := rfl

@[simp] theorem done_bind (a : α) (next : α → Run β) : (done a).bind next = next a := rfl

@[simp] theorem bind_done (run : Run α) : run.bind done = run := by
  obtain ⟨trace, verdict⟩ := run
  cases verdict <;> simp [bind, done, after]

theorem bind_after (events : List Event) (run : Run α) (next : α → Run β) :
    (run.after events).bind next = (run.bind next).after events := by
  obtain ⟨trace, verdict⟩ := run
  cases verdict <;> simp [bind, after]

theorem bind_assoc (run : Run α) (f : α → Run β) (g : β → Run γ) :
    (run.bind f).bind g = run.bind fun a => (f a).bind g := by
  obtain ⟨trace, verdict⟩ := run
  cases verdict with
  | error why => rfl
  | ok a => exact bind_after trace (f a) g

/-- What a run goes on with needs to be looked at for its own value only. -/
theorem bind_congr {run : Run α} {f g : α → Run β} (h : ∀ a, run.verdict = .ok a → f a = g a) :
    run.bind f = run.bind g := by
  unfold bind
  split
  · rename_i a ha
    rw [h a ha]
  · rfl

theorem map_bind (run : Run α) (next : α → Run β) (f : β → γ) :
    (run.bind next).map f = run.bind fun a => (next a).map f := by
  obtain ⟨trace, verdict⟩ := run
  cases verdict <;> rfl

theorem map_map (run : Run α) (f : α → β) (g : β → γ) :
    (run.map f).map g = run.map (g ∘ f) := by
  obtain ⟨trace, verdict⟩ := run
  cases verdict <;> rfl

theorem bind_map (run : Run α) (f : α → β) (next : β → Run γ) :
    (run.map f).bind next = run.bind fun a => next (f a) := by
  obtain ⟨trace, verdict⟩ := run
  cases verdict <;> rfl

theorem verdict_bind_eq_ok_iff {run : Run α} {next : α → Run β} {b : β} :
    (run.bind next).verdict = .ok b ↔
      ∃ a, run.verdict = .ok a ∧ (next a).verdict = .ok b := by
  obtain ⟨trace, verdict⟩ := run
  cases verdict <;> simp [bind]

theorem verdict_map_eq_ok_iff {run : Run α} {f : α → β} {b : β} :
    (run.map f).verdict = .ok b ↔ ∃ a, run.verdict = .ok a ∧ f a = b := by
  obtain ⟨trace, verdict⟩ := run
  cases verdict <;> simp [map, Functor.map, Except.map]

@[simp] theorem trace_within (id : String) (run : Run α) : (run.within id).trace = run.trace := rfl

@[simp] theorem within_after (id : String) (events : List Event) (run : Run α) :
    (run.after events).within id = (run.within id).after events := rfl

/-- Tags make no difference to a value. -/
@[simp] theorem verdict_within_eq_ok_iff {id : String} {run : Run α} {a : α} :
    (run.within id).verdict = .ok a ↔ run.verdict = .ok a :=
  Halt.mapError_within_eq_ok_iff

/-- The innermost tag stays. -/
@[simp] theorem within_within (inner outer : String) (run : Run α) :
    (run.within inner).within outer = run.within inner := by
  simp [within]

theorem answer_bind (run : Run α) (resume : Except EvalError α → Run β) (next : β → Run γ) :
    (run.answer resume).bind next = run.answer fun answer => (resume answer).bind next := by
  obtain ⟨trace, verdict⟩ := run
  match verdict with
  | .ok a => exact bind_after trace (resume (.ok a)) next
  | .error (.failed e) => exact bind_after trace (resume (.error e)) next
  | .error .exhausted => rfl

end Run

namespace Plan

/-! ### Carrying out -/

mutual

/-- Carries out a plan after what has happened so far, the latest event first. The result is all
that has happened then, and how the plan ends. -/
def carryOut : Plan → List Event → List Event × Except Halt Json
  | .done v, past => (past, .ok v)
  | .halt why, past => (past, .error why)
  | .emit event rest, past => rest.carryOut (event :: past)
  | .wait _ rest, past => rest.carryOut past
  | .ask question resume, past =>
    match question.carryOut past with
    | (past, .ok v) => (resume (.ok v)).carryOut past
    | (past, .error (.failed e)) => (resume (.error e)).carryOut past
    | (past, .error .exhausted) => (past, .error .exhausted)
  | .join calls rest, past =>
    match carryOutAll calls past [] with
    | (past, .ok vs) => (rest vs).carryOut past
    | (past, .error why) => (past, .error why)
  | .dispatch id part rest, past =>
    match part.carryOut past with
    | (past, .ok v) => (rest v).carryOut past
    | (past, .error why) => (past, .error (why.within id))

/-- Makes calls and carries them out one after the other, up to the first that ends without a
value; `vs` holds the values so far, the latest first. -/
def carryOutAll : List Call → List Event → List Json → List Event × Except Halt (List Json)
  | [], past, vs => (past, .ok vs.reverse)
  | ⟨opening, body⟩ :: calls, past, vs =>
    match body.carryOut (opening.reverseAux past) with
    | (past, .ok v) => carryOutAll calls past (v :: vs)
    | (past, .error why) => (past, .error why)

end

/-- What a plan comes to on the spot. -/
def run (p : Plan) : Run Json :=
  match p.carryOut [] with
  | (past, verdict) => ⟨past.reverse, verdict⟩

/-- What calls come to that are made and carried out one after the other, up to the first that ends
without a value. -/
def runAll : List Call → Run (List Json)
  | [] => .done []
  | call :: calls => (call.body.run.after call.opening).bind fun v => (runAll calls).map (v :: ·)

/-! ### The equations of a run -/

private theorem exists_carryOutAll (calls : List Call)
    (h : ∀ call ∈ calls, ∃ trace verdict, ∀ past,
      call.body.carryOut past = (List.reverse trace ++ past, verdict)) (vs : List Json) :
    ∃ trace verdict, ∀ past, carryOutAll calls past vs = (List.reverse trace ++ past, verdict) := by
  induction calls generalizing vs with
  | nil => exact ⟨[], .ok vs.reverse, fun past => rfl⟩
  | cons call calls ih =>
    obtain ⟨opening, body⟩ := call
    obtain ⟨trace, verdict, hb⟩ := h ⟨opening, body⟩ (by simp)
    have ih := ih fun call hc => h call (by simp [hc])
    match verdict with
    | .error why => exact ⟨opening ++ trace, .error why, fun past => by simp [carryOutAll, hb]⟩
    | .ok v =>
      obtain ⟨more, verdict, hm⟩ := ih (v :: vs)
      exact ⟨opening ++ trace ++ more, verdict, fun past => by simp [carryOutAll, hb, hm]⟩

private theorem exists_carryOut (p : Plan) :
    ∃ trace verdict, ∀ past, p.carryOut past = (List.reverse trace ++ past, verdict) := by
  -- trace and verdict are chosen before the past is known, so each case asks how the parts end
  induction p with
  | done v => exact ⟨[], .ok v, fun _ => rfl⟩
  | halt why => exact ⟨[], .error why, fun _ => rfl⟩
  | emit event rest ih =>
    obtain ⟨trace, verdict, h⟩ := ih
    exact ⟨event :: trace, verdict, fun past => by simp [carryOut, h]⟩
  | wait ticks rest ih => exact ih
  | ask question resume hq hr =>
    obtain ⟨trace, verdict, h⟩ := hq
    match verdict with
    | .error .exhausted => exact ⟨trace, .error .exhausted, fun past => by simp [carryOut, h]⟩
    | .error (.failed e) =>
      obtain ⟨more, verdict, hm⟩ := hr (.error e)
      exact ⟨trace ++ more, verdict, fun past => by simp [carryOut, h, hm]⟩
    | .ok v =>
      obtain ⟨more, verdict, hm⟩ := hr (.ok v)
      exact ⟨trace ++ more, verdict, fun past => by simp [carryOut, h, hm]⟩
  | join calls rest hc hr =>
    obtain ⟨trace, verdict, h⟩ := exists_carryOutAll calls hc []
    match verdict with
    | .error why => exact ⟨trace, .error why, fun past => by simp [carryOut, h]⟩
    | .ok vs =>
      obtain ⟨more, verdict, hm⟩ := hr vs
      exact ⟨trace ++ more, verdict, fun past => by simp [carryOut, h, hm]⟩
  | dispatch id part rest hp hr =>
    obtain ⟨trace, verdict, h⟩ := hp
    match verdict with
    | .error why => exact ⟨trace, .error (why.within id), fun past => by simp [carryOut, h]⟩
    | .ok v =>
      obtain ⟨more, verdict, hm⟩ := hr v
      exact ⟨trace ++ more, verdict, fun past => by simp [carryOut, h, hm]⟩

/-- **Carrying out adds to the past.** It adds what the run says, whatever has happened before. -/
theorem carryOut_eq (p : Plan) (past : List Event) :
    p.carryOut past = (p.run.trace.reverse ++ past, p.run.verdict) := by
  obtain ⟨trace, verdict, h⟩ := exists_carryOut p
  simp [run, h]

theorem carryOutAll_eq (calls : List Call) (past : List Event) (vs : List Json) :
    carryOutAll calls past vs =
      ((runAll calls).trace.reverse ++ past, (vs.reverse ++ ·) <$> (runAll calls).verdict) := by
  induction calls generalizing past vs with
  | nil => simp [carryOutAll, runAll, Run.done, Functor.map, Except.map]
  | cons call calls ih =>
    obtain ⟨opening, body⟩ := call
    cases h : body.run.verdict with
    | error why =>
      simp [carryOutAll, runAll, carryOut_eq, Run.bind, Run.after, h, Functor.map, Except.map]
    | ok v =>
      cases hm : (runAll calls).verdict <;>
        simp [carryOutAll, runAll, carryOut_eq, Run.bind, Run.after, Run.map, h, ih, hm,
          Functor.map, Except.map]

private theorem run_eq_of {p : Plan} {trace : List Event} {verdict : Except Halt Json}
    (h : p.carryOut [] = (trace.reverse, verdict)) : p.run = ⟨trace, verdict⟩ := by
  simp [run, h]

@[simp] theorem run_done (v : Json) : (done v).run = .done v := rfl

@[simp] theorem run_halt (why : Halt) : (halt why).run = ⟨[], .error why⟩ := rfl

@[simp] theorem run_emit (event : Event) (rest : Plan) :
    (emit event rest).run = rest.run.after [event] :=
  run_eq_of (by rw [carryOut]; simp [carryOut_eq])

@[simp] theorem run_wait (ticks : Nat) (rest : Plan) : (wait ticks rest).run = rest.run := rfl

theorem run_ask (question : Plan) (resume : Except EvalError Json → Plan) :
    (ask question resume).run = question.run.answer fun answer => (resume answer).run := by
  unfold Run.answer
  split <;> rename_i h <;> exact run_eq_of (by rw [carryOut]; simp [carryOut_eq, h])

theorem run_join (calls : List Call) (rest : List Json → Plan) :
    (join calls rest).run = (runAll calls).bind fun vs => (rest vs).run := by
  unfold Run.bind
  split <;> rename_i h <;> exact run_eq_of (by rw [carryOut]; simp [carryOutAll_eq, carryOut_eq, h])

theorem run_dispatch (id : String) (part : Plan) (rest : Json → Plan) :
    (dispatch id part rest).run = (part.run.within id).bind fun v => (rest v).run := by
  refine run_eq_of ?_
  rw [carryOut, carryOut_eq]
  cases h : part.run.verdict <;>
    simp [Run.within, Run.after, carryOut_eq, h]

@[simp] theorem run_emitAll (events : List Event) (rest : Plan) :
    (emitAll events rest).run = rest.run.after events := by
  induction events with
  | nil => rfl
  | cons event events ih => simp [ih]

/-- What is done in a name comes to the same, tagged. -/
@[simp] theorem run_within (id : String) (p : Plan) : (p.within id).run = p.run.within id := by
  rw [within, run_dispatch]
  exact Run.bind_done _

/-- **Composition.** To run a plan that goes on is to run it and to go on from there. -/
theorem run_bind (next : Json → Plan) (p : Plan) :
    (p.bind next).run = p.run.bind fun v => (next v).run := by
  induction p with
  | done v => rfl
  | halt why => rfl
  | emit event rest ih => simp [bind, ih, Run.bind_after]
  | wait ticks rest ih => exact ih
  | ask question resume _ ih => simp [bind, run_ask, ih, Run.answer_bind]
  | join calls rest _ ih => simp [bind, run_join, Run.bind_assoc, ih]
  | dispatch id part rest _ ih => simp [bind, run_dispatch, Run.bind_assoc, ih]

end Plan

theorem Call.run_plan_within (id : String) (call : Call) :
    (call.within id).plan.run = call.plan.run.within id := by
  simp [plan]

end SigilExpr
