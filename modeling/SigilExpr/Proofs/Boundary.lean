import SigilExpr.Proofs.Course.Every
import SigilExpr.Proofs.Simulation
import SigilExpr.Stock.Values

/-!
# What handlers are called with

A handler is called with one parameter for each shape that is declared, and each parameter has its
shape: in either mode, in the midst of any evaluation, whatever anything comes to and however long
it takes. Where a parameter has no value the handler is not called. The main result is
`Registry.invoked_wellTyped`.

`Plan.Every` says of a plan that all that ever happens in it has some property. It is kept by
everything that evaluation does (`Simulation.every`), if the property is true of entries of the log,
and in a registry of visits, warnings and calls of handlers (`Simulation.every_fits`).
-/

namespace SigilExpr

variable {α β : Type} {P : Event → Prop}

/-! ### All that happens has a property -/

/-- Every event in the trace has a property. -/
def Run.Every (P : Event → Prop) (run : Run α) : Prop := ∀ event ∈ run.trace, P event

namespace Run.Every

theorem after {run : Run α} {events : List Event} (he : ∀ event ∈ events, P event)
    (h : run.Every P) : (run.after events).Every P := fun event hm =>
  (List.mem_append.1 hm).elim (he event) (h event)

theorem map {run : Run α} (h : run.Every P) (f : α → β) : (run.map f).Every P := h

theorem bind {run : Run α} {next : α → Run β} (h : run.Every P)
    (hnext : ∀ a, run.verdict = .ok a → (next a).Every P) : (run.bind next).Every P := by
  unfold Run.bind
  split
  · rename_i a ha
    exact (hnext a ha).after h
  · exact h

theorem answer {run : Run α} {resume : Except EvalError α → Run β} (h : run.Every P)
    (hnext : ∀ answer, (resume answer).Every P) : (run.answer resume).Every P := by
  unfold Run.answer
  split
  · exact (hnext _).after h
  · exact (hnext _).after h
  · exact h

end Run.Every

/-- All that ever happens in a plan has a property, on the spot and on a clock. -/
structure Plan.Every (P : Event → Prop) (p : Plan) : Prop where
  run : p.run.Every P
  course : ∀ now turn, (∀ event ∈ turn.events, P event) → (p.course now turn).Every P

/-- All that ever happens at a call has a property. -/
structure Call.Every (P : Event → Prop) (call : Call) : Prop where
  opening : ∀ event ∈ call.opening, P event
  body : call.body.Every P

namespace Plan

theorem Every.launch {p : Plan} (h : p.Every P) (time : Nat) :
    ∀ entry ∈ (p.launch time).trace, P entry.2 :=
  (h.course time .start (by simp [Turn.start])).timeline time

/-- The event happens in the course of the plan, on the spot or on a clock. -/
def Happens (p : Plan) (event : Event) : Prop :=
  event ∈ p.run.trace ∨ ∃ start time, (time, event) ∈ (p.launch start).trace

theorem Every.of_happens {p : Plan} (h : p.Every P) {event : Event} (hevent : p.Happens event) :
    P event := by
  rcases hevent with hm | ⟨start, time, hm⟩
  · exact h.run event hm
  · exact h.launch start _ hm

theorem runAll_every {calls : List Call} (h : ∀ call ∈ calls, call.Every P) :
    (runAll calls).Every P := by
  induction calls with
  | nil => simp [runAll, Run.done, Run.Every]
  | cons call calls ih =>
    obtain ⟨hcall, hrest⟩ := List.forall_mem_cons.1 h
    rw [runAll]
    exact (hcall.body.run.after hcall.opening).bind fun v _ => (ih hrest).map _

theorem done_every (v : Json) : (done v).Every P :=
  ⟨by simp [Run.Every, Run.done], fun _ _ ht => ht⟩

theorem halt_every (why : Halt) : (halt why).Every P := ⟨by simp [Run.Every], fun _ _ ht => ht⟩

theorem ofResult_every (result : Except EvalError Json) : (ofResult result).Every P := by
  cases result with
  | ok v => exact done_every v
  | error e => exact halt_every _

private theorem forall_noteAll {turn : Turn} {events : List Event}
    (ht : ∀ event ∈ turn.events, P event) (he : ∀ event ∈ events, P event) :
    ∀ event ∈ (turn.noteAll events).events, P event := by
  intro event hm
  -- a turn holds its events with the latest first
  rw [Turn.noteAll, List.reverseAux_eq, List.mem_append, List.mem_reverse] at hm
  exact hm.elim (he event) (ht event)

theorem emitAll_every {events : List Event} {p : Plan} (he : ∀ event ∈ events, P event)
    (h : p.Every P) : (emitAll events p).Every P where
  run := by
    rw [run_emitAll]
    exact h.run.after he
  course now turn ht := by
    rw [course_emitAll]
    exact h.course now _ (forall_noteAll ht he)

theorem wait_every {p : Plan} (h : p.Every P) (ticks : Nat) : (wait ticks p).Every P where
  run := h.run
  course now turn ht := by
    cases ticks with
    | zero => exact h.course now turn ht
    -- the next turn starts with no events
    | succ ticks => exact ⟨ht, h.course _ _ (by simp [Turn.start])⟩

theorem ask_every {question : Plan} {resume : Except EvalError Json → Plan}
    (hq : question.run.Every P) (h : ∀ answer, (resume answer).Every P) :
    (ask question resume).Every P where
  run := by
    rw [run_ask]
    exact hq.answer fun answer => (h answer).run
  course now turn ht := by
    -- the question is answered in the turn in which it is asked
    have hturn := forall_noteAll ht hq
    rw [course_ask]
    split
    · exact (h _).course now _ hturn
    · exact (h _).course now _ hturn
    · exact hturn

theorem join_every {calls : List Call} {rest : List Json → Plan}
    (hc : ∀ call ∈ calls, call.Every P)
    (h : ∀ vs, (runAll calls).verdict = .ok vs → (rest vs).Every P) :
    (join calls rest).Every P where
  run := by
    rw [run_join]
    exact (runAll_every hc).bind fun vs hvs => (h vs hvs).run
  course now turn ht := by
    have hopening : ∀ event ∈ calls.flatMap Call.opening, P event := by
      intro event hm
      obtain ⟨call, hcall, hevent⟩ := List.mem_flatMap.1 hm
      exact (hc call hcall).opening event hevent
    have hstarts : ∀ start ∈ starts calls now, Course.Extends start ∧ (start .start).Every P := by
      intro start hm
      rw [starts_eq_map] at hm
      obtain ⟨call, hcall, rfl⟩ := List.mem_map.1 hm
      exact ⟨course_extends call.body now,
        (hc call hcall).body.course now .start (by simp [Turn.start])⟩
    -- what the join goes on with gets the values that the calls have on the spot
    rw [course_join]
    refine (Course.join_every hstarts now (forall_noteAll ht hopening)).bind ?_
    exact fun later part vs hvs hpart =>
      (h vs (verdict_runAll_of_join hvs)).course later part hpart

theorem bind_every {p : Plan} {next : Json → Plan} (hp : p.Every P) (h : ∀ v, (next v).Every P) :
    (p.bind next).Every P where
  run := by
    rw [run_bind]
    exact hp.run.bind fun v _ => (h v).run
  course now turn ht := by
    rw [course_bind]
    exact (hp.course now turn ht).bind fun later part v _ hpart => (h v).course later part hpart

end Plan

namespace Call.Every

theorem ofPlan {p : Plan} (h : p.Every P) : (Call.ofPlan p).Every P :=
  ⟨fun _ hm => (nomatch hm), h⟩

theorem plan {call : Call} (h : call.Every P) : call.plan.Every P :=
  Plan.emitAll_every h.opening h.body

theorem breakOff {call : Call} (h : call.Every P) : call.breakOff.Every P :=
  ⟨h.opening, Plan.halt_every _⟩

theorem within {call : Call} (h : call.Every P) (id : String) : (call.within id).Every P where
  opening := h.opening
  body := by
    -- a tag is no event
    refine ⟨?_, fun now turn ht => ?_⟩
    · rw [Call.body_within, Plan.run_within]
      exact h.body.run
    · rw [Call.body_within, Plan.course_within, Course.every_within]
      exact h.body.course now turn ht

theorem after {call : Call} (h : call.Every P) {events : List Event}
    (he : ∀ event ∈ events, P event) : (call.after events).Every P :=
  ⟨fun event hm => (List.mem_append.1 hm).elim (he event) (h.opening event), h.body⟩

end Call.Every

/-- Plans in which all that happens has a property, each related to itself and to any other. -/
def Simulation.every (P : Event → Prop) (hlogged : ∀ v, P (.logged v)) : Simulation where
  event := P
  plan p _ := p.Every P
  call c _ := c.Every P
  written a b := a = b
  done := Plan.done_every
  halt := Plan.halt_every
  emit {event p q} he h := by
    have hsingle : ∀ e ∈ [event], P e := by simpa using he
    exact Plan.emitAll_every hsingle h
  ask hq h := Plan.ask_every hq.run h
  join {cs ds f g} hcs h := by
    refine Plan.join_every (fun call hm => ?_) h
    obtain ⟨_, _, hc⟩ := hcs.flip.exists_left_of_mem hm
    exact hc
  bind hp h := Plan.bind_every hp h
  ofPlan := Call.Every.ofPlan
  made := Call.Every.plan
  within id h := h.within id
  breakOff := Call.Every.breakOff
  logged := hlogged
  action_eq h := congrArg Performance.action h
  perform {a b p q} h hp := by
    refine ⟨fun event hm => ?_, Plan.wait_every hp a.ticks⟩
    obtain ⟨v, -, rfl⟩ := List.mem_map.1 hm
    exact hlogged v

/-- In a registry all that happens has a property if it is true of visits, of the warnings that the
registry gives, and of the calls of handlers. -/
theorem Simulation.every_fits {registry : Registry} {hlogged : ∀ v, P (.logged v)}
    (hvisited : ∀ node, P (.visited node))
    (hwarned : ∀ node, ∀ id ∈ registry.warnings node, P (.warned id))
    (hinvoked : ∀ {eval mode} {call : Invocation}, registry.Way eval → call.Arises eval mode →
      P (.invoked call)) : (every P hlogged).Fits registry where
  arrival {c d} node h := by
    refine Call.Every.after h fun event hm => ?_
    -- at the arrival of a node there is its visit, and a warning perhaps
    rw [Registry.arrival, List.mem_cons, List.mem_map] at hm
    rcases hm with rfl | ⟨id, hid, rfl⟩
    · exact hvisited node
    · exact hwarned node id hid
  invoked := hinvoked

/-- All the plans that a registry has within a budget, in a mode and a scope, have a property. -/
structure Registry.EachPlan (registry : Registry) (budget : Nat) (mode : Mode) (scope : Scope)
    (P : Plan → Prop) : Prop where
  node : ∀ node, P (registry.planWithin budget mode scope node)
  typed : ∀ t node, P (registry.planTypedWithin budget t mode scope node)
  argument : ∀ t raw, P (registry.planResolveWithin budget t mode scope raw)
  executable : ∀ executable args, P (registry.planCallWithin budget executable args mode scope)

theorem Registry.EachPlan.mono {registry : Registry} {budget : Nat} {mode : Mode} {scope : Scope}
    {P Q : Plan → Prop} (h : registry.EachPlan budget mode scope P) (hPQ : ∀ p, P p → Q p) :
    registry.EachPlan budget mode scope Q where
  node node := hPQ _ (h.node node)
  typed t node := hPQ _ (h.typed t node)
  argument t raw := hPQ _ (h.argument t raw)
  executable executable args := hPQ _ (h.executable executable args)

/-- **All that happens in a registry has a property** if it is true of what the registry makes
happen. -/
theorem Registry.eachPlan_every {registry : Registry} {hlogged : ∀ v, P (.logged v)}
    (hfits : (Simulation.every P hlogged).Fits registry) (budget : Nat) (mode : Mode)
    (scope : Scope) : registry.EachPlan budget mode scope (Plan.Every P) := by
  have hsame := fun mode =>
    (Simulation.every P hlogged).interpreters_same (fun _ => rfl) mode registry
  have hall := Simulation.evaluator (hsame .sync) (hsame mode) budget
  refine ⟨fun node => ?_, fun t node => ?_, fun t raw => ?_, fun executable args => ?_⟩
  · exact hall.planWithin scope node
  · exact hall.planTypedWithin scope t node
  · exact hall.planResolveWithin scope ((Simulation.every P hlogged).resolves mode t) raw
  · have hx := (Simulation.every P hlogged).executables_same (fun _ => rfl) mode executable
    exact hall.planCallWithin scope hx args

/-! ### What handlers get -/

/-- The event is no call with parameters that do not have the declared shapes. -/
def Event.Harmless (event : Event) : Prop :=
  ∀ call, event = .invoked call → call.WellTyped

/-- Evaluations in which handlers get parameters of the declared shapes. -/
def Simulation.harmless : Simulation :=
  every Event.Harmless fun _ => nofun

instance Simulation.harmless_fits (registry : Registry) : harmless.Fits registry :=
  every_fits (fun _ => nofun) (fun _ _ _ => nofun)
    fun _ h _ he => Event.invoked.inj he ▸ h.wellTyped

/-- Whenever a handler is called in the course of the plan, on the spot or on a clock, it gets
parameters of the declared shapes. -/
def Plan.CallsWellTyped (p : Plan) : Prop :=
  ∀ call : Invocation,
    (.invoked call ∈ p.run.trace → call.WellTyped) ∧
    ∀ start time, (time, .invoked call) ∈ (p.launch start).trace → call.WellTyped

theorem Plan.callsWellTyped_of_every {p : Plan} (h : p.Every Event.Harmless) :
    p.CallsWellTyped := fun call =>
  ⟨fun hm => h.run _ hm call rfl, fun start _ hm => h.launch start _ hm call rfl⟩

namespace Plan

/-- All that happens in the plan happens to the calls, and it fails as they do, up to a tag. -/
def FailsLike (p : Plan) (calls : List Call) (tag : Halt → Halt) : Prop :=
  (∃ why, (runAll calls).verdict = .error why ∧
      p.run = ⟨(runAll calls).trace, .error (tag why)⟩) ∧
    ∀ time, ∃ why, (launchAll calls time).verdict = .error why ∧
      p.launch time =
        ⟨(launchAll calls time).trace, (launchAll calls time).settledAt, .error (tag why)⟩

/-- Plans that come to the same, on the spot and on a clock. -/
def Alike (p q : Plan) : Prop := p.run = q.run ∧ ∀ time, p.launch time = q.launch time

variable {p q : Plan}

theorem FailsLike.within {calls : List Call} (h : p.FailsLike calls id) (name : String) :
    (p.within name).FailsLike calls (Halt.within name) := by
  obtain ⟨⟨why, hv, hrun⟩, hlaunch⟩ := h
  refine ⟨⟨why, hv, by rw [run_within, hrun]; rfl⟩, fun time => ?_⟩
  obtain ⟨why, hv, hlaunch⟩ := hlaunch time
  exact ⟨why, hv, by rw [launch_within, hlaunch]; rfl⟩

theorem Alike.within (h : p.Alike q) (name : String) : (p.within name).Alike (q.within name) := by
  refine ⟨by rw [run_within, run_within, h.1], fun time => ?_⟩
  rw [launch_within, launch_within, h.2 time]

end Plan

namespace Declaration

variable (eval : Evaluator) (mode : Mode) (ctx : Context)

/-- The calls by which the parameters of a handler come about. -/
def paramCalls (signature : Signature) (args : List Json) : List Call :=
  TypeSpec.resolveEach mode (eval mode ctx.scope) signature.specs (signature.supply mode args)

variable {eval mode ctx}

theorem plan_eq_join (d : Declaration) (args : List Json) :
    d.plan eval mode ctx args =
      .join (paramCalls eval mode ctx d.signature args) fun params =>
        .emit (.invoked ⟨some d.signature, ctx.scope, args, params⟩)
          ((d.handler params ctx).plan eval mode) := rfl

/-- One of the parameters comes to no value. -/
def ParamMissing (eval : Evaluator) (mode : Mode) (ctx : Context) (signature : Signature)
    (args : List Json) : Prop :=
  ∃ call ∈ paramCalls eval mode ctx signature args, ∀ v, call.body.run.verdict ≠ .ok v

/-- Where a parameter is missing there is nothing to go on with. -/
theorem failsLike_of_missing {d : Declaration} {args : List Json}
    (h : ParamMissing eval mode ctx d.signature args) :
    (d.plan eval mode ctx args).FailsLike (paramCalls eval mode ctx d.signature args) id := by
  obtain ⟨call, hcall, hnone⟩ := h
  refine ⟨?_, fun time => ?_⟩
  · obtain ⟨why, hv⟩ := Plan.verdict_runAll_of_missing hcall hnone
    exact ⟨why, hv, by rw [plan_eq_join, Plan.run_join, Run.bind, hv]; rfl⟩
  · -- a parameter that has no value on the spot has none on a clock
    have hlate : ∀ v, (call.body.launch time).verdict ≠ .ok v := fun v hv =>
      hnone v ((Plan.verdict_launch_eq_ok_iff call.body time v).1 hv)
    obtain ⟨why, hv⟩ := Plan.verdict_launchAll_of_missing hcall hlate
    exact ⟨why, hv, by rw [plan_eq_join, Plan.launch_join_of_error hv]; rfl⟩

/-- Handlers cannot be told apart that agree on parameters of the declared shapes. -/
theorem plan_congr {d : Declaration} {handler : Handler}
    (h : ∀ params, List.Forall₂ (fun t v => t.accepts v = true) d.signature.specs params →
      d.handler params ctx = handler params ctx) (args : List Json) :
    (d.plan eval mode ctx args).Alike (plan eval mode ctx ⟨handler, d.signature⟩ args) := by
  -- the handlers are only ever asked about parameters that the calls have come to
  have hrest : ∀ params,
      (Plan.runAll (paramCalls eval mode ctx d.signature args)).verdict = .ok params →
        d.handler params ctx = handler params ctx := fun params hp =>
    h params (TypeSpec.wellTyped_of_runAll (by simp [Signature.supply_eq]) hp)
  rw [plan_eq_join, plan_eq_join]
  refine ⟨?_, fun time => ?_⟩
  · rw [Plan.run_join, Plan.run_join]
    refine Run.bind_congr fun params hp => ?_
    rw [hrest params hp]
  · rw [Plan.launch_join, Plan.launch_join]
    refine Timeline.bind_congr fun params hp => ?_
    rw [hrest params (Plan.verdict_runAll_of_launchAll hp)]

end Declaration

/-- **Type safety at the boundary to handlers.** In every registry, within every budget and in
either mode,

* whenever a handler is called, in the evaluation of a node, with its value checked or not, in the
  resolving of an argument or in a direct call of an executable, there is one parameter for each
  declared shape, and it has the shape;
* if one of the parameters comes to no value, nothing happens but what happens to the parameters,
  and the call fails as they do, with a tag if it is made in the name of an interpreter;
* what the handler would do with other parameters makes no difference, in either case. -/
theorem Registry.invoked_wellTyped (registry : Registry) (budget : Nat) (mode : Mode)
    (scope : Scope) :
    ((∀ node, (registry.planWithin budget mode scope node).CallsWellTyped) ∧
      (∀ t node, (registry.planTypedWithin budget t mode scope node).CallsWellTyped) ∧
      (∀ t raw, (registry.planResolveWithin budget t mode scope raw).CallsWellTyped) ∧
      ∀ executable args,
        (registry.planCallWithin budget executable args mode scope).CallsWellTyped) ∧
    ∀ (d : Declaration) (args : List Json),
      let call := fun d : Declaration =>
        d.plan (registry.evaluator budget) mode (registry.context scope) args
      let params := Declaration.paramCalls (registry.evaluator budget) mode (registry.context scope)
        d.signature args
      (Declaration.ParamMissing (registry.evaluator budget) mode (registry.context scope)
          d.signature args →
        (call d).FailsLike params id ∧
          ∀ name, ((call d).within name).FailsLike params (Halt.within name)) ∧
      ∀ handler : Handler,
        (∀ params, List.Forall₂ (fun t v => t.accepts v = true) d.signature.specs params →
          d.handler params (registry.context scope) = handler params (registry.context scope)) →
        (call d).Alike (call ⟨handler, d.signature⟩) ∧
          ∀ name, ((call d).within name).Alike ((call ⟨handler, d.signature⟩).within name) := by
  have hsame := fun mode => Simulation.harmless.interpreters_same (fun _ => rfl) mode registry
  have hall := Simulation.evaluator (hsame .sync) (hsame mode) budget
  refine ⟨⟨fun node => ?_, fun t node => ?_, fun t raw => ?_, fun executable args => ?_⟩,
    fun d args => ⟨fun hmissing => ?_, fun handler hh => ?_⟩⟩
  · exact Plan.callsWellTyped_of_every (hall.planWithin scope node)
  · exact Plan.callsWellTyped_of_every (hall.planTypedWithin scope t node)
  · have ht := Simulation.harmless.resolves mode t
    exact Plan.callsWellTyped_of_every (hall.planResolveWithin scope ht raw)
  · have hx := Simulation.harmless.executables_same (fun _ => rfl) mode executable
    exact Plan.callsWellTyped_of_every (hall.planCallWithin scope hx args)
  · have hfails := Declaration.failsLike_of_missing hmissing
    exact ⟨hfails, hfails.within⟩
  · exact ⟨Declaration.plan_congr hh args, (Declaration.plan_congr hh args).within⟩

/-- A declaration with a truth value and, by default, the current value. -/
def Stock.flagged : Declaration := .ofSpecs Stock.params [.boolean, .anything]

/-- A call with a text for the truth value and nothing for the rest, which never gets to the
handler. -/
theorem Stock.flagged_failsLike :
    ∃ registry, (Core.builder .production).build = .ok registry ∧
      ((Stock.flagged.plan (registry.evaluator 3) .async (registry.context (.root .null))
          [.str "yes"]).within "$flagged").FailsLike
        (Declaration.paramCalls (registry.evaluator 3) .async (registry.context (.root .null))
          Stock.flagged.signature [.str "yes"]) (Halt.within "$flagged") := by
  refine ⟨_, rfl, ?_⟩
  refine (((Registry.invoked_wellTyped _ 3 .async (.root .null)).2 Stock.flagged
    [.str "yes"]).1 ⟨_, List.mem_cons_self, fun v hv => ?_⟩).2 "$flagged"
  -- the first parameter ends in a mismatch
  have herr : (Except.error (.failed (.mismatch .boolean (.str "yes"))) : Except Halt Json) =
    .ok v := hv
  exact absurd herr (by simp)

end SigilExpr
