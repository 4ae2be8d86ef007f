import SigilExpr.Proofs.Boundary
import SigilExpr.Proofs.Failures
import SigilExpr.Proofs.History
import SigilExpr.Proofs.Resolving
import SigilExpr.Proofs.Tracking

/-!
# Where failures surface

An evaluation on the spot has a history (`Registry.Recounts`): what happens in its run, divided
among the evaluations of nodes that it consists of, each of which is itself a run of the evaluator.
Handlers that are plain (`Action.Plain`) have nothing evaluated on their own, and their errors name
nobody. Then no failure is lost or changed on its way out, however deep it lies: the first
evaluation that fails has a fault of its own (`Registry.Fault`), its error names the call that it is
the evaluation of, and every evaluation around it fails with the same error
(`Builder.failure_surfaces`).

The three kinds of fault are those of a single step: a value that does not have the shape asked for,
a handler that gives up, and a pair that has nothing for calls on the spot.

Every call tags what it fails with (`Registry.tag`), be it a fault of its own or the error of an
evaluation that it leads to. That the error stays the same from the innermost call on is therefore a
fact about tags: the evaluation that an error comes from is one that has tagged it
(`Registry.Recounts.tag_eq`, by `Registry.evaluator_within_tracks`).
-/

namespace SigilExpr

open Plan (runAll)

/-! ### Plain handlers -/

/-- The action has nothing evaluated on its own, and the error it may give up with names nobody. -/
inductive Action.Plain : Action → Prop where
  | finish (outcome : Outcome) : Plain (.finish outcome)
  | fail {e : EvalError} (h : e.id = none) : Plain (.fail e)
  | log (v : Json) {next : Action} (h : Plain next) : Plain (.log v next)

/-- The action gives up with an error, possibly after some entries to the log. -/
inductive Action.GivesUp : Action → EvalError → Prop where
  | fail (e : EvalError) : GivesUp (.fail e) e
  | log (v : Json) {next : Action} {e : EvalError} (h : GivesUp next e) : GivesUp (.log v next) e

/-- The action ends with whatever a node evaluates to in a scope. -/
inductive Action.ContinuesWith (scope : Scope) (node : Json) : Action → Prop where
  | finish : ContinuesWith scope node (.finish (.evaluate scope node))
  | log (v : Json) {next : Action} (h : ContinuesWith scope node next) :
    ContinuesWith scope node (.log v next)

/-- All actions of the handler are plain. -/
def Handler.Plain (handler : Handler) : Prop :=
  ∀ params ctx, (handler params ctx).Plain

/-- A declaration or a raw handler whose actions are plain. -/
def Routine.Plain : Routine → Prop
  | .declared d => Handler.Plain d.handler
  | .raw handler => Handler.Plain handler
  | .written _ => False

/-- What the definition has for calls on the spot is plain. -/
def Definition.Plain (definition : Definition) : Prop :=
  ∀ routine, definition.Gives .sync routine → routine.Plain

/-- What a registry runs on the spot is plain, and what refuses to run does so in its own name. -/
structure Registry.Plain (registry : Registry) : Prop where
  routines : ∀ {id interpreter routine}, registry.get? id = some interpreter →
    interpreter.side .sync = .supported routine → routine.Plain
  refusals : ∀ {id interpreter name}, registry.get? id = some interpreter →
    interpreter.side .sync = .unsupported name → name = id

theorem Builder.plain_of_build {builder : Builder} {registry : Registry}
    (hbuild : builder.build = .ok registry) (h : ∀ entry ∈ builder.definitions, entry.2.Plain) :
    registry.Plain where
  routines hget hside := by
    obtain ⟨definition, hm, hgives⟩ := exists_gives_of_build hbuild hget hside
    exact h _ hm _ hgives
  refusals hget hside := by
    -- what compiling puts in the place of a missing side bears the identifier
    obtain ⟨definition, -, hc⟩ := exists_definition_of_build hbuild hget
    exact (Definition.lacks_of_compile hc hside).1

/-! ### Faults -/

/-- A value was found not to match a spec or one of its parts. -/
inductive TypeSpec.Mismatch (t : TypeSpec) : Halt → Prop where
  | of {u : TypeSpec} {v : Json} (hpart : u.PartOf t) (h : u.accepts v = false) :
    Mismatch t (.failed (.mismatch u v))

theorem TypeSpec.Mismatch.of_part {t t' : TypeSpec} {why : Halt}
    (h : t.Mismatch why) (hpart : t.PartOf t') : t'.Mismatch why := by
  cases h with
  | of hu h => exact .of (hu.trans hpart) h

/-- A call on the spot, prepared: whose handler is called with what. -/
structure Dispatch where
  /-- The identifier that the call is made under. -/
  id : String
  /-- The shapes that parameters have to have; none for a raw handler. -/
  specs : List TypeSpec
  /-- The run in which the parameters come about. -/
  parameters : Run (List Json)
  /-- What is called with them. -/
  handler : Handler

/-- The call of a routine. A hand-written executable has no handler. -/
def Routine.dispatch? (id : String) (eval : Evaluator) (ctx : Context) (args : List Json) :
    Routine → Option Dispatch
  | .declared d =>
    let params := runAll (Declaration.paramCalls eval .sync ctx d.signature args)
    some ⟨id, d.signature.specs, params, d.handler⟩
  | .raw handler => some ⟨id, [], runAll (args.map (eval .sync ctx.scope)), handler⟩
  | .written _ => none

theorem Routine.id_of_dispatch? {id : String} {eval : Evaluator} {ctx : Context} {args : List Json}
    {routine : Routine} {d : Dispatch} (h : routine.dispatch? id eval ctx args = some d) :
    d.id = id := by
  cases routine with
  | declared declaration => exact Option.some.inj h ▸ rfl
  | raw handler => exact Option.some.inj h ▸ rfl
  | written perform => exact nomatch h

theorem Routine.Plain.exists_dispatch {routine : Routine} (hplain : routine.Plain) (id : String)
    (eval : Evaluator) (ctx : Context) (args : List Json) :
    ∃ d, routine.dispatch? id eval ctx args = some d := by
  cases routine with
  | declared declaration => exact ⟨_, rfl⟩
  | raw handler => exact ⟨_, rfl⟩
  | written perform => exact hplain.elim

/-- The parameters come about first. -/
theorem Routine.run_of_dispatch? {id : String} {eval : Evaluator} {ctx : Context}
    {args : List Json} {routine : Routine} {d : Dispatch}
    (h : routine.dispatch? id eval ctx args = some d) :
    ∃ next, (routine.call eval .sync ctx args).plan.run = d.parameters.bind next := by
  cases routine with
  | declared declaration =>
    obtain rfl := Option.some.inj h
    exact ⟨_, Plan.run_join _ _⟩
  | raw handler =>
    obtain rfl := Option.some.inj h
    exact ⟨_, Plan.run_join _ _⟩
  | written perform => exact nomatch h

/-- A fault of a call: a check of one of its parameters fails, or all parameters are there and the
handler gives up. -/
inductive Dispatch.Fault (ctx : Context) (d : Dispatch) : Halt → Prop where
  | mismatch {t : TypeSpec} {why : Halt} (ht : t ∈ d.specs) (h : t.Mismatch why)
    (hparams : d.parameters.verdict = .error why) : Fault ctx d why
  | raised {params : List Json} {e : EvalError} (hparams : d.parameters.verdict = .ok params)
    (h : (d.handler params ctx).GivesUp e) (hid : e.id = none) : Fault ctx d (.failed e)

namespace Registry

/-- The call on the spot that a node is, unless there is no budget left. -/
def dispatch? (registry : Registry) : Nat → Scope → Json → Option Dispatch
  | 0, _, _ => none
  | budget + 1, scope, node =>
    match registry.call? node with
    | none => none
    | some (id, interpreter, args) =>
      match interpreter.side .sync with
      | .unsupported _ => none
      | .supported routine =>
        routine.dispatch? id (registry.evaluator budget) (registry.context scope) args

/-- A fault of the evaluation of a node itself, as opposed to one of the evaluations it leads to: a
fault of the call that it is, or a call of something that has nothing for calls on the spot. Where
no budget is left, it breaks off. -/
inductive Fault (registry : Registry) : Nat → Scope → Json → Halt → Prop where
  | spent (scope : Scope) (node : Json) : Fault registry 0 scope node .exhausted
  | unsupported {budget : Nat} {scope : Scope} {node : Json} {id : String}
    {interpreter : Interpreter} {args : List Json}
    (hcall : registry.call? node = some (id, interpreter, args))
    (hside : interpreter.side .sync = .unsupported id) :
    Fault registry (budget + 1) scope node (.failed (.unsupported id .sync))
  | call {budget : Nat} {scope : Scope} {node : Json} {d : Dispatch} {why : Halt}
    (hd : registry.dispatch? budget scope node = some d)
    (h : d.Fault (registry.context scope) why) : Fault registry budget scope node why

theorem dispatch?_of_call {registry : Registry} {node : Json} {id : String}
    {interpreter : Interpreter} {args : List Json} {routine : Routine}
    (hcall : registry.call? node = some (id, interpreter, args))
    (hside : interpreter.side .sync = .supported routine) (budget : Nat) (scope : Scope) :
    registry.dispatch? (budget + 1) scope node =
      routine.dispatch? id (registry.evaluator budget) (registry.context scope) args := by
  simp only [dispatch?, hcall, hside]

/-- What a prepared call comes from. -/
theorem exists_routine_of_dispatch? {registry : Registry} {budget : Nat} {scope : Scope}
    {node : Json} {d : Dispatch} (h : registry.dispatch? budget scope node = some d) :
    ∃ rest interpreter routine args, budget = rest + 1 ∧
      registry.call? node = some (d.id, interpreter, args) ∧
      interpreter.side .sync = .supported routine ∧
      routine.dispatch? d.id (registry.evaluator rest) (registry.context scope) args = some d := by
  cases budget with
  | zero => exact nomatch h
  | succ rest =>
    cases hcall : registry.call? node with
    | none => simp [dispatch?, hcall] at h
    | some found =>
      obtain ⟨id, interpreter, args⟩ := found
      cases hside : interpreter.side .sync with
      | unsupported name => simp [dispatch?, hcall, hside] at h
      | supported routine =>
        rw [dispatch?_of_call hcall hside] at h
        obtain rfl := Routine.id_of_dispatch? h
        exact ⟨rest, interpreter, routine, args, rfl, rfl, hside, h⟩

/-- What the evaluation of a node does to a failure on its way out: a call tags it with its
identifier. -/
def tag (registry : Registry) (node : Json) (why : Halt) : Halt :=
  match registry.call? node with
  | none => why
  | some (id, _, _) => why.within id

theorem tag_of_call? {registry : Registry} {node : Json} {id : String} {interpreter : Interpreter}
    {args : List Json} (hcall : registry.call? node = some (id, interpreter, args)) :
    registry.tag node = Halt.within id := by
  funext why
  simp only [tag, hcall]

theorem tag_of_not_call {registry : Registry} {node : Json} (hcall : registry.call? node = none)
    (verdict : Except Halt Json) : verdict.mapError (registry.tag node) = verdict := by
  cases verdict <;> simp [tag, hcall]

@[simp] theorem tag_exhausted (registry : Registry) (node : Json) :
    registry.tag node .exhausted = .exhausted := by
  unfold tag
  split <;> rfl

/-- An error by a fault comes to light in a call, and is tagged with its identifier. -/
theorem Fault.exists_call {registry : Registry} {budget : Nat} {scope : Scope} {node : Json}
    {e : EvalError} (h : registry.Fault budget scope node (.failed e)) :
    ∃ id args, node = .arr (.str id :: args) ∧ registry.contains id = true ∧
      registry.tag node (.failed e) = .failed (e.within id) ∧ (e.within id).id = some id := by
  obtain ⟨id, interpreter, args, hcall, hid⟩ :
      ∃ id interpreter args, registry.call? node = some (id, interpreter, args) ∧
        (e.within id).id = some id := by
    cases h with
    -- this error names its interpreter from the start; the others name nobody before the tag
    | unsupported hcall hside => exact ⟨_, _, _, hcall, rfl⟩
    | @call _ _ _ d _ hd h =>
      obtain ⟨_, interpreter, _, args, -, hcall, -⟩ := exists_routine_of_dispatch? hd
      refine ⟨d.id, interpreter, args, hcall, ?_⟩
      cases h with
      | mismatch ht h hparams =>
        cases h with
        | of hpart h => rfl
      | raised hparams h hid => simp [EvalError.within, hid]
  have hget := get?_of_call? hcall
  rw [get?] at hget
  refine ⟨id, args, node_of_call? hcall, by simp [contains, Fields.contains, hget], ?_, hid⟩
  rw [tag_of_call? hcall, Halt.within_failed]

/-- An event that an evaluation itself makes happen after the visit of the node. If that is the call
of a handler, it gets the parameters as they came about. -/
def Own (registry : Registry) (budget : Nat) (scope : Scope) (node : Json) (event : Event) : Prop :=
  (∀ visited, event ≠ .visited visited) ∧
    ∀ call, event = .invoked call →
      ∃ d, registry.dispatch? budget scope node = some d ∧ d.parameters.verdict = .ok call.params

/-- An evaluation that the evaluation of a node leads to: one with the rest of its budget, either in
the same scope, for a parameter, or of what the handler continues with, once the parameters are
there. -/
def Leads (registry : Registry) (budget : Nat) (scope : Scope) (node : Json) (inner : History) :
    Prop :=
  inner.budget + 1 = budget ∧
    (inner.scope = scope ∨
      ∃ d params, registry.dispatch? budget scope node = some d ∧
        d.parameters.verdict = .ok params ∧
        (d.handler params (registry.context scope)).ContinuesWith inner.scope inner.node)

/-- **A history recounts an evaluation.** What happens in it and how it ends is what the evaluator
says. Its own steps begin with the visit of the node, and there is no other. The evaluations among
its steps are those it leads to. Its steps end as these do or by a fault of its own, and the
evaluation ends as its steps do, up to the tag on the way out. -/
structure Recounts (registry : Registry) (g : History) : Prop where
  run : (registry.planWithin g.budget .sync g.scope g.node).run = ⟨g.trace, g.verdict⟩
  steps : ∃ rest, g.steps = .event (.visited g.node) :: rest ∧
    ∀ event, .event event ∈ rest → registry.Own g.budget g.scope g.node event
  nested : ∀ inner, .nested inner ∈ g.steps → registry.Leads g.budget g.scope g.node inner
  ends : ∃ verdict, History.Ends (registry.Fault g.budget g.scope g.node) g.steps verdict ∧
    g.verdict = verdict.mapError (registry.tag g.node)

namespace Recounts

variable {registry : Registry} {g : History}

/-- **Without parameters no handler is called.** The call fails as they do. -/
theorem of_missing (h : registry.Recounts g) {d : Dispatch}
    (hd : registry.dispatch? g.budget g.scope g.node = some d) {why : Halt}
    (hparams : d.parameters.verdict = .error why) :
    g.verdict = .error (why.within d.id) ∧ ∀ call, .event (.invoked call) ∉ g.steps := by
  refine ⟨?_, fun call hm => ?_⟩
  · obtain ⟨rest, interpreter, routine, args, hbudget, hcall, hside, hroutine⟩ :=
      exists_routine_of_dispatch? hd
    obtain ⟨next, hnext⟩ := Routine.run_of_dispatch? hroutine
    have hrun := h.run
    -- nothing comes after the parameters but the tag
    rw [hbudget, planWithin_succ_of_call hcall hside, Plan.run_emitAll, Call.run_plan_within, hnext,
      Run.bind, hparams] at hrun
    exact (congrArg Run.verdict hrun).symm
  · -- a handler is called with parameters only, and there are none
    obtain ⟨rest, hsteps, hown⟩ := h.steps
    rw [hsteps, List.mem_cons] at hm
    rcases hm with hm | hm
    · cases hm
    · obtain ⟨d', hd', hv⟩ := (hown _ hm).2 call rfl
      obtain rfl : d' = d := Option.some.inj (hd'.symm.trans hd)
      cases hparams.symm.trans hv

/-- **What an evaluation fails with is tagged for good.** No call that it is part of changes it. -/
theorem tag_eq (h : registry.Recounts g) {why : Halt} (hwhy : g.verdict = .error why)
    (outer : Json) : registry.tag outer why = why := by
  cases hcall : registry.call? outer with
  | none => simp only [tag, hcall]
  | some found =>
    -- the outer tag makes no difference to the run, and so none to its error
    have hrun := registry.run_planWithin_within g.budget .sync g.scope g.node found.1
    rw [h.run, Run.within, hwhy] at hrun
    rw [tag_of_call? hcall]
    exact Except.error.inj (congrArg Run.verdict hrun)

/-- So the evaluation ends as its steps do, if only its own faults are tagged. -/
theorem ends_tagged (h : registry.Recounts g)
    (hnested : ∀ inner, .nested inner ∈ g.steps → registry.Recounts inner) :
    History.Ends (fun why => ∃ raised, registry.Fault g.budget g.scope g.node raised ∧
      why = registry.tag g.node raised) g.steps g.verdict := by
  obtain ⟨verdict, hends, hverdict⟩ := h.ends
  rw [hverdict]
  exact hends.mapError fun inner why hinner hwhy => (hnested inner hinner).tag_eq hwhy g.node

end Recounts

end Registry

/-! ### Resolving -/

/-- Resolving an argument consists of evaluations, and fails by itself where a check does. -/
theorem TypeSpec.told_resolveClosed (inner : History → Prop) (own : Event → Prop) :
    ResolveClosed fun t p => p.run.Told inner own t.Mismatch where
  done _ v := Run.told_done v
  refuse t v h := Run.told_halt (.of (.refl t) h)
  bind hp h := by
    rw [Plan.run_bind]
    exact hp.bind fun v _ => h v
  join hcalls h := by
    rw [Plan.run_join]
    exact (Plan.runAll_told hcalls).bind fun vs _ => h vs
  part hpart h := h.mono fun why _ hwhy => hwhy.of_part hpart

/-! ### Calls -/

/-- A plain action ends well, or gives up. -/
theorem Action.Plain.told {inner : History → Prop} {own : Event → Prop} {eval : Evaluator}
    (hlogged : ∀ v, own (.logged v)) {action : Action} (hplain : action.Plain)
    (h : ∀ scope node, action.ContinuesWith scope node →
      (eval .sync scope node).plan.run.Recorded inner) :
    (action.plan eval .sync).run.Told inner own fun why =>
      ∃ e, action.GivesUp e ∧ e.id = none ∧ why = .failed e := by
  induction hplain with
  | finish outcome =>
    cases outcome with
    | value v => exact Run.told_done v
    | evaluate scope node => exact (h scope node .finish).told
  | @fail e hid => exact Run.told_halt ⟨e, .fail e, hid, rfl⟩
  | log v _ ih =>
    rw [Action.plan, Plan.run_emit]
    have hnext := ih fun scope node hc => h scope node (.log v hc)
    refine (hnext.after (by simpa using hlogged v)).mono fun why _ hwhy => ?_
    obtain ⟨e, he, hrest⟩ := hwhy
    exact ⟨e, .log v he, hrest⟩

section

variable {inner : History → Prop} {own : Event → Prop} {id : String} {eval : Evaluator}
  {ctx : Context} {d : Dispatch}

/-- When the parameters are there, the handler is called. -/
private theorem told_handler {calls : List Call} {signature : Option Signature} {args : List Json}
    (hplain : d.handler.Plain) (hcalls : d.parameters = runAll calls)
    (hparams : d.parameters.Told inner own (d.Fault ctx)) (hlogged : ∀ v, own (.logged v))
    (hinvoked : ∀ call : Invocation, d.parameters.verdict = .ok call.params → own (.invoked call))
    (hcontinue : ∀ params scope node, d.parameters.verdict = .ok params →
      (d.handler params ctx).ContinuesWith scope node →
      (eval .sync scope node).plan.run.Recorded inner) :
    (Plan.join calls fun params => .emit (.invoked ⟨signature, ctx.scope, args, params⟩)
      ((d.handler params ctx).plan eval .sync)).run.Told inner own (d.Fault ctx) := by
  rw [Plan.run_join, ← hcalls]
  -- the first part of the run is that of the parameters; from here on they are there
  refine hparams.bind fun params hv => ?_
  have hown : own (.invoked ⟨signature, ctx.scope, args, params⟩) := hinvoked _ hv
  have haction : ((d.handler params ctx).plan eval .sync).run.Told inner own fun why =>
      ∃ e, (d.handler params ctx).GivesUp e ∧ e.id = none ∧ why = .failed e :=
    (hplain params ctx).told hlogged fun scope node => hcontinue params scope node hv
  rw [Plan.run_emit]
  refine (haction.after (by simpa using hown)).mono fun why _ hwhy => ?_
  obtain ⟨e, he, hid, rfl⟩ := hwhy
  exact .raised hv he hid

/-- **A call of a plain routine** consists of the evaluations that its parameters lead to, the call
of the handler, and the evaluation that the handler continues with. -/
theorem Routine.Plain.told {routine : Routine} (hplain : routine.Plain) {args : List Json}
    (hd : routine.dispatch? id eval ctx args = some d)
    (h : ∀ node, (eval .sync ctx.scope node).plan.run.Recorded inner)
    (hlogged : ∀ v, own (.logged v))
    (hinvoked : ∀ call : Invocation, d.parameters.verdict = .ok call.params → own (.invoked call))
    (hcontinue : ∀ params scope node, d.parameters.verdict = .ok params →
      (d.handler params ctx).ContinuesWith scope node →
      (eval .sync scope node).plan.run.Recorded inner) :
    (routine.call eval .sync ctx args).plan.run.Told inner own (d.Fault ctx) := by
  cases routine with
  | declared declaration =>
    obtain rfl := Option.some.inj hd
    refine told_handler hplain rfl ?_ hlogged hinvoked hcontinue
    have hresolve : (runAll (Declaration.paramCalls eval .sync ctx declaration.signature
        args)).Told inner own fun why => ∃ t ∈ declaration.signature.specs, t.Mismatch why := by
      -- each argument is resolved to the spec of its position, so a mismatch is one of that spec
      refine Plan.runAll_told fun call hm => ?_
      obtain ⟨t, ht, raw, rfl⟩ := TypeSpec.exists_of_mem_resolveEach hm
      have htold : (t.resolve .sync (eval .sync ctx.scope) raw).plan.run.Told inner own
          t.Mismatch :=
        (TypeSpec.told_resolveClosed inner own).resolve (fun _ node => (h node).told) t raw
      exact htold.mono fun why _ hmismatch => ⟨t, ht, hmismatch⟩
    -- the call fails as its parameters do
    refine hresolve.mono fun why hwhy hmismatch => ?_
    obtain ⟨t, ht, hmismatch⟩ := hmismatch
    exact .mismatch ht hmismatch hwhy
  | raw handler =>
    obtain rfl := Option.some.inj hd
    refine told_handler hplain rfl ?_ hlogged hinvoked hcontinue
    -- nothing is checked here, so the parameters fail only where an argument does
    refine Plan.runAll_told fun call hm => ?_
    obtain ⟨arg, -, rfl⟩ := List.mem_map.1 hm
    exact (h arg).told
  | written perform => exact hplain.elim

end

/-! ### Evaluations -/

namespace Registry

variable {registry : Registry}

/-- An evaluation that the evaluation of a node leads to, with a history of its own. -/
def Inner (registry : Registry) (budget : Nat) (scope : Scope) (node : Json) (g : History) : Prop :=
  registry.Leads budget scope node g ∧ ∀ k ∈ g.evaluations, registry.Recounts k

/-- The run consists of what the evaluation of a node may consist of, after the visit. -/
def Follows (registry : Registry) (budget : Nat) (scope : Scope) (node : Json)
    (run : Run Json) : Prop :=
  run.Told (registry.Inner budget scope node) (registry.Own budget scope node)
    (registry.Fault budget scope node)

/-- The evaluation of a node has a history, all the way down. -/
def Recorded (registry : Registry) (budget : Nat) (scope : Scope) (node : Json) : Prop :=
  ∃ g : History, g.budget = budget ∧ g.scope = scope ∧ g.node = node ∧
    ∀ k ∈ g.evaluations, registry.Recounts k

/-- An evaluation that consists of steps after the arrival of its node, and of a tag on the way out,
has a history. -/
private theorem recorded_of_follows {budget : Nat} {scope : Scope} {node : Json} {run : Run Json}
    (h : registry.Follows budget scope node run)
    (hrun : (registry.planWithin budget .sync scope node).run =
      ⟨registry.arrival node ++ run.trace, run.verdict.mapError (registry.tag node)⟩) :
    registry.Recorded budget scope node := by
  obtain ⟨steps, h⟩ := h
  -- the visit is the first step, and a warning is one of the evaluation's own
  let warned : List Event := (registry.warnings node).map .warned
  have hwarned : ∀ event ∈ warned, registry.Own budget scope node event := by
    intro event hm
    obtain ⟨id, -, rfl⟩ := List.mem_map.1 hm
    exact ⟨nofun, nofun⟩
  have hrest := h.after hwarned
  let g : History := .of budget scope node
    (.event (.visited node) :: (warned.map .event ++ steps))
    (run.verdict.mapError (registry.tag node))
  have hinner : ∀ inner, .nested inner ∈ g.steps → registry.Inner budget scope node inner := by
    intro inner hm
    exact hrest.nested inner (by simpa [g, History.steps] using hm)
  have hg : registry.Recounts g := by
    refine ⟨?_, ⟨_, rfl, hrest.events⟩, fun inner hm => (hinner inner hm).1, ?_⟩
    · have htrace : g.trace = .visited node :: (run.after warned).trace := by
        rw [History.trace_eq, hrest.trace]
        rfl
      rw [htrace]
      exact hrun
    · exact ⟨run.verdict, .after (History.allSucceed_map_event [.visited node]) hrest.ends, rfl⟩
  exact ⟨g, rfl, rfl, rfl, History.forall_evaluations hg fun inner hm => (hinner inner hm).2⟩

/-- A call of a plain routine consists of what it may consist of, if the evaluations with the rest
of the budget have histories. -/
private theorem follows_call {budget : Nat}
    (ih : ∀ scope node, registry.Recorded budget scope node) {node : Json} {id : String}
    {interpreter : Interpreter} {args : List Json} {routine : Routine}
    (hcall : registry.call? node = some (id, interpreter, args))
    (hside : interpreter.side .sync = .supported routine) (hplain : routine.Plain) (scope : Scope) :
    registry.Follows (budget + 1) scope node
      (routine.call (registry.evaluator budget) .sync (registry.context scope) args).plan.run := by
  obtain ⟨d, hd⟩ := hplain.exists_dispatch id (registry.evaluator budget) (registry.context scope)
    args
  have hdispatch : registry.dispatch? (budget + 1) scope node = some d :=
    (dispatch?_of_call hcall hside budget scope).trans hd
  -- a nested evaluation is recorded with the rest of the budget, once it is known to be led to
  have hinner : ∀ {scope' node'}, (∀ g : History, g.scope = scope' → g.node = node' →
      g.budget = budget → registry.Leads (budget + 1) scope node g) →
      (registry.evaluator budget .sync scope' node').plan.run.Recorded
        (registry.Inner (budget + 1) scope node) := by
    intro scope' node' hleads
    obtain ⟨g, rfl, rfl, rfl, hg⟩ := ih scope' node'
    exact ⟨g, ⟨hleads g rfl rfl rfl, hg⟩, (hg g g.self_mem_evaluations).run⟩
  have hparams : ∀ node', (registry.evaluator budget .sync scope node').plan.run.Recorded
      (registry.Inner (budget + 1) scope node) := fun node' =>
    hinner fun g hscope _ hbudget => ⟨by rw [hbudget], .inl hscope⟩
  have hcontinue : ∀ params scope' node', d.parameters.verdict = .ok params →
      (d.handler params (registry.context scope)).ContinuesWith scope' node' →
      (registry.evaluator budget .sync scope' node').plan.run.Recorded
        (registry.Inner (budget + 1) scope node) := by
    intro params scope' node' hv hc
    refine hinner fun g hscope hnode hbudget => ?_
    refine ⟨by rw [hbudget], .inr ⟨d, params, hdispatch, hv, ?_⟩⟩
    rw [hscope, hnode]
    exact hc
  have hinvoked : ∀ call : Invocation, d.parameters.verdict = .ok call.params →
      registry.Own (budget + 1) scope node (.invoked call) := by
    refine fun call hv => ⟨nofun, fun called he => ⟨d, hdispatch, ?_⟩⟩
    rw [← Event.invoked.inj he]
    exact hv
  have htold := hplain.told hd hparams (fun v => ⟨nofun, nofun⟩) hinvoked hcontinue
  exact htold.mono fun why _ hwhy => .call hdispatch hwhy

/-- Nothing but a hand-written executable does anything at the moment of the call. -/
private theorem Plain.opening_evaluateWith (hplain : registry.Plain) (eval : Evaluator)
    (scope : Scope) (node : Json) :
    (registry.evaluateWith eval .sync scope node).opening = registry.arrival node := by
  have hnothing : ∀ {call : Call}, call.opening = [] →
      (call.after (registry.arrival node)).opening = registry.arrival node := by
    intro call h
    rw [Call.after, h, List.append_nil]
  rw [evaluateWith]
  refine hnothing ?_
  cases hcall : registry.call? node with
  | none => rfl
  | some found =>
    obtain ⟨id, interpreter, args⟩ := found
    simp only
    cases hside : interpreter.side .sync with
    | unsupported name => rfl
    | supported routine =>
      have hroutine := hplain.routines (get?_of_call? hcall) hside
      cases routine with
      | declared d => rfl
      | raw handler => rfl
      | written perform => exact hroutine.elim

/-- With budget left, a call comes to what its executable does, tagged. -/
private theorem run_planWithin_of_call {node : Json} {id : String} {interpreter : Interpreter}
    {args : List Json} (hcall : registry.call? node = some (id, interpreter, args)) (budget : Nat)
    (scope : Scope) :
    let run := ((interpreter.side .sync).call (registry.evaluator budget) .sync
      (registry.context scope) args).plan.run
    (registry.planWithin (budget + 1) .sync scope node).run =
      ⟨registry.arrival node ++ run.trace, run.verdict.mapError (registry.tag node)⟩ := by
  intro run
  rw [planWithin, evaluator, evaluateWith, hcall, Call.plan_after, Plan.run_emitAll,
    Call.run_plan_within, tag_of_call? hcall]
  rfl

/-- **Every evaluation on the spot has a history,** all the way down. -/
theorem Plain.recorded (hplain : registry.Plain) (budget : Nat) (scope : Scope) (node : Json) :
    registry.Recorded budget scope node := by
  induction budget generalizing scope node with
  | zero =>
    -- the node arrives, and that is all there is budget for
    refine recorded_of_follows (Run.told_halt (.spent scope node)) ?_
    rw [planWithin, evaluator, spent, Call.plan, Plan.run_emitAll, Call.breakOff,
      hplain.opening_evaluateWith, Halt.mapError_error, tag_exhausted]
    rfl
  | succ budget ih =>
    cases hcall : registry.call? node with
    | none =>
      -- a node that stands for itself leads nowhere
      refine recorded_of_follows (Run.told_done node) ?_
      rw [planWithin_succ_of_not_call hcall, Plan.run_emitAll, tag_of_not_call hcall]
      rfl
    | some found =>
      obtain ⟨id, interpreter, args⟩ := found
      have hget := get?_of_call? hcall
      have hrun := run_planWithin_of_call hcall budget scope
      cases hside : interpreter.side .sync with
      | unsupported name =>
        -- who refuses to run does so in the name that the node calls
        obtain rfl := hplain.refusals hget hside
        rw [hside] at hrun
        exact recorded_of_follows (Run.told_halt (.unsupported hcall hside)) hrun
      | supported routine =>
        rw [hside] at hrun
        exact recorded_of_follows
          (follows_call ih hcall hside (hplain.routines hget hside) scope) hrun

/-! ### The first failure -/

section

variable {h : History} (hall : ∀ g ∈ h.evaluations, registry.Recounts g)

include hall

/-- In a history that recounts evaluations, they all end as their steps do, up to tagged faults. -/
theorem ends_of_recounts : ∀ g ∈ h.evaluations,
    History.Ends (fun why => ∃ raised, registry.Fault g.budget g.scope g.node raised ∧
      why = registry.tag g.node raised) g.steps g.verdict := by
  intro g hg
  -- the nested evaluations of one of them are among them, so they too keep what they fail with
  refine (hall g hg).ends_tagged fun inner hinner => ?_
  exact hall inner (History.mem_evaluations_of_nested hg hinner)

/-- The first evaluation that fails is a call with a fault of its own, and its error is the fault
with the tag of the call. -/
theorem exists_first_of_recounts {e : EvalError} (he : h.verdict = .error (.failed e)) :
    ∃ front first back, h.evaluations = front ++ first :: back ∧ (∀ g ∈ front, g.Succeeds) ∧
      (∃ raised id args, registry.Fault first.budget first.scope first.node (.failed raised) ∧
        first.node = .arr (.str id :: args) ∧ registry.contains id = true ∧
        e = raised.within id ∧ e.id = some id) ∧
      ∀ g ∈ first :: back, g.verdict = .error (.failed e) ∧ first ∈ g.evaluations := by
  obtain ⟨front, first, back, hsplit, hfront, ⟨raised, hfault, htag⟩, hback⟩ :=
    History.exists_first (ends_of_recounts hall) he
  refine ⟨front, first, back, hsplit, hfront, ?_, hback⟩
  cases raised with
  | exhausted =>
    -- tags make no error of a budget that is used up
    rw [tag_exhausted] at htag
    cases htag
  | failed raised =>
    obtain ⟨id, args, hnode, hcontains, hwithin, hid⟩ := hfault.exists_call
    obtain rfl := Halt.failed.inj (htag.trans hwithin)
    exact ⟨raised, id, args, hfault, hnode, hcontains, rfl, hid⟩

end

end Registry

/-- **Failures surface unchanged.** Let a registry be built from definitions that are plain as far
as calls on the spot go. Then every evaluation on the spot, within any budget, has a history, of the
evaluation itself and of all those it leads to, in which

* a call whose parameters do not come about fails as they do, up to the tag, and its handler is not
  called;
* if the evaluation comes to a value, so do all others;
* if it fails, take the first evaluation that does so, depth first and from left to right. All
  before it come to values. It is a call, its failure is a fault of its own, and the error is the
  fault tagged with the identifier of the call. All evaluations from it on are those that it is part
  of, and although each of them tags what it fails with, they fail with the same error. -/
theorem Builder.failure_surfaces {builder : Builder} {registry : Registry}
    (hbuild : builder.build = .ok registry) (hplain : ∀ entry ∈ builder.definitions, entry.2.Plain)
    (budget : Nat) (scope : Scope) (node : Json) :
    ∃ h : History, (h.budget = budget ∧ h.scope = scope ∧ h.node = node) ∧
      (∀ g ∈ h.evaluations, registry.Recounts g ∧
        ∀ d why, registry.dispatch? g.budget g.scope g.node = some d →
          d.parameters.verdict = .error why →
          g.verdict = .error (why.within d.id) ∧ ∀ call, .event (.invoked call) ∉ g.steps) ∧
      (h.Succeeds → ∀ g ∈ h.evaluations, g.Succeeds) ∧
      ∀ e, (registry.planWithin budget .sync scope node).run.verdict = .error (.failed e) →
        ∃ front first back, h.evaluations = front ++ first :: back ∧
          (∀ g ∈ front, g.Succeeds) ∧
          (∃ raised id args, registry.Fault first.budget first.scope first.node (.failed raised) ∧
            first.node = .arr (.str id :: args) ∧ registry.contains id = true ∧
            e = raised.within id ∧ e.id = some id) ∧
          ∀ g ∈ first :: back, g.verdict = .error (.failed e) ∧ first ∈ g.evaluations := by
  obtain ⟨h, rfl, rfl, rfl, hall⟩ :=
    (plain_of_build hbuild hplain).recorded budget scope node
  refine ⟨h, ⟨rfl, rfl, rfl⟩, fun g hg => ⟨hall g hg, fun d why hd hparams =>
      (hall g hg).of_missing hd hparams⟩,
    History.all_succeed (Registry.ends_of_recounts hall), fun e he => ?_⟩
  -- what the run fails with is what the outermost evaluation of the history fails with
  rw [(hall h h.self_mem_evaluations).run] at he
  exact Registry.exists_first_of_recounts hall he

namespace Stock

/-- The core interpreters with a sum of numbers, a list, and one that gives up. -/
def strictBuilder : Builder :=
  (Core.builder .production).registerAll
    [("$all", .raw params), ("$no", .raw (failure (.stated "no" .handler))),
      ("$total", .declared (.ofSpecs sumAll [.sequenceOf .number]))]

theorem plain_strictBuilder : ∀ entry ∈ strictBuilder.definitions, entry.2.Plain := by
  have hreadValue : Handler.Plain Core.readValue := by
    intro params ctx
    unfold Core.readValue
    split <;> exact .finish _
  -- the definitions, in the order of their identifiers
  have hentries : strictBuilder.definitions.map Prod.snd =
      [.raw params, .declared Core.evaluate, .declared Core.literal,
        .raw (failure (.stated "no" .handler)),
        .declared (.ofSpecs sumAll [.sequenceOf .number]), .declared Core.value] := rfl
  have hdeclared : ∀ {d : Declaration}, Handler.Plain d.handler →
      (Definition.declared d).Plain := by
    rintro d hd _ ⟨valid, rfl, _⟩
    exact hd
  have hraw : ∀ {handler : Handler}, handler.Plain → (Definition.raw handler).Plain := by
    rintro handler h _ ⟨⟩
    exact h
  have hall : ∀ d ∈ strictBuilder.definitions.map Prod.snd, d.Plain := by
    rw [hentries]
    simp only [List.forall_mem_cons]
    exact ⟨hraw fun _ _ => .finish _, hdeclared fun _ _ => .finish _,
      hdeclared fun _ _ => .finish _, hraw fun _ _ => .fail rfl, hdeclared fun _ _ => .finish _,
      hdeclared hreadValue, List.forall_mem_nil _⟩
  exact fun entry hm => hall entry.2 (List.mem_map_of_mem hm)

/-- A failure in what a handler continues with, in an item of a declared parameter of a call among
the arguments of another. -/
theorem failure_surfaces_from_within :
    ∃ registry, strictBuilder.build = .ok registry ∧
      ∃ h first : History,
        h.node = .arr [.str "$all", .str "x",
          .arr [.str "$total", .arr [.ofInt 1, .arr [.str "$evaluate", .arr [.str "$no"]]]]] ∧
        first ∈ h.evaluations ∧ (∃ args, first.node = .arr (.str "$no" :: args)) ∧
        first.verdict = .error (.failed ((EvalError.stated "no" .handler).within "$no")) := by
  refine ⟨_, rfl, ?_⟩
  obtain ⟨h, ⟨-, -, hnode⟩, -, -, hfails⟩ :=
    Builder.failure_surfaces rfl plain_strictBuilder 6 (.root .null)
      (.arr [.str "$all", .str "x",
        .arr [.str "$total", .arr [.ofInt 1, .arr [.str "$evaluate", .arr [.str "$no"]]]]])
  obtain ⟨front, first, back, hsplit, -, ⟨_, id, args, -, hfirst, -, -, hid⟩, hback⟩ := hfails _ rfl
  obtain rfl : "$no" = id := Option.some.inj hid
  exact ⟨h, first, hnode, by simp [hsplit], ⟨args, hfirst⟩, (hback first List.mem_cons_self).1⟩

end Stock

end SigilExpr
