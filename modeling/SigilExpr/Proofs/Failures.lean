import SigilExpr.Proofs.Build
import SigilExpr.Proofs.Resolving
import SigilExpr.Proofs.Termination
import SigilExpr.Stock.Items

/-!
# Which failures there are

Once a registry is built, its definitions are no reason to fail any more: flaws of specs and
declarations are found by then, and nothing that evaluation does looks for them again. What is left
is a value that does not have the shape asked for, a handler that gives up, and a pair that has
nothing for the mode.

`Plan.FailsOnly` says of a plan that its failures have some property, in either mode and whenever it
is begun. Everything that evaluation does with parts keeps that, as long as the property is
`Lasting`: failed checks have it and no tag takes it away. The main result is
`Builder.failures_of_build`, on what a handler may raise (`Action.Raises`) and what comes to light
in the end.
-/

namespace SigilExpr

variable {P : EvalError → Prop}

/-! ### Failures of plans -/

namespace Plan

variable {p : Plan} {calls : List Call}

/-- All failures of the plan have a property, in either mode and whenever it is begun. -/
def FailsOnly (P : EvalError → Prop) (p : Plan) : Prop :=
  ∀ mode time e, p.verdictIn mode time = .error (.failed e) → P e

theorem failsOnly_done (v : Json) : (done v).FailsOnly P := fun mode time e h => by simp at h

theorem failsOnly_exhausted : exhausted.FailsOnly P := fun mode time e h => by
  simp [exhausted] at h

theorem failsOnly_fail {e : EvalError} (h : P e) : (fail e).FailsOnly P := by
  intro mode time e' he
  obtain rfl : e = e' := by simpa [fail] using he
  exact h

theorem failsOnly_emitAll_iff (events : List Event) :
    (emitAll events p).FailsOnly P ↔ p.FailsOnly P := by
  simp [FailsOnly]

theorem FailsOnly.wait (h : p.FailsOnly P) (ticks : Nat) : (Plan.wait ticks p).FailsOnly P := by
  intro mode time e he
  cases mode with
  | sync => exact h .sync time e he
  | async => exact h .async (time + ticks) e (by simpa [verdictIn] using he)

/-- What is done in a name fails as it does without, but for the tag. -/
theorem FailsOnly.within (h : p.FailsOnly P) {id : String} (hid : ∀ {e}, P e → P (e.within id)) :
    (p.within id).FailsOnly P := by
  intro mode time e he
  rw [verdictIn_within] at he
  match hv : p.verdictIn mode time with
  | .ok v => simp [hv] at he
  | .error .exhausted => simp [hv] at he
  | .error (.failed e') =>
    obtain rfl : e'.within id = e := by simpa [hv] using he
    exact hid (h mode time e' hv)

theorem FailsOnly.bind {next : Json → Plan} (hp : p.FailsOnly P) (h : ∀ v, (next v).FailsOnly P) :
    (p.bind next).FailsOnly P := by
  intro mode time e he
  cases hv : p.verdictIn mode time with
  | error why =>
    rw [verdictIn_bind_of_error hv] at he
    exact hp mode time e (hv.trans he)
  | ok v =>
    -- what comes next is launched when the value is there
    obtain ⟨later, hlater⟩ := verdictIn_bind_of_ok hv next
    exact h v mode later e (hlater.symm.trans he)

/-- A join fails as one of its calls does, or as what it goes on with. -/
theorem FailsOnly.join {rest : List Json → Plan} (hcalls : ∀ call ∈ calls, call.body.FailsOnly P)
    (h : ∀ vs, (rest vs).FailsOnly P) : (Plan.join calls rest).FailsOnly P := by
  intro mode time e he
  cases hv : verdictOfAll calls mode time with
  | error why =>
    rw [verdictIn_join_of_error hv] at he
    obtain ⟨call, hm, hcall⟩ := exists_of_verdictOfAll hv
    exact hcalls call hm mode time e (hcall.trans he)
  | ok vs =>
    obtain ⟨later, hlater⟩ := verdictIn_join_of_ok hv rest
    exact h vs mode later e (hlater.symm.trans he)

/-- An answer to a question is a value, or a failure that has the property already. -/
theorem FailsOnly.ask {resume : Except EvalError Json → Plan} (hp : p.FailsOnly P)
    (h : ∀ answer, (∀ e, answer = .error e → P e) → (resume answer).FailsOnly P) :
    (Plan.ask p resume).FailsOnly P := by
  intro mode time e he
  -- whoever asked may pass on a failure of the question, so that one must have the property
  have hvalue : ∀ v, (resume (.ok v)).FailsOnly P := fun v => h _ fun _ h => nomatch h
  have hfailure : ∀ e', p.run.verdict = .error (.failed e') → (resume (.error e')).FailsOnly P := by
    intro e' he'
    refine h _ fun e'' h'' => ?_
    obtain rfl := Except.error.inj h''
    exact hp .sync time e' he'
  cases mode with
  | sync =>
    simp only [verdictIn, run_ask, Run.answer] at he
    split at he
    · exact hvalue _ .sync time e he
    · rename_i e' he'
      exact hfailure e' he' .sync time e he
    · simp at he
  | async =>
    simp only [verdictIn, launch_ask] at he
    split at he
    · exact hvalue _ .async time e he
    · rename_i e' he'
      exact hfailure e' he' .async time e he
    · simp at he

end Plan

theorem Call.failsOnly_plan_iff {call : Call} :
    call.plan.FailsOnly P ↔ call.body.FailsOnly P :=
  Plan.failsOnly_emitAll_iff call.opening

/-! ### Failures of resolving -/

/-- Failed checks have the property, and no tag takes it away. -/
structure EvalError.Lasting (P : EvalError → Prop) : Prop where
  mismatch : ∀ t v, P (.mismatch t v)
  within : ∀ {e} id, P e → P (e.within id)

theorem EvalError.Lasting.resolveClosed (hP : EvalError.Lasting P) :
    TypeSpec.ResolveClosed fun _ p => p.FailsOnly P where
  done _ v := Plan.failsOnly_done v
  refuse t v _ := Plan.failsOnly_fail (hP.mismatch t v)
  bind hp h := hp.bind h
  join hcalls h := .join (fun call hm => Call.failsOnly_plan_iff.1 (hcalls call hm)) h
  part _ h := h

/-! ### Failures of handlers -/

/-- The errors that an action raises itself are failed checks and errors of its own. Besides, it may
pass on a failure that it has been told of, in answer to a question (`known`). -/
inductive Action.Raises (own : Cause → Prop) : List EvalError → Action → Prop where
  | finish {known} (outcome : Outcome) : Raises own known (.finish outcome)
  | raised {known} {e : EvalError} (h : own e.cause) : Raises own known (.fail e)
  | mismatched {known} {e : EvalError} {t : TypeSpec} {v : Json} (h : e.cause = .mismatch t v) :
    Raises own known (.fail e)
  | passed {known} {e : EvalError} (h : e ∈ known) : Raises own known (.fail e)
  | log {known} (v : Json) {next : Action} (h : Raises own known next) :
    Raises own known (.log v next)
  | evaluate {known} (scope : Scope) (node : Json) {resume : Except EvalError Json → Action}
    (hvalue : ∀ v, Raises own known (resume (.ok v)))
    (hfailure : ∀ e, Raises own (e :: known) (resume (.error e))) :
    Raises own known (.evaluate scope node resume)

/-- What a routine raises itself, whatever it is called with. -/
def Routine.Raises (own : Cause → Prop) : Routine → Prop
  | .declared d => ∀ params ctx, (d.handler params ctx).Raises own []
  | .raw handler => ∀ params ctx, (handler params ctx).Raises own []
  | .written perform => ∀ args ctx, (perform args ctx).action.Raises own []

/-- What the routines of a definition raise themselves. -/
def Definition.Raises (own : Cause → Prop) (definition : Definition) : Prop :=
  ∀ mode routine, definition.Gives mode routine → routine.Raises own

/-- All failures of the evaluations have a property. -/
def Evaluator.FailsOnly (P : EvalError → Prop) (eval : Evaluator) : Prop :=
  ∀ mode scope node, (eval mode scope node).body.FailsOnly P

section

variable {own : Cause → Prop} {eval : Evaluator} {mode : Mode}
  (hP : EvalError.Lasting P) (hown : ∀ e : EvalError, own e.cause → P e)

include hP hown

theorem Action.failsOnly_plan (heval : eval.FailsOnly P) {known : List EvalError}
    (hknown : ∀ e ∈ known, P e) {action : Action} (h : action.Raises own known) :
    (action.plan eval mode).FailsOnly P := by
  induction h with
  | finish outcome =>
    cases outcome with
    | value v => exact Plan.failsOnly_done v
    | evaluate scope node => exact Call.failsOnly_plan_iff.2 (heval mode scope node)
  | @raised known e h => exact Plan.failsOnly_fail (hown e h)
  | @mismatched known e t v h =>
    -- what the error is tagged with already makes no difference
    obtain ⟨cause, id⟩ := e
    obtain rfl : cause = .mismatch t v := h
    cases id with
    | none => exact Plan.failsOnly_fail (hP.mismatch t v)
    | some id => exact Plan.failsOnly_fail (hP.within id (hP.mismatch t v))
  | @passed known e h => exact Plan.failsOnly_fail (hknown e h)
  | log v _ ih => exact (Plan.failsOnly_emitAll_iff [.logged v]).2 (ih hknown)
  | evaluate scope node _ _ ihvalue ihfailure =>
    refine .ask (Call.failsOnly_plan_iff.2 (heval .sync scope node)) fun answer hanswer => ?_
    cases answer with
    | ok v => exact ihvalue v hknown
    -- from here on the action may know one failure more
    | error e => exact ihfailure e (List.forall_mem_cons.2 ⟨hanswer e rfl, hknown⟩)

theorem Routine.failsOnly_call (heval : eval.FailsOnly P) {routine : Routine}
    (h : routine.Raises own) (ctx : Context) (args : List Json) :
    (routine.call eval mode ctx args).body.FailsOnly P := by
  have haction : ∀ action : Action, action.Raises own [] →
      (action.plan eval mode).FailsOnly P := fun action h =>
    Action.failsOnly_plan hP hown heval (List.forall_mem_nil _) h
  cases routine with
  | declared d =>
    refine .join (fun call hm => ?_) fun params => ?_
    · obtain ⟨t, -, raw, rfl⟩ := TypeSpec.exists_of_mem_resolveEach hm
      have hnode : ∀ node, (eval mode ctx.scope node).plan.FailsOnly P := fun node =>
        Call.failsOnly_plan_iff.2 (heval mode ctx.scope node)
      exact Call.failsOnly_plan_iff.1 (hP.resolveClosed.resolve (fun _ => hnode) t raw)
    · exact (Plan.failsOnly_emitAll_iff [_]).2 (haction _ (h params ctx))
  | raw handler =>
    refine .join (fun call hm => ?_) fun params => ?_
    · obtain ⟨arg, -, rfl⟩ := List.mem_map.1 hm
      exact heval mode ctx.scope arg
    · exact (Plan.failsOnly_emitAll_iff [_]).2 (haction _ (h params ctx))
  | written perform => exact (haction _ (h args ctx)).wait _

end

/-! ### Failures of a registry -/

/-- What the interpreters of a registry raise has a property: each routine raises errors of its own
that have it, and each refusal has it. -/
structure Registry.Raises (registry : Registry) (own : Cause → Prop) (P : EvalError → Prop) :
    Prop where
  routines : ∀ {id interpreter mode routine}, registry.get? id = some interpreter →
    interpreter.side mode = .supported routine → routine.Raises own
  refusals : ∀ {id interpreter mode name}, registry.get? id = some interpreter →
    interpreter.side mode = .unsupported name → P (.unsupported name mode)

namespace Registry

variable {registry : Registry} {own : Cause → Prop} (hP : EvalError.Lasting P)
  (hown : ∀ e : EvalError, own e.cause → P e) (h : registry.Raises own P)

include hP hown h

theorem failsOnly_evaluateWith {eval : Evaluator} (heval : eval.FailsOnly P) :
    (registry.evaluateWith eval).FailsOnly P := by
  intro mode scope node
  unfold evaluateWith
  split
  · exact Plan.failsOnly_done node
  · rename_i id interpreter args hcall
    have hget := get?_of_call? hcall
    -- the property survives the tag on the way out, so it is enough to look inside
    refine Plan.FailsOnly.within ?_ (hP.within id)
    cases hside : interpreter.side mode with
    | unsupported name => exact Plan.failsOnly_fail (h.refusals hget hside)
    | supported routine =>
      exact Routine.failsOnly_call hP hown heval (h.routines hget hside) _ args

/-- **Failures within a budget** have a property if it lasts and all that the interpreters raise
has it. -/
theorem failsOnly_evaluator (budget : Nat) : (registry.evaluator budget).FailsOnly P := by
  induction budget with
  | zero => exact fun mode scope node => Plan.failsOnly_exhausted
  | succ budget ih => exact failsOnly_evaluateWith hP hown h ih

end Registry

/-! ### Failures of what was built -/

/-- The definition is a pair that has nothing for the mode. -/
inductive Definition.Lacks : Definition → Mode → Prop where
  | onTheSpot (async : Option Routine) : Lacks (.pair none async) .sync
  | inTime (sync : Option Routine) : Lacks (.pair sync none) .async

/-- What refuses to run is a side that a pair lacks, and it does so in the name of the pair. -/
theorem Definition.lacks_of_compile {definition : Definition} {id name : String}
    {interpreter : Interpreter} (hc : definition.compile id = .ok interpreter) {mode : Mode}
    (hside : interpreter.side mode = .unsupported name) :
    name = id ∧ definition.Lacks mode := by
  cases definition with
  | declared d =>
    obtain ⟨valid, -, hsides⟩ := side_of_compile hc
    exact nomatch (hsides mode).symm.trans hside
  | raw handler =>
    obtain rfl := Except.ok.inj hc
    cases mode <;> exact nomatch hside
  | pair sync async =>
    obtain rfl := Except.ok.inj hc
    cases mode with
    -- a side that is there does not refuse
    | sync =>
      cases sync with
      | some routine => exact nomatch hside
      | none => exact ⟨(Executable.unsupported.inj hside).symm, .onTheSpot async⟩
    | async =>
      cases async with
      | some routine => exact nomatch hside
      | none => exact ⟨(Executable.unsupported.inj hside).symm, .inTime sync⟩

namespace Builder

variable {builder : Builder} {registry : Registry} {own : Cause → Prop}

/-- The error is that of a pair under one of the identifiers of the registry, which has nothing for
a mode. -/
def Refuses (builder : Builder) (registry : Registry) (e : EvalError) : Prop :=
  ∃ id definition mode, e = .unsupported id mode ∧ registry.contains id = true ∧
    Fields.get? id builder.definitions = some definition ∧ definition.Lacks mode

/-- What there is to expect of failures: a failed check, an error of a handler's own, or a
refusal. -/
def Expects (builder : Builder) (registry : Registry) (own : Cause → Prop) (e : EvalError) : Prop :=
  (∃ t v, e.cause = .mismatch t v) ∨ own e.cause ∨ builder.Refuses registry e

theorem lasting_expects : EvalError.Lasting (builder.Expects registry own) where
  mismatch t v := .inl ⟨t, v, rfl⟩
  within {e} id h := by
    rcases h with h | h | ⟨name, definition, mode, rfl, hrest⟩
    · exact .inl h
    · exact .inr (.inl h)
    -- a refusal is tagged from the start
    · exact .inr (.inr ⟨name, definition, mode, rfl, hrest⟩)

theorem raises_of_build (hbuild : builder.build = .ok registry)
    (h : ∀ entry ∈ builder.definitions, entry.2.Raises own) :
    registry.Raises own (builder.Expects registry own) where
  routines {id interpreter mode routine} hget hside := by
    obtain ⟨definition, hm, hgives⟩ := exists_gives_of_build hbuild hget hside
    exact h (id, definition) hm mode routine hgives
  refusals {id interpreter mode name} hget hside := by
    rw [Registry.get?] at hget
    have hcontains : registry.contains id = true := by
      simp [Registry.contains, Fields.contains, hget]
    rw [get?_of_compileAll (build_eq_ok hbuild).2.1 id, Option.bind_eq_some_iff] at hget
    obtain ⟨definition, hd, hc⟩ := hget
    cases hcompile : definition.compile id with
    | error flaw => simp [hcompile, Except.toOption] at hc
    | ok found =>
      obtain rfl : found = interpreter := by simpa [hcompile, Except.toOption] using hc
      obtain ⟨rfl, hlacks⟩ := Definition.lacks_of_compile hcompile hside
      exact .inr (.inr ⟨_, definition, mode, rfl, hcontains, hd, hlacks⟩)

/-- **Flaws never come to light in an evaluation.** Let a registry be built, and let its handlers
and hand-written executables raise errors of their own that report neither flaws nor missing modes.
Then, within any budget and in either mode, if the evaluation of a node fails, whether or not its
value is checked and whatever it waits for on the way,

* it does not fail for a flaw;
* if it fails for a missing mode, the error names an identifier of the registry, and the definition
  under it is a pair that lacks one;
* if no pair lacks a mode, it fails for a mismatch or with an error of a handler's own. -/
theorem failures_of_build (hbuild : builder.build = .ok registry)
    (hraises : ∀ entry ∈ builder.definitions, entry.2.Raises own)
    (hown : ∀ cause, own cause → cause.kind ≠ .invalidTypeSpec ∧ cause.kind ≠ .modeUnsupported)
    (budget : Nat) (mode : Mode) (scope : Scope) {p : Plan}
    (hp : (∃ node, p = registry.planWithin budget mode scope node) ∨
      ∃ t node, p = registry.planTypedWithin budget t mode scope node)
    (time : Nat) {e : EvalError} (he : p.verdictIn mode time = .error (.failed e)) :
    e.kind ≠ .invalidTypeSpec ∧
    (e.kind = .modeUnsupported → ∃ id definition lacking, e.id = some id ∧
      registry.contains id = true ∧ Fields.get? id builder.definitions = some definition ∧
      definition.Lacks lacking) ∧
    ((∀ id definition lacking, Fields.get? id builder.definitions = some definition →
        ¬ definition.Lacks lacking) →
      e.kind = .typeMismatch ∨ own e.cause) := by
  have hlasting : EvalError.Lasting (builder.Expects registry own) := lasting_expects
  have hnode : ∀ node,
      (registry.planWithin budget mode scope node).FailsOnly (builder.Expects registry own) :=
    fun node => Call.failsOnly_plan_iff.2 <|
      Registry.failsOnly_evaluator hlasting (fun e h => .inr (.inl h))
        (raises_of_build hbuild hraises) budget mode scope node
  have hexpected : builder.Expects registry own e := by
    rcases hp with ⟨node, rfl⟩ | ⟨t, node, rfl⟩
    · exact hnode node mode time e he
    -- the check at the end fails with a mismatch, if at all
    · exact (hnode node).bind (hlasting.resolveClosed.checked t) mode time e he
  rcases hexpected with ⟨t, v, hcause⟩ | hcause | ⟨id, definition, lacking, rfl, hrest⟩
  · have hkind : e.kind = .typeMismatch := by rw [EvalError.kind, hcause]; rfl
    exact ⟨by simp [hkind], by simp [hkind], fun _ => .inl hkind⟩
  · obtain ⟨hflaw, hmode⟩ := hown e.cause hcause
    exact ⟨hflaw, fun h => absurd h hmode, fun _ => .inr hcause⟩
  · refine ⟨nofun, fun _ => ⟨id, definition, lacking, rfl, hrest⟩, fun hnone => ?_⟩
    exact absurd hrest.2.2 (hnone id definition lacking hrest.2.1)

end Builder

namespace Stock

/-- Has its first argument evaluated on the spot, and passes on what comes of it. -/
def attempt (args : List Json) (ctx : Context) : Performance :=
  { action := .evaluate ctx.scope (Core.param args 0) (Action.orFail .value) }

/-- The core interpreters with one that gives up, one that has nothing for calls on the spot, and
one that makes such calls. -/
def patchyBuilder : Builder :=
  (Core.builder .production).registerAll
    [("$no", .raw (failure (.stated "no" .handler))),
      ("$slow", .pair none (some (.written delayEvaluated))),
      ("$try", .pair (some (.written attempt)) (some (.written attempt)))]

theorem raises_patchyBuilder : ∀ entry ∈ patchyBuilder.definitions,
    entry.2.Raises fun cause => cause.kind = .handler := by
  have hreadValue : ∀ params ctx,
      (Core.readValue params ctx).Raises (fun cause => cause.kind = .handler) [] := by
    intro params ctx
    unfold Core.readValue
    split <;> exact .finish _
  have hattempt : ∀ args ctx,
      (attempt args ctx).action.Raises (fun cause => cause.kind = .handler) [] := fun args ctx =>
    .evaluate _ _ (fun v => .finish _) fun e => .passed List.mem_cons_self
  have hentries : patchyBuilder.definitions.map Prod.snd =
      [.declared Core.evaluate, .declared Core.literal, .raw (failure (.stated "no" .handler)),
        .pair none (some (.written delayEvaluated)),
        .pair (some (.written attempt)) (some (.written attempt)), .declared Core.value] := rfl
  have hall : ∀ d ∈ patchyBuilder.definitions.map Prod.snd,
      d.Raises fun cause => cause.kind = .handler := by
    rw [hentries]
    simp only [List.forall_mem_cons]
    refine ⟨?_, ?_, ?_, ?_, ?_, ?_, List.forall_mem_nil _⟩
    · rintro _ _ ⟨valid, hd, _⟩ params ctx
      rw [hd]
      exact .finish _
    · rintro _ _ ⟨valid, hd, _⟩ params ctx
      rw [hd]
      exact .finish _
    · rintro _ _ ⟨⟩ params ctx
      exact .raised rfl
    · rintro _ _ ⟨⟩ args ctx
      exact .finish _
    · rintro _ _ ⟨⟩ args ctx <;> exact hattempt args ctx
    · rintro _ _ ⟨valid, hd, _⟩ params ctx
      rw [hd]
      exact hreadValue params ctx
  exact fun entry hm => hall entry.2 (List.mem_map_of_mem hm)

/-- An evaluation side by side leads to one on the spot, and there a pair lacks what it needs. -/
theorem slow_refuses :
    ∃ registry, patchyBuilder.build = .ok registry ∧
      ∃ id definition lacking, some "$slow" = some id ∧ registry.contains id = true ∧
        Fields.get? id patchyBuilder.definitions = some definition ∧ definition.Lacks lacking := by
  refine ⟨_, rfl, ?_⟩
  exact (Builder.failures_of_build rfl raises_patchyBuilder (fun cause h => by simp [h]) 3 .async
    (.root .null)
    (.inl ⟨.arr [.str "$try", .arr [.str "$slow", .ofInt 1, .null]], rfl⟩) 7 rfl).2.1 rfl

end Stock

end SigilExpr
