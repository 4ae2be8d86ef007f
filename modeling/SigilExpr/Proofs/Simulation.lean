import SigilExpr.Evaluate
import SigilExpr.Proofs.Course.Join

/-!
# Relating evaluations

Most of what is true of all evaluations is true for the same reason: the parts of a plan have some
property, or are related to the parts of another plan, and everything that evaluation does with
parts keeps that. `Simulation` collects what has to be kept. What follows from it is proved once,
by induction on specs and budgets:

* `Simulation.resolves` — two ways to evaluate nodes that are related give related ways to resolve
  arguments;
* `Simulation.evaluateWith` — and related evaluations, if the interpreters of the registry are
  related in the two modes;
* `Simulation.evaluator` — so evaluations within a budget are related.

A property of single plans is the relation of a plan with itself. What a simulation has to make of
visits, warnings and calls of handlers depends on the registry (`Simulation.Fits`). It is told of
the call of a handler where the parameters come from (`Invocation.Arises`), so it knows that they
have the shapes that are declared for them (`Invocation.Arises.wellTyped`).
-/

namespace SigilExpr

/-! ### Parameters have their shapes -/

/-- There is one parameter for each declared shape, and it has that shape. -/
def Invocation.WellTyped (call : Invocation) : Prop :=
  ∀ signature, call.signature = some signature →
    List.Forall₂ (fun t v => t.accepts v = true) signature.specs call.params

/-- Whatever the plan comes to on the spot has a shape. -/
def Plan.Yields (t : TypeSpec) (p : Plan) : Prop :=
  ∀ v, p.run.verdict = .ok v → t.accepts v = true

namespace Plan.Yields

variable {t : TypeSpec}

/-- What a plan goes on with decides about the value. -/
theorem bind {p : Plan} {next : Json → Plan} (h : ∀ w, (next w).Yields t) :
    (p.bind next).Yields t := by
  intro v hv
  rw [run_bind, Run.verdict_bind_eq_ok_iff] at hv
  obtain ⟨w, -, hw⟩ := hv
  exact h w v hw

/-- So it does after a join. -/
theorem join {calls : List Call} {rest : List Json → Plan} (h : ∀ ws, (rest ws).Yields t) :
    (Plan.join calls rest).Yields t := by
  intro v hv
  rw [run_join, Run.verdict_bind_eq_ok_iff] at hv
  obtain ⟨ws, -, hw⟩ := hv
  exact h ws v hw

end Plan.Yields

namespace TypeSpec

/-- A value that was checked has the shape. -/
theorem yields_checked (t : TypeSpec) (v : Json) : (checked t v).Yields t := by
  intro w hw
  by_cases hv : t.accepts v = true
  · have hdone : checked t v = .done v := by
      rw [checked, check, if_pos hv]
      rfl
    obtain rfl : v = w := by simpa [hdone, Run.done] using hw
    exact hv
  · have hfail : checked t v = refuse t v := by
      rw [checked, check, if_neg hv]
      rfl
    simp [hfail, refuse, Plan.fail] at hw

/-- A value that is refused is none. -/
theorem yields_refuse (t : TypeSpec) (v : Json) : (refuse t v).Yields t := by
  intro w hw
  simp [refuse, Plan.fail] at hw

/-- **What an argument resolves to has the shape,** in either mode and whatever it is that evaluates
the nodes. -/
theorem yields_resolve (mode : Mode) (eval : Json → Call) (t : TypeSpec)
    (raw : Json) : (t.resolve mode eval raw).body.Yields t := by
  -- the argument is evaluated, and whatever goes on after that ends in a check of the whole
  cases t with
  | any delayed => exact fun v _ => by simp [accepts]
  | single type => exact .bind fun v => yields_checked _ _
  | oneOf types => exact .bind fun v => yields_checked _ _
  | oneValueOf options => exact .bind fun v => yields_checked _ _
  | tuple items =>
    refine .bind fun v => ?_
    split
    · split
      · exact .join fun ws => yields_checked _ _
      · exact yields_refuse _ _
    · exact yields_refuse _ _
  | sequenceOf item =>
    refine .bind fun v => ?_
    split
    · exact .join fun ws => yields_checked _ _
    · exact yields_refuse _ _
  | record fields =>
    refine .bind fun v => ?_
    split
    · cases mode with
      | sync => exact .bind fun w => yields_checked _ _
      | async => exact .join fun ws => yields_checked _ _
    · exact yields_refuse _ _
  | recordOf item =>
    refine .bind fun v => ?_
    split
    · exact .join fun ws => yields_checked _ _
    · exact yields_refuse _ _

end TypeSpec

/-! ### Where parameters come from -/

/-- A way to evaluate the nodes that an evaluation leads to: with a budget for further evaluations,
or with none, when nothing comes of them. -/
inductive Registry.Way (registry : Registry) : Evaluator → Prop where
  | nothing : Way registry fun _ _ _ => .ofPlan .exhausted
  | within (budget : Nat) : Way registry (registry.evaluator budget)

/-- The parameters of a declared handler are what its arguments were resolved to on the spot, with
a way to evaluate nodes. -/
def Invocation.Arises (call : Invocation) (eval : Evaluator) (mode : Mode) : Prop :=
  ∀ signature, call.signature = some signature →
    (Plan.runAll (TypeSpec.resolveEach mode (eval mode call.scope) signature.specs
      (signature.supply mode call.args))).verdict = .ok call.params

/-- The parameters that a declaration passes on have their shapes. -/
theorem TypeSpec.wellTyped_of_runAll {mode : Mode} {eval : Json → Call}
    {ts : List TypeSpec} {raws vs : List Json} (hlen : raws.length = ts.length)
    (h : (Plan.runAll (resolveEach mode eval ts raws)).verdict = .ok vs) :
    List.Forall₂ (fun t v => t.accepts v = true) ts vs := by
  rw [Plan.verdict_runAll_eq_ok_iff] at h
  induction ts generalizing raws vs with
  | nil =>
    obtain rfl : raws = [] := List.eq_nil_of_length_eq_zero hlen
    obtain rfl := List.forall₂_nil_left_iff.1 h
    exact .nil
  | cons t ts ih =>
    cases raws with
    | nil => simp at hlen
    | cons raw raws =>
      -- each parameter comes from an argument of its own
      obtain ⟨v, vs, hv, hvs, rfl⟩ := List.forall₂_cons_left_iff.1 h
      exact .cons (yields_resolve _ _ t raw v hv) (ih (by simpa using hlen) hvs)

theorem Invocation.Arises.wellTyped {call : Invocation} {eval : Evaluator} {mode : Mode}
    (h : call.Arises eval mode) : call.WellTyped := by
  intro signature hs
  exact TypeSpec.wellTyped_of_runAll (by simp [Signature.supply_eq]) (h signature hs)

/-! ### Simulations -/

/-- Relations on plans and on calls that evaluation keeps. -/
structure Simulation where
  /-- What may happen. -/
  event : Event → Prop
  /-- How plans are related. -/
  plan : Plan → Plan → Prop
  /-- How calls are related. -/
  call : Call → Call → Prop
  /-- How hand-written executables are related. -/
  written : Performance → Performance → Prop
  done : ∀ v, plan (.done v) (.done v)
  halt : ∀ why, plan (.halt why) (.halt why)
  emit : ∀ {e p q}, event e → plan p q → plan (.emit e p) (.emit e q)
  ask : ∀ {p q f g}, plan p q → (∀ answer, plan (f answer) (g answer)) →
    plan (.ask p f) (.ask q g)
  join : ∀ {cs ds f g}, List.Forall₂ call cs ds →
    (∀ vs, (Plan.runAll cs).verdict = .ok vs → plan (f vs) (g vs)) → plan (.join cs f) (.join ds g)
  bind : ∀ {p q f g}, plan p q → (∀ v, plan (f v) (g v)) → plan (p.bind f) (q.bind g)
  ofPlan : ∀ {p q}, plan p q → call (.ofPlan p) (.ofPlan q)
  made : ∀ {c d}, call c d → plan c.plan d.plan
  within : ∀ {c d} id, call c d → call (c.within id) (d.within id)
  breakOff : ∀ {c d}, call c d → call c.breakOff d.breakOff
  logged : ∀ v, event (.logged v)
  /-- Related executables do the same in the end. -/
  action_eq : ∀ {a b}, written a b → a.action = b.action
  perform : ∀ {a b p q}, written a b → plan p q →
    call ⟨a.onCall.map .logged, .wait a.ticks p⟩ ⟨b.onCall.map .logged, .wait b.ticks q⟩

/-- Where no executables are related there is nothing to show of their actions. -/
theorem Performance.action_eq_of_false {a b : Performance} (h : False) : a.action = b.action :=
  h.elim

/-- What happens in the evaluations of a registry, apart from entries of the log, agrees with the
relations. -/
class Simulation.Fits (S : Simulation) (registry : Registry) : Prop where
  /-- A node may be visited, with warnings, before anything else happens. -/
  arrival : ∀ {c d} (node : Json), S.call c d →
    S.call (c.after (registry.arrival node)) (d.after (registry.arrival node))
  /-- A handler may be called with parameters that come about in one of the ways there are. -/
  invoked : ∀ {eval mode} {invocation : Invocation}, registry.Way eval →
    invocation.Arises eval mode → S.event (.invoked invocation)

namespace Simulation

variable {α : Type} (S : Simulation)

/-! ### Resolving arguments -/

/-- Arguments of a shape are resolved in related ways in two modes if the ways to evaluate nodes are
related. -/
def Resolves (m₁ m₂ : Mode) (t : TypeSpec) : Prop :=
  ∀ (e₁ e₂ : Json → Call), (∀ node, S.call (e₁ node) (e₂ node)) →
    ∀ raw, S.call (t.resolve m₁ e₁ raw) (t.resolve m₂ e₂ raw)

theorem ofResult (result : Except EvalError Json) :
    S.plan (.ofResult result) (.ofResult result) := by
  cases result with
  | ok v => exact S.done v
  | error e => exact S.halt _

theorem forall₂_map {e₁ e₂ : α → Call} (h : ∀ a, S.call (e₁ a) (e₂ a)) (xs : List α) :
    List.Forall₂ S.call (xs.map e₁) (xs.map e₂) := by
  rw [List.forall₂_map_left_iff, List.forall₂_map_right_iff]
  exact List.forall₂_same.2 fun a _ => h a

/-- Each mode has its own way to go about a record. -/
private theorem byMode (mode : Mode) {p p' q q' : Plan} (hsync : S.plan p p')
    (hasync : S.plan q q') :
    S.plan (match mode with | .sync => p | .async => q)
      (match mode with | .sync => p' | .async => q') := by
  cases mode with
  | sync => exact hsync
  | async => exact hasync

section

variable {mode : Mode} {e₁ e₂ : Json → Call}

/-- What is done with the value of an argument may be anything that is related. -/
private theorem resolve_bind {c d : Call} (h : S.call c d) {f g : Json → Plan}
    (hnext : ∀ v, S.plan (f v) (g v)) :
    S.call (.ofPlan (c.plan.bind f)) (.ofPlan (d.plan.bind g)) :=
  S.ofPlan (S.bind (S.made h) hnext)

mutual

/-- Two arguments may differ as long as what they come to is related. An argument that is taken as
it is written may not. -/
private theorem resolve_same (h : ∀ node, S.call (e₁ node) (e₂ node)) : (t : TypeSpec) →
    ∀ {raw raw' : Json}, S.call (e₁ raw) (e₂ raw') → (t = .any true → raw = raw') →
    S.call (t.resolve mode e₁ raw) (t.resolve mode e₂ raw')
  | .any true, raw, _, _, hsame => hsame rfl ▸ S.ofPlan (S.done raw)
  | .any false, _, _, hraw, _ => hraw
  | .single t, _, _, hraw, _ => S.resolve_bind hraw fun v => S.ofResult _
  | .oneOf ts, _, _, hraw, _ => S.resolve_bind hraw fun v => S.ofResult _
  | .oneValueOf options, _, _, hraw, _ => S.resolve_bind hraw fun v => S.ofResult _
  | .tuple items, _, _, hraw, _ => by
    refine S.resolve_bind hraw fun v => ?_
    split
    · split
      · exact S.join (resolveEach_same h items _) fun ws _ => S.ofResult _
      · exact S.halt _
    · exact S.halt _
  | .sequenceOf item, _, _, hraw, _ => by
    refine S.resolve_bind hraw fun v => ?_
    split
    · exact S.join (S.forall₂_map (fun w => resolve_same h item (h w) fun _ => rfl) _)
        fun ws _ => S.ofResult _
    · exact S.halt _
  | .record fields, _, _, hraw, _ => by
    refine S.resolve_bind hraw fun v => ?_
    split
    · exact S.byMode mode (S.bind (resolveInPlace_same h fields _) fun w => S.ofResult _)
        (S.join (resolveFields_same h fields _) fun ws _ => S.ofResult _)
    · exact S.halt _
  | .recordOf item, _, _, hraw, _ => by
    refine S.resolve_bind hraw fun v => ?_
    split
    · exact S.join (S.forall₂_map (fun entry : String × Json =>
        resolve_same h item (h entry.2) fun _ => rfl) _) fun ws _ => S.ofResult _
    · exact S.halt _

private theorem resolveEach_same (h : ∀ node, S.call (e₁ node) (e₂ node)) : (ts : List TypeSpec) →
    ∀ raws, List.Forall₂ S.call (TypeSpec.resolveEach mode e₁ ts raws)
      (TypeSpec.resolveEach mode e₂ ts raws)
  | [], _ => .nil
  | _ :: _, [] => .nil
  | t :: ts, raw :: raws =>
    .cons (resolve_same h t (h raw) fun _ => rfl) (resolveEach_same h ts raws)

private theorem resolveFields_same (h : ∀ node, S.call (e₁ node) (e₂ node)) :
    (ts : List (String × TypeSpec)) →
    ∀ object, List.Forall₂ S.call (TypeSpec.resolveFields mode e₁ ts object)
      (TypeSpec.resolveFields mode e₂ ts object)
  | [], _ => .nil
  | (_, t) :: ts, object =>
    .cons (resolve_same h t (h _) fun _ => rfl) (resolveFields_same h ts object)

theorem resolveInPlace_same (h : ∀ node, S.call (e₁ node) (e₂ node)) :
    (ts : List (String × TypeSpec)) →
    ∀ object, S.plan (TypeSpec.resolveInPlace mode e₁ ts object)
      (TypeSpec.resolveInPlace mode e₂ ts object)
  | [], _ => S.done _
  | (_, t) :: ts, _ =>
    S.bind (S.made (resolve_same h t (h _) fun _ => rfl)) fun _ => resolveInPlace_same h ts _

end

/-- **Arguments that come to what is related** are resolved in related ways, unless they are taken
as they are written. -/
theorem resolve_of_call (h : ∀ node, S.call (e₁ node) (e₂ node)) {t : TypeSpec}
    (ht : t ≠ .any true) {raw raw' : Json} (hraw : S.call (e₁ raw) (e₂ raw')) :
    S.call (t.resolve mode e₁ raw) (t.resolve mode e₂ raw') :=
  S.resolve_same h t hraw fun hdelayed => absurd hdelayed ht

end

/-- **Arguments are resolved in related ways** if the ways to evaluate nodes are related. -/
theorem resolves (mode : Mode) (t : TypeSpec) : S.Resolves mode mode t :=
  fun _ _ h raw => S.resolve_same h t (h raw) fun _ => rfl

/-! ### Evaluating nodes -/

/-- Two ways to evaluate nodes are related in two modes, and so are the answers on the spot. -/
structure Evaluators (m₁ m₂ : Mode) (E₁ E₂ : Evaluator) : Prop where
  calls : ∀ scope node, S.call (E₁ m₁ scope node) (E₂ m₂ scope node)
  questions : ∀ scope node, S.plan (E₁ .sync scope node).plan (E₂ .sync scope node).plan

/-- What two routines may be if they run in two modes. -/
inductive Routines (m₁ m₂ : Mode) : Routine → Routine → Prop where
  | declared (d : ValidDeclaration) (h : ∀ t ∈ d.signature.specs, S.Resolves m₁ m₂ t) :
    Routines m₁ m₂ (.declared d) (.declared d)
  | raw (handler : Handler) : Routines m₁ m₂ (.raw handler) (.raw handler)
  | written {f g : List Json → Context → Performance}
    (h : ∀ args ctx, S.written (f args ctx) (g args ctx)) : Routines m₁ m₂ (.written f) (.written g)

/-- What two executables may be if they run in two modes. -/
inductive Executables (m₁ m₂ : Mode) : Executable → Executable → Prop where
  | supported {r s : Routine} (h : S.Routines m₁ m₂ r s) :
    Executables m₁ m₂ (.supported r) (.supported s)
  | unsupported (id : String) (h : m₁ = m₂) : Executables m₁ m₂ (.unsupported id) (.unsupported id)

/-- The two sides of every interpreter are related. -/
def Interpreters (m₁ m₂ : Mode) (registry : Registry) : Prop :=
  ∀ id interpreter, registry.get? id = some interpreter →
    S.Executables m₁ m₂ (interpreter.side m₁) (interpreter.side m₂)

section

variable {S} {m₁ m₂ : Mode} {E₁ E₂ : Evaluator} {registry : Registry} [S.Fits registry]
 

omit [S.Fits registry] in
theorem Evaluators.action (h : S.Evaluators m₁ m₂ E₁ E₂) (action : Action) :
    S.plan (action.plan E₁ m₁) (action.plan E₂ m₂) := by
  induction action with
  | finish outcome =>
    cases outcome with
    | value v => exact S.done v
    | evaluate scope node => exact S.made (h.calls scope node)
  | fail e => exact S.halt _
  | log v next ih => exact S.emit (S.logged v) ih
  | evaluate scope node resume ih => exact S.ask (h.questions scope node) ih

omit [S.Fits registry] in
theorem forall₂_resolveEach {e₁ e₂ : Json → Call} (h : ∀ node, S.call (e₁ node) (e₂ node))
    {ts : List TypeSpec} (hts : ∀ t ∈ ts, S.Resolves m₁ m₂ t) (raws : List Json) :
    List.Forall₂ S.call (TypeSpec.resolveEach m₁ e₁ ts raws)
      (TypeSpec.resolveEach m₂ e₂ ts raws) := by
  induction ts generalizing raws with
  | nil => exact .nil
  | cons t ts ih =>
    cases raws with
    | nil => exact .nil
    | cons raw raws =>
      rw [List.forall_mem_cons] at hts
      exact .cons (hts.1 e₁ e₂ h raw) (ih hts.2 raws)

theorem Evaluators.declaration (hway : registry.Way E₁) (h : S.Evaluators m₁ m₂ E₁ E₂)
    (ctx : Context) {d : Declaration} (hd : ∀ t ∈ d.signature.specs, S.Resolves m₁ m₂ t)
    (args : List Json) : S.plan (d.plan E₁ m₁ ctx args) (d.plan E₂ m₂ ctx args) := by
  unfold Declaration.plan
  -- the two modes get the same arguments, each in its own way
  have hsupply : d.signature.supply m₂ args = d.signature.supply m₁ args := by
    rw [Signature.supply_eq, Signature.supply_eq]
  rw [hsupply]
  refine S.join (forall₂_resolveEach (h.calls ctx.scope) hd _) fun params hp => ?_
  have harises : Invocation.Arises ⟨some d.signature, ctx.scope, args, params⟩ E₁ m₁ := by
    intro signature hs
    obtain rfl := Option.some.inj hs
    exact hp
  exact S.emit (Fits.invoked hway harises) (h.action _)

theorem Evaluators.raw (hway : registry.Way E₁) (h : S.Evaluators m₁ m₂ E₁ E₂) (ctx : Context)
    (handler : Handler) (args : List Json) :
    S.plan (handler.plan E₁ m₁ ctx args) (handler.plan E₂ m₂ ctx args) := by
  refine S.join (S.forall₂_map (h.calls ctx.scope) args) fun params _ => ?_
  have harises : Invocation.Arises ⟨none, ctx.scope, args, params⟩ E₁ m₁ :=
    fun signature hs => nomatch hs
  exact S.emit (Fits.invoked hway harises) (h.action _)

theorem Evaluators.executable (hway : registry.Way E₁) (h : S.Evaluators m₁ m₂ E₁ E₂)
    (ctx : Context) {x y : Executable} (hx : S.Executables m₁ m₂ x y) (args : List Json) :
    S.call (x.call E₁ m₁ ctx args) (y.call E₂ m₂ ctx args) := by
  cases hx with
  | unsupported id hm =>
    subst hm
    exact S.ofPlan (S.halt _)
  | supported hr =>
    cases hr with
    | declared d hd => exact S.ofPlan (h.declaration hway ctx hd args)
    | raw handler => exact S.ofPlan (h.raw hway ctx handler args)
    | written hw =>
      refine S.perform (hw args ctx) ?_
      rw [S.action_eq (hw args ctx)]
      exact h.action _

/-- **One evaluation more.** Evaluations are related if those of the nodes that they lead to are. -/
theorem Evaluators.evaluateWith (hway : registry.Way E₁) (hr : S.Interpreters m₁ m₂ registry)
    (h : S.Evaluators m₁ m₂ E₁ E₂) (scope : Scope) (node : Json) :
    S.call (registry.evaluateWith E₁ m₁ scope node) (registry.evaluateWith E₂ m₂ scope node) := by
  refine Fits.arrival node ?_
  split
  · exact S.ofPlan (S.done node)
  · rename_i id interpreter args hcall
    have hside := hr id interpreter (Registry.get?_of_call? hcall)
    exact S.within id (h.executable hway _ hside args)

end

/-- In one mode an executable is related to itself if every hand-written one is. -/
theorem executables_same (h : ∀ performance, S.written performance performance) (mode : Mode)
    (executable : Executable) : S.Executables mode mode executable executable := by
  cases executable with
  | unsupported id => exact .unsupported id rfl
  | supported routine =>
    refine .supported ?_
    cases routine with
    | declared d => exact .declared d fun t _ => S.resolves mode t
    | raw handler => exact .raw handler
    | written perform => exact .written fun args ctx => h (perform args ctx)

theorem interpreters_same (h : ∀ performance, S.written performance performance) (mode : Mode)
    (registry : Registry) : S.Interpreters mode mode registry := fun _ interpreter _ =>
  S.executables_same h mode (interpreter.side mode)

variable {S}

section

variable {registry : Registry} [S.Fits registry] {m₁ m₂ : Mode}

private theorem spent (h : S.Interpreters m₁ m₂ registry) (scope : Scope) (node : Json) :
    S.call (registry.spent m₁ scope node) (registry.spent m₂ scope node) := by
  -- what would come of the nodes that it leads to is left open, since nothing does
  have hnothing : S.Evaluators m₁ m₂ (fun _ _ _ => .ofPlan .exhausted)
      (fun _ _ _ => .ofPlan .exhausted) :=
    ⟨fun _ _ => S.ofPlan (S.halt _), fun _ _ => S.made (S.ofPlan (S.halt _))⟩
  exact S.breakOff (hnothing.evaluateWith .nothing h scope node)

private theorem evaluator_sync (h : S.Interpreters .sync .sync registry) (budget : Nat) :
    S.Evaluators .sync .sync (registry.evaluator budget) (registry.evaluator budget) := by
  induction budget with
  | zero => exact ⟨spent h, fun scope node => S.made (spent h scope node)⟩
  | succ budget ih =>
    have hcalls := ih.evaluateWith (.within budget) h
    exact ⟨hcalls, fun scope node => S.made (hcalls scope node)⟩

/-- **Evaluations within a budget are related** in two modes if the two sides of every interpreter
are. -/
theorem evaluator (hsync : S.Interpreters .sync .sync registry)
    (h : S.Interpreters m₁ m₂ registry) (budget : Nat) :
    S.Evaluators m₁ m₂ (registry.evaluator budget) (registry.evaluator budget) := by
  -- questions are answered on the spot in either mode, so they need the one mode only
  induction budget with
  | zero => exact ⟨spent h, (evaluator_sync hsync 0).questions⟩
  | succ budget ih =>
    exact ⟨ih.evaluateWith (.within budget) h, (evaluator_sync hsync (budget + 1)).questions⟩

end

section

variable {m₁ m₂ : Mode} {r₁ r₂ : Registry} {b₁ b₂ : Nat}
  (h : S.Evaluators m₁ m₂ (r₁.evaluator b₁) (r₂.evaluator b₂)) (scope : Scope)

include h

theorem Evaluators.planWithin (node : Json) :
    S.plan (r₁.planWithin b₁ m₁ scope node) (r₂.planWithin b₂ m₂ scope node) :=
  S.made (h.calls scope node)

theorem Evaluators.planTypedWithin (t : TypeSpec) (node : Json) :
    S.plan (r₁.planTypedWithin b₁ t m₁ scope node) (r₂.planTypedWithin b₂ t m₂ scope node) :=
  S.bind (h.planWithin scope node) fun _ => S.ofResult _

theorem Evaluators.planResolveWithin {t : TypeSpec} (ht : S.Resolves m₁ m₂ t) (raw : Json) :
    S.plan (r₁.planResolveWithin b₁ t m₁ scope raw) (r₂.planResolveWithin b₂ t m₂ scope raw) :=
  S.made (ht _ _ (h.calls scope) raw)

end

theorem Evaluators.planCallWithin {m₁ m₂ : Mode} {registry : Registry} [S.Fits registry]
    {b₁ b₂ : Nat} (h : S.Evaluators m₁ m₂ (registry.evaluator b₁) (registry.evaluator b₂))
    (scope : Scope) {x y : Executable} (hx : S.Executables m₁ m₂ x y) (args : List Json) :
    S.plan (registry.planCallWithin b₁ x args m₁ scope)
      (registry.planCallWithin b₂ y args m₂ scope) :=
  S.made (h.executable (.within b₁) _ hx args)

end Simulation

end SigilExpr
