import SigilExpr.Proofs.Boundary
import SigilExpr.Proofs.Declared

/-!
# What left-out arguments stand for

A declared parameter may take the current value where a call leaves it out: the argument is then the
expression for the current value (`Core.currentValue`), and it is resolved as any other. So for a
parameter of any shape the handler gets whatever that expression comes to in the scope of the call
(`Invocation.Arises.default`). That is the current value as long as the interpreter from the core
stands behind the identifier in the expression (`Registry.CurrentValueIs.eq_value`), and it need not
be if another one was registered in its place.

The main result, `Builder.defaults_resolved`, is about all evaluations in the registries that are
built.
-/

/-- Where two lists are related item by item, an item of the first has a partner at its position. -/
theorem List.Forall₂.exists_getElem? {α β : Type} {R : α → β → Prop} {xs : List α} {ys : List β}
    (h : List.Forall₂ R xs ys) {k : Nat} {x : α} (hx : xs[k]? = some x) :
    ∃ y, ys[k]? = some y ∧ R x y := by
  induction h generalizing k with
  | nil => simp at hx
  | @cons a b as bs hab _ ih =>
    cases k with
    | zero =>
      obtain rfl : a = x := by simpa using hx
      exact ⟨b, rfl, hab⟩
    | succ k => exact ih (by simpa using hx)

namespace SigilExpr

/-! ### The argument for a parameter that is left out -/

/-- The argument for the parameter that takes the current value is the expression for it. -/
theorem Signature.getElem?_supply {signature : Signature} {args : List Json} {k : Nat}
    (hfallback : signature.fallback = some k) (hlt : k < signature.specs.length)
    (hargs : args.length ≤ k) (mode : Mode) :
    (signature.supply mode args)[k]? = some Core.currentValue := by
  have hargument : signature.argument args k = Core.currentValue := by
    rw [argument, List.getElem?_eq_none hargs, omitted, if_pos hfallback]
  rw [supply_eq, arguments, List.getElem?_map, List.getElem?_range hlt, Option.map_some, hargument]

theorem TypeSpec.getElem?_resolveEach {mode : Mode} {eval : Json → Call}
    {ts : List TypeSpec} {raws : List Json} {k : Nat} {t : TypeSpec} {raw : Json}
    (ht : ts[k]? = some t) (hraw : raws[k]? = some raw) :
    (resolveEach mode eval ts raws)[k]? = some (t.resolve mode eval raw) := by
  induction ts generalizing raws k with
  | nil => simp at ht
  | cons first ts ih =>
    cases raws with
    | nil => simp at hraw
    | cons r raws =>
      cases k with
      | zero =>
        obtain rfl : first = t := by simpa using ht
        obtain rfl : r = raw := by simpa using hraw
        rfl
      | succ k => exact ih (by simpa using ht) (by simpa using hraw)

/-- The call leaves out the parameter that takes the current value, which is at this position and
may have any shape. -/
def Invocation.Omits (call : Invocation) (k : Nat) : Prop :=
  ∃ signature, call.signature = some signature ∧ signature.fallback = some k ∧
    signature.specs[k]? = some (.any false) ∧ call.args.length ≤ k

/-- The value is one that the expression for the current value has in a scope. -/
def Registry.CurrentValueIs (registry : Registry) (scope : Scope) (v : Json) : Prop :=
  ∃ budget mode, (registry.planWithin budget mode scope Core.currentValue).run.verdict = .ok v

/-- **What is left out is evaluated.** A handler gets, for the parameter that takes the current
value, what the expression for it comes to. -/
theorem Invocation.Arises.default {registry : Registry} {call : Invocation} {eval : Evaluator}
    {mode : Mode} (h : call.Arises eval mode) (hway : registry.Way eval) {k : Nat}
    (homits : call.Omits k) :
    ∃ v, call.params[k]? = some v ∧ registry.CurrentValueIs call.scope v := by
  obtain ⟨signature, hsignature, hfallback, hspec, hargs⟩ := homits
  have hparams := h signature hsignature
  rw [Plan.verdict_runAll_eq_ok_iff] at hparams
  have hlt : k < signature.specs.length := (List.getElem?_eq_some_iff.1 hspec).1
  have hraw := Signature.getElem?_supply hfallback hlt hargs mode
  obtain ⟨v, hv, hverdict⟩ := hparams.exists_getElem? (TypeSpec.getElem?_resolveEach hspec hraw)
  refine ⟨v, hv, ?_⟩
  -- for any shape, to resolve the argument is to evaluate it
  have heval : (eval mode call.scope Core.currentValue).body.run.verdict = .ok v := hverdict
  cases hway with
  | nothing => exact nomatch heval
  | within budget =>
    refine ⟨budget, mode, ?_⟩
    rw [Registry.planWithin, Call.plan, Plan.run_emitAll]
    exact heval

/-! ### The expression for the current value -/

namespace Registry

variable {registry : Registry}

/-- What is not a call stands for itself. -/
theorem verdict_evaluator_null {budget : Nat} {mode : Mode} {scope : Scope} {v : Json}
    (h : (registry.evaluator budget mode scope .null).plan.run.verdict = .ok v) : v = .null := by
  rw [Call.plan, Plan.run_emitAll] at h
  cases budget with
  | zero => exact nomatch h
  | succ budget => exact (Except.ok.inj h).symm

/-- **A declared call has a value** if its parameters have values with which its handler ends in
it. -/
theorem Declares.verdict_planWithin_eq_ok_iff {id : String} {d : Declaration}
    (h : registry.Declares id d) {budget : Nat} {mode : Mode} {scope : Scope} {args : List Json}
    {v : Json} :
    (registry.planWithin (budget + 1) mode scope (.arr (.str id :: args))).run.verdict = .ok v ↔
      ∃ params,
        List.Forall₂ (fun call w => call.body.run.verdict = .ok w)
          (TypeSpec.resolveEach mode (registry.evaluator budget mode scope) d.signature.specs
            (d.signature.arguments args)) params ∧
        ((d.handler params (registry.context scope)).plan (registry.evaluator budget)
          mode).run.verdict = .ok v := by
  rw [h.planWithin_succ, Plan.run_emit, Run.verdict_after, Plan.run_within,
    Run.verdict_within_eq_ok_iff, Declaration.plan_eq_join, Plan.run_join,
    Run.verdict_bind_eq_ok_iff]
  refine exists_congr fun params => and_congr ?_ ?_
  · rw [Plan.verdict_runAll_eq_ok_iff, Declaration.paramCalls, Signature.supply_eq]
    rfl
  · rw [Plan.run_emit, Run.verdict_after]

/-- **The expression for the current value has no other value,** if the interpreter from the core
reads it. -/
theorem CurrentValueIs.eq_value (hreads : registry.Declares Core.valueId Core.value)
    {scope : Scope} {v : Json} (hv : registry.CurrentValueIs scope v) : v = scope.value := by
  obtain ⟨budget, mode, hv⟩ := hv
  cases budget with
  | zero =>
    -- without a budget there is no value
    rw [planWithin, Call.plan, Plan.run_emitAll] at hv
    cases hv
  | succ budget =>
    rw [Core.currentValue, hreads.verdict_planWithin_eq_ok_iff] at hv
    obtain ⟨params, hparams, hend⟩ := hv
    -- the first parameter is null, as it is written, so the path is none
    obtain ⟨path, _, hpath, _, rfl⟩ := List.forall₂_cons_left_iff.1 hparams
    obtain rfl : path = .null := by
      have hbind : (((registry.evaluator budget mode scope .null).plan.bind
        (TypeSpec.checked (.oneOf [.string, .null]))).run).verdict = .ok path := hpath
      rw [Plan.run_bind, Run.verdict_bind_eq_ok_iff] at hbind
      obtain ⟨raw, hraw, hchecked⟩ := hbind
      obtain rfl := verdict_evaluator_null hraw
      exact (Except.ok.inj hchecked).symm
    exact (Except.ok.inj hend).symm

/-- The expression for the current value has that value as soon as there is a budget to read it. -/
theorem Declares.verdict_currentValue (h : registry.Declares Core.valueId Core.value) (budget : Nat)
    (mode : Mode) (scope : Scope) :
    (registry.planWithin (budget + 2) mode scope Core.currentValue).run.verdict =
      .ok scope.value := by
  have hnull : (registry.evaluator (budget + 1) mode scope .null).plan.run.verdict =
      .ok .null := by
    rw [Call.plan, Plan.run_emitAll]
    rfl
  have hpath : (((registry.evaluator (budget + 1) mode scope .null).plan.bind
      (TypeSpec.checked (.oneOf [.string, .null]))).run).verdict = .ok .null := by
    rw [Plan.run_bind, Run.verdict_bind_eq_ok_iff]
    exact ⟨.null, hnull, rfl⟩
  rw [Core.currentValue, h.verdict_planWithin_eq_ok_iff]
  exact ⟨[.null, .null], .cons hpath (.cons rfl .nil), rfl⟩

/-- So that value is the current value, and there is no other. -/
theorem Declares.currentValueIs_iff (h : registry.Declares Core.valueId Core.value) {scope : Scope}
    {v : Json} : registry.CurrentValueIs scope v ↔ v = scope.value := by
  refine ⟨CurrentValueIs.eq_value h, ?_⟩
  rintro rfl
  exact ⟨2, .sync, h.verdict_currentValue 0 .sync scope⟩

end Registry

/-! ### Defaults in evaluations -/

/-- If the event is the call of a handler with the parameter for the current value left out, what
the handler gets for it is as expected in the scope of the call. -/
def Event.DefaultsAre (expected : Scope → Json → Prop) (event : Event) : Prop :=
  ∀ call, event = .invoked call → ∀ k, call.Omits k →
    ∃ v, call.params[k]? = some v ∧ expected call.scope v

/-- Whenever a handler is called in the course of the plan with the parameter for the current value
left out, what it gets for it is as expected in the scope of the call. -/
def Plan.DefaultsAre (expected : Scope → Json → Prop) (p : Plan) : Prop :=
  ∀ call : Invocation, p.Happens (.invoked call) → ∀ k, call.Omits k →
    ∃ v, call.params[k]? = some v ∧ expected call.scope v

namespace Registry

theorem eachPlan_defaultsAre (registry : Registry) (budget : Nat) (mode : Mode) (scope : Scope) :
    registry.EachPlan budget mode scope (Plan.DefaultsAre registry.CurrentValueIs) := by
  have hinvoked : ∀ {eval mode} {call : Invocation}, registry.Way eval → call.Arises eval mode →
      Event.DefaultsAre registry.CurrentValueIs (.invoked call) := by
    intro eval mode call hway harises other he k homits
    obtain rfl := Event.invoked.inj he
    exact harises.default hway homits
  have hlogged : ∀ v, Event.DefaultsAre registry.CurrentValueIs (.logged v) := fun _ => nofun
  have hfits : (Simulation.every (Event.DefaultsAre registry.CurrentValueIs) hlogged).Fits
      registry := Simulation.every_fits (fun _ => nofun) (fun _ _ _ => nofun) hinvoked
  exact (eachPlan_every hfits budget mode scope).mono fun p hp call hcall k homits =>
    hp.of_happens hcall call rfl k homits

end Registry

namespace Builder

variable {builder : Builder} {definitions : String → Option Definition} {registry : Registry}

/-- **Left-out arguments stand for the current value.** Let a registry be built after some calls on
an empty builder.

* If some declaration takes the current value by default, something is registered under the
  identifier for it.
* If something is, then in every evaluation, within any budget, in either mode and in any scope, a
  handler that was declared with a parameter of any shape for the current value, alone or as a side
  of a pair, gets for it, where the call leaves it out, what the expression for the current value
  comes to in the scope of the call.
* If it was the interpreter from the core that was registered last, this is the current value.

The second part asks for something to be registered only so that there is an expression for the
current value to speak of. Where nothing is, the text of that expression stands for itself, and the
handler gets it as it is. -/
theorem defaults_resolved (runtimeMode : RuntimeMode) (steps : List Step)
    (hbuild : ((empty runtimeMode).afterSteps steps).build = .ok registry) (budget : Nat)
    (mode : Mode) (scope : Scope) :
    ((∃ id d, Step.last? steps id = some (.declared d) ∧ d.signature.fallback ≠ none) →
      ∃ definition, Step.last? steps Core.valueId = some definition) ∧
    ((∃ definition, Step.last? steps Core.valueId = some definition) →
      registry.EachPlan budget mode scope (Plan.DefaultsAre registry.CurrentValueIs)) ∧
    (Step.last? steps Core.valueId = some (.declared Core.value) →
      registry.EachPlan budget mode scope (Plan.DefaultsAre fun scope v => v = scope.value)) := by
  have hholds := holds_afterSteps runtimeMode steps
  refine ⟨?_, fun _ => registry.eachPlan_defaultsAre budget mode scope, fun hvalue => ?_⟩
  · rintro ⟨id, d, hd, hfallback⟩
    rcases (hholds.wellFormed hbuild).currentValue with hdefined | hnone
    · exact hdefined
    · exact absurd (hnone hd) hfallback
  · have hreads := hholds.declares hbuild hvalue
    refine (registry.eachPlan_defaultsAre budget mode scope).mono fun p hp call hm k homits => ?_
    obtain ⟨v, hv, hcurrent⟩ := hp call hm k homits
    exact ⟨v, hv, hcurrent.eq_value hreads⟩

end Builder

namespace Stock

/-- A handler that collects its parameters, of which it has one: the current value, by default. -/
def collector : ValidDeclaration := ⟨Declaration.ofSpecs params [.anything], rfl⟩

/-- The collector as a pair, registered before there is anything to read the current value. -/
def collectorSteps : List Builder.Step :=
  [.register "$all" (.pair (some (.declared collector)) (some (.declared collector))),
    .registerAll Core.definitions]

/-- The collector gets the current value. -/
theorem collector_gets_current :
    ∃ registry, ((Builder.empty .production).afterSteps collectorSteps).build = .ok registry ∧
      (registry.planWithin 3 .async (.root (.str "v")) (.arr [.str "$all"])).DefaultsAre
        fun scope v => v = scope.value := by
  refine ⟨_, rfl, ?_⟩
  have h := Builder.defaults_resolved .production collectorSteps rfl 3 .async (.root (.str "v"))
  exact (h.2.2 rfl).node _

/-- The collector in a registry in which another interpreter was registered in the place of the one
that reads the current value. -/
def replacedSteps : List Builder.Step :=
  [.registerAll Core.definitions, .register Core.valueId (.raw (constant (.num (.whole 42)))),
    .register "$all" (.declared collector.toDeclaration)]

/-- Then the collector gets what that other interpreter comes to. -/
theorem collector_gets_replaced :
    ∃ registry, ((Builder.empty .production).afterSteps replacedSteps).build = .ok registry ∧
      ¬ (registry.planWithin 3 .sync (.root (.str "v")) (.arr [.str "$all"])).DefaultsAre
        fun scope v => v = scope.value := by
  refine ⟨_, rfl, fun h => ?_⟩
  let call : Invocation :=
    ⟨some collector.signature, .root (.str "v"), [], [.num (.whole 42)]⟩
  have homits : call.Omits 0 := ⟨_, rfl, rfl, rfl, Nat.le_refl 0⟩
  -- the last of all events is the call of the collector
  obtain ⟨v, hv, rfl⟩ := h call (.inl (List.mem_of_getLast? rfl)) 0 homits
  exact nomatch hv

end Stock

end SigilExpr
