import SigilExpr.Proofs.Flat.Written
import SigilExpr.Proofs.Termination

/-!
# Flat registries come to an end

In a flat registry evaluation goes down the node, and comes to an end if evaluating the expression
for the current value does, since that is all that can be evaluated and does not stand in the node.

That expression may lead to itself: whoever registers a declaration of their own under the
identifier for the current value may have it take the current value by default for an argument that
the expression leaves out. If the declaration does not do so, a budget of a few more evaluations
than the node is deep is enough (`Registry.Flat.completes_of_depth`). `Builder.flat_ends` is the
main result.
-/

open Filter

namespace SigilExpr

/-! ### What comes to an end -/

section

variable {registry : Registry} {mode : Mode} {l : Filter Nat}

/-- A flat handler comes to an end if the nodes do that it may have evaluated. -/
theorem Action.Forwards.eventually_completes {action : Action} {nodes : List Json}
    (h : action.Forwards nodes)
    (hnodes : ∀ node ∈ nodes, ∀ scope, registry.EndsAlong l mode scope node) :
    ∀ᶠ budget in l, (action.plan (registry.evaluator budget) mode).Completes mode := by
  induction h with
  | value v => exact .of_forall fun _ => Plan.completes_done v
  | evaluate scope hm => exact hnodes _ hm scope
  | fail e => exact .of_forall fun _ => Plan.completes_fail _
  | log v _ ih => exact ih.mono fun _ hend => (Plan.completes_emitAll_iff [.logged v] _).2 hend

/-- A flat routine comes to an end if the arguments do as they are supplied, in every scope. -/
theorem Routine.Flat.eventually_completes {routine : Routine} (h : routine.Flat)
    (ctx : Context) {args : List Json}
    (hraws : ∀ raw ∈ routine.supplied args, ∀ scope, registry.EndsAlong l mode scope raw) :
    ∀ᶠ budget in l,
      (routine.call (registry.evaluator budget) mode ctx args).plan.Completes mode := by
  have hmono := fun n m (hnm : n ≤ m) => (registry.evaluators_mono mode hnm).calls ctx.scope
  -- the arguments are finitely many, so they come to an end within the same budgets
  have hall : ∀ᶠ budget in l, ∀ raw ∈ routine.supplied args,
      (registry.planWithin budget mode ctx.scope raw).Completes mode :=
    (eventually_all_finite (List.finite_toSet _)).2 fun raw hm => hraws raw hm ctx.scope
  cases routine with
  | declared d =>
    refine Registry.eventually_join (fun n m hnm => ?_) (hall.mono fun n hn => ?_)
      fun params n hparams => ?_
    · exact Simulation.forall₂_resolveEach (hmono n m hnm)
        (fun t _ => Simulation.approximation.resolves mode t) _
    · rw [Signature.supply_eq]
      refine TypeSpec.forall_resolveEach h.specs (fun v => ?_) (fun raw hm => ?_) fun raw hm t => ?_
      · exact Plan.completes_done v
      · exact Call.completes_plan_iff.1 (hn raw hm)
      · exact Plan.Completes.bind (hn raw hm) fun v => Plan.completes_ofResult _
    · have hforwards := Declaration.Flat.forwards_arguments h ctx hparams
      exact (hforwards.eventually_completes hraws).mono fun _ hend =>
        (Plan.completes_emitAll_iff [_] _).2 hend
  | raw handler =>
    refine Registry.eventually_join (fun n m hnm => ?_) (hall.mono fun n hn => ?_)
      fun params n _ => ?_
    · exact Simulation.approximation.forall₂_map (hmono n m hnm) args
    · intro call hm
      obtain ⟨raw, hraw, rfl⟩ := List.mem_map.1 hm
      exact Call.completes_plan_iff.1 (hn raw hraw)
    · have hnone : ∀ node ∈ ([] : List Json), ∀ scope, registry.EndsAlong l mode scope node :=
        fun node hm => nomatch hm
      exact ((h params ctx).eventually_completes hnone).mono fun _ hend =>
        (Plan.completes_emitAll_iff [_] _).2 hend
  | written perform => exact h.elim

/-- What is no call comes to an end. -/
theorem Registry.completes_of_not_call {node : Json} (hcall : registry.call? node = none)
    (scope : Scope) {budget : Nat} (hbudget : 0 < budget) :
    (registry.planWithin budget mode scope node).Completes mode := by
  obtain ⟨budget, rfl⟩ := Nat.exists_eq_succ_of_ne_zero hbudget.ne'
  rw [planWithin_succ_of_not_call hcall, Plan.completes_emitAll_iff]
  exact Plan.completes_done node

end

namespace Registry.Flat

variable {registry : Registry} (h : registry.Flat) {mode : Mode}

include h

/-- A node comes to an end, with one more in the budget, if all that it leads to does. -/
theorem endsAlong_map_succ {l : Filter Nat} {node : Json}
    (hsupplied : ∀ raw ∈ registry.supplied mode node, ∀ scope, registry.EndsAlong l mode scope raw)
    (scope : Scope) : registry.EndsAlong (l.map Nat.succ) mode scope node := by
  rw [EndsAlong, eventually_map]
  cases hcall : registry.call? node with
  | none => exact .of_forall fun budget => completes_of_not_call hcall scope budget.succ_pos
  | some found =>
    obtain ⟨id, interpreter, args⟩ := found
    obtain ⟨routine, hside, hflat⟩ := h id interpreter (get?_of_call? hcall) mode
    rw [supplied_of_call hcall hside] at hsupplied
    filter_upwards [hflat.eventually_completes (registry.context scope) hsupplied] with budget hend
    rw [planWithin_succ_of_call hcall hside, Plan.completes_emitAll_iff]
    exact (Call.completes_within_iff id).2 hend

/-- If evaluating the expression for the current value comes to an end, everything does. -/
theorem ends_of_currentValue (hcurrent : ∀ scope, registry.Ends mode scope Core.currentValue)
    (node : Json) (scope : Scope) : registry.Ends mode scope node := by
  induction hdepth : node.depth using Nat.strong_induction_on generalizing node scope with
  | h depth ih =>
    subst hdepth
    have hsupplied : ∀ raw ∈ registry.supplied mode node, ∀ scope,
        registry.EndsAlong atTop mode scope raw := by
      intro raw hm scope
      obtain ⟨id, interpreter, args, routine, hcall, -, hraw⟩ := exists_call_of_mem_supplied hm
      obtain rfl := node_of_call? hcall
      refine ends_iff_endsAlong.1 ?_
      -- what is supplied is nested less deeply than the node, or known to come to an end
      rcases Routine.mem_supplied hraw with harg | rfl | ⟨rfl, -⟩
      · exact ih raw.depth (Json.depth_lt_of_mem (List.mem_cons_of_mem _ harg)) raw scope rfl
      · exact ⟨1, completes_of_not_call rfl scope Nat.one_pos⟩
      · exact hcurrent scope
    have hend := h.endsAlong_map_succ hsupplied scope
    exact hend.exists

/-- A node comes to an end within one more than the budget within which all that it leads to
does. -/
theorem completes_succ {budget : Nat} {node : Json}
    (hsupplied : ∀ raw ∈ registry.supplied mode node, ∀ scope,
      (registry.planWithin budget mode scope raw).Completes mode) (scope : Scope) :
    (registry.planWithin (budget + 1) mode scope node).Completes mode := by
  have hend := h.endsAlong_map_succ (l := pure budget) hsupplied scope
  rwa [EndsAlong, eventually_map, eventually_pure] at hend

/-- The expression for the current value comes to an end if it only leads to null. -/
theorem completes_currentValue
    (hnull : ∀ raw ∈ registry.supplied mode Core.currentValue, raw = .null) {budget : Nat}
    (hbudget : 1 < budget) (scope : Scope) :
    (registry.planWithin budget mode scope Core.currentValue).Completes mode := by
  refine completes_mono hbudget (h.completes_succ (fun raw hm scope => ?_) scope)
  obtain rfl := hnull raw hm
  exact completes_of_not_call rfl scope Nat.one_pos

/-- **Evaluation goes down the node**, if the expression for the current value only leads to
null. -/
theorem completes_of_depth
    (hnull : ∀ raw ∈ registry.supplied mode Core.currentValue, raw = .null) {budget : Nat}
    {node : Json} (hbudget : node.depth + 2 < budget) (scope : Scope) :
    (registry.planWithin budget mode scope node).Completes mode := by
  -- one of the budget goes to the node, and its arguments are nested less deeply
  induction budget generalizing node scope with
  | zero => exact absurd hbudget (Nat.not_lt_zero _)
  | succ budget ih =>
    refine h.completes_succ (fun raw hm scope => ?_) scope
    obtain ⟨id, interpreter, args, routine, hcall, -, hraw⟩ := exists_call_of_mem_supplied hm
    obtain rfl := node_of_call? hcall
    rcases Routine.mem_supplied hraw with harg | rfl | ⟨rfl, -⟩
    · have hlt := Json.depth_lt_of_mem (List.mem_cons_of_mem (.str id) harg)
      exact ih (by omega) scope
    · exact completes_of_not_call rfl scope (by omega)
    · exact h.completes_currentValue hnull (by omega) scope

end Registry.Flat

/-! ### What never comes to an end -/

/-- Where parameters are of any shape, the arguments are evaluated. -/
theorem TypeSpec.resolveEach_anything (mode : Mode) (eval : Json → Call)
    {ts : List TypeSpec} {raws : List Json} (hts : ∀ t ∈ ts, t = .anything)
    (hlength : raws.length = ts.length) :
    resolveEach mode eval ts raws = raws.map eval := by
  induction ts generalizing raws with
  | nil =>
    obtain rfl := List.length_eq_zero_iff.1 hlength
    rfl
  | cons t ts ih =>
    obtain ⟨raw, raws, rfl⟩ := List.exists_cons_of_length_eq_add_one hlength
    obtain ⟨rfl, hrest⟩ := List.forall_mem_cons.1 hts
    rw [resolveEach, ih hrest (Nat.succ.inj hlength)]
    rfl

namespace Registry

variable {registry : Registry} {mode : Mode}

theorem breaksOff_planWithin_zero (scope : Scope) (node : Json) :
    (registry.planWithin 0 mode scope node).BreaksOff := fun mode' time =>
  (Plan.verdictIn_emitAll _ _ mode' time).trans (Plan.verdictIn_halt .exhausted mode' time)

theorem neverFails_null (budget : Nat) (scope : Scope) :
    (registry.planWithin budget mode scope .null).NeverFails := by
  cases budget with
  | zero => exact (breaksOff_planWithin_zero scope .null).neverFails
  | succ budget =>
    intro mode' time e
    rw [planWithin_succ_of_not_call rfl, Plan.verdictIn_emitAll, Plan.verdictIn_done]
    exact nofun

/-- **The current value may be its own default.** If a declaration stands behind the identifier for
the current value that takes anything for its parameters, and takes the current value for one that
the expression for it leaves out, then evaluating that expression never comes to an end. -/
theorem not_ends_currentValue {interpreter : Interpreter} {d : ValidDeclaration}
    (hget : registry.get? Core.valueId = some interpreter)
    (hside : interpreter.side mode = .supported (.declared d))
    (hspecs : ∀ t ∈ d.signature.specs, t = .anything) {k : Nat}
    (hk : d.signature.fallback = some k) (hpos : 0 < k) (scope : Scope) :
    ¬ registry.Ends mode scope Core.currentValue := by
  have hcall : registry.call? Core.currentValue = some (Core.valueId, interpreter, [.null]) := by
    rw [Core.currentValue, call?, hget, Option.map_some]
  -- the expression supplies itself at the position of the default
  have hself : Core.currentValue ∈ d.signature.arguments [.null] := by
    have hlt := (Signature.validate_eq_ok_iff.1 d.valid).inRange k hk
    have hnone : [Json.null][k]? = none := List.getElem?_eq_none_iff.2 hpos
    refine List.mem_map.2 ⟨k, List.mem_range.2 hlt, ?_⟩
    rw [Signature.argument, hnone]
    exact if_pos hk
  have hbreaks : ∀ budget, (registry.planWithin budget mode scope Core.currentValue).BreaksOff := by
    intro budget
    induction budget with
    | zero => exact breaksOff_planWithin_zero scope Core.currentValue
    | succ budget ih =>
      intro mode' time
      rw [planWithin_succ_of_call hcall hside, Plan.verdictIn_emitAll]
      refine (Call.breaksOff_within_iff Core.valueId).2 ?_ mode' time
      rw [Routine.call, Call.plan_ofPlan, Declaration.plan, Signature.supply_eq,
        TypeSpec.resolveEach_anything _ _ hspecs (Signature.length_arguments _ _)]
      -- one of the arguments is the expression itself, and none of them fails
      refine Plan.BreaksOff.join (Call.breaksOff_plan_iff.1 ih) (List.mem_map_of_mem hself) ?_ _
      intro call hm
      obtain ⟨raw, hraw, rfl⟩ := List.mem_map.1 hm
      have hsupplied : raw ∈ (Routine.declared d).supplied [.null] := hraw
      rcases Routine.mem_supplied hsupplied with harg | rfl | ⟨rfl, -⟩
      · obtain rfl := List.mem_singleton.1 harg
        exact Call.neverFails_plan_iff.1 (neverFails_null budget scope)
      · exact Call.neverFails_plan_iff.1 (neverFails_null budget scope)
      · exact Call.neverFails_plan_iff.1 ih.neverFails
  rintro ⟨budget, hend⟩
  exact hend 0 (hbreaks budget mode 0)

end Registry

namespace Builder

variable {builder : Builder} {registry : Registry}

/-- The expression for the current value only leads to null, unless the declaration that stands
behind it takes the current value for an argument that the expression leaves out. -/
theorem eq_null_of_mem_supplied (hbuild : builder.build = .ok registry)
    (h : ∀ entry ∈ builder.definitions, entry.2.Flat)
    (hfirst : ∀ d, (Core.valueId, .declared d) ∈ builder.definitions →
      ∀ k, d.signature.fallback = some k → k = 0) {mode : Mode} :
    ∀ raw ∈ registry.supplied mode Core.currentValue, raw = .null := by
  intro raw hm
  obtain ⟨id, interpreter, args, routine, hcall, hside, hraw⟩ :=
    Registry.exists_call_of_mem_supplied hm
  obtain ⟨rfl, rfl⟩ : id = Core.valueId ∧ args = [.null] := by
    simpa [Core.currentValue, eq_comm] using Registry.node_of_call? hcall
  rcases Routine.mem_supplied hraw with harg | rfl | ⟨-, d, k, rfl, hfallback, hlength⟩
  · exact List.mem_singleton.1 harg
  · rfl
  · obtain ⟨definition, hdefined, hgives⟩ :=
      exists_gives_of_build hbuild (Registry.get?_of_call? hcall) hside
    cases hgives with
    | declared valid hd mode =>
      obtain rfl := hfirst _ hdefined k (hd ▸ hfallback)
      exact absurd hlength (by simp)
    | onTheSpot routine async => exact (h _ hdefined).elim
    | inTime routine sync => exact (h _ hdefined).elim

/-- **Flat registries evaluate what was written, and come to an end.** Let a registry be built from
flat definitions.

* Every node that is ever handed to the evaluator, within any budget, in either mode and in any
  scope, stands in the original node or in the expression for the current value.
* Every evaluation in a mode comes to an end if and only if evaluating the expression for the
  current value does, in every scope.
* That is so unless some declaration stands behind the identifier for the current value that takes
  the current value by default for a parameter other than its first. Then every evaluation comes to
  an end within the budget that it is given, in either mode. -/
theorem flat_ends (hbuild : builder.build = .ok registry)
    (h : ∀ entry ∈ builder.definitions, entry.2.Flat) :
    (∀ budget mode scope root v,
      (registry.planWithin budget mode scope root).Happens (.visited v) → v.WrittenIn root) ∧
    (∀ mode, (∀ scope node, registry.Ends mode scope node) ↔
      ∀ scope, registry.Ends mode scope Core.currentValue) ∧
    ((∀ d, (Core.valueId, .declared d) ∈ builder.definitions →
        ∀ k, d.signature.fallback = some k → k = 0) →
      ∀ mode scope node, (registry.plan mode scope node).Completes mode) := by
  have hflat := flat_of_build hbuild h
  refine ⟨fun budget mode scope root v hevent => ?_, fun mode => ⟨?_, ?_⟩, ?_⟩
  · have hevery := (hflat.evaluator_every budget mode (.self root) scope).plan
    exact hevery.of_happens hevent v rfl
  · exact fun hall scope => hall scope Core.currentValue
  · exact fun hcurrent scope node => hflat.ends_of_currentValue hcurrent node scope
  · intro hfirst mode scope node
    have hbudget : node.depth + 2 < Registry.budgetFor node := by
      unfold Registry.budgetFor Registry.standardBudget
      omega
    exact hflat.completes_of_depth (eq_null_of_mem_supplied hbuild h hfirst) hbudget scope

/-- What is true of all that calls register is true of all that a builder holds after them. -/
theorem forall_mem_afterSteps {runtimeMode : RuntimeMode} {steps : List Step}
    {P : String × Definition → Prop} (h : ∀ entry ∈ steps.flatMap Step.entries, P entry) :
    ∀ entry ∈ ((empty runtimeMode).afterSteps steps).definitions, P entry := fun entry hm =>
  h entry (Step.mem_of_last? ((holds_afterSteps runtimeMode steps).mem_iff.1 hm))

end Builder

namespace Command

/-- Every evaluation by the command comes to an end. -/
theorem evaluations_end :
    ∃ registry, (builder .production).build = .ok registry ∧
      ∀ mode scope node, (registry.plan mode scope node).Completes mode := by
  -- the builder of the command is what two calls make of an empty one
  let steps : List Builder.Step := [.registerAll Core.definitions, .registerAll definitions]
  have hentries : ∀ entry ∈ steps.flatMap Builder.Step.entries, entry.2.Flat :=
    List.forall_mem_append.2 ⟨Core.definitions_flat, definitions_flat⟩
  have hflat : ∀ entry ∈ (builder .production).definitions, entry.2.Flat :=
    Builder.forall_mem_afterSteps hentries
  have hholds : (builder .production).Holds (Builder.Step.last? steps) :=
    Builder.holds_afterSteps .production steps
  refine ⟨_, rfl, (Builder.flat_ends rfl hflat).2.2 fun d hd k hk => ?_⟩
  have hlast : some (Definition.declared Core.value) = some (.declared d) := hholds.mem_iff.1 hd
  obtain rfl : Core.value = d := by simpa using hlast
  exact nomatch hk

end Command

namespace Stock

open Builder (Step)

/-- A declaration that takes the current value for its second parameter by default. -/
def selfReader : Declaration := .ofSpecs (constant .null) [.anything, .anything]

/-- The core interpreters, with that declaration in the place of the one that reads the current
value. -/
def selfReadingSteps : List Step :=
  [.registerAll Core.definitions, .register Core.valueId (.declared selfReader)]

/-- Then evaluating the expression for the current value never comes to an end. -/
theorem selfReading_never_ends :
    (∀ entry ∈ ((Builder.empty .production).afterSteps selfReadingSteps).definitions,
      entry.2.Flat) ∧
    ∃ registry, ((Builder.empty .production).afterSteps selfReadingSteps).build = .ok registry ∧
      ∀ mode scope, ¬ registry.Ends mode scope Core.currentValue := by
  refine ⟨Builder.forall_mem_afterSteps ?_, _, rfl, fun mode scope => ?_⟩
  · have hself : selfReader.Flat := ⟨by decide, fun _ _ _ => .value .null⟩
    exact List.forall_mem_append.2 ⟨Core.definitions_flat, List.forall_mem_singleton.2 hself⟩
  · let valid : ValidDeclaration := ⟨selfReader, rfl⟩
    have hside : ∀ mode, Interpreter.side ⟨.supported (.declared valid),
      .supported (.declared valid)⟩ mode = .supported (.declared valid) := by
      intro mode
      cases mode <;> rfl
    have hspecs : ∀ t ∈ valid.signature.specs, t = .anything := fun t hm =>
      List.eq_of_mem_replicate (n := 2) hm
    exact Registry.not_ends_currentValue rfl (hside mode) hspecs rfl Nat.one_pos scope

end Stock

end SigilExpr
