import SigilExpr.Core
import SigilExpr.Proofs.Backends
import SigilExpr.Proofs.Prompt
import SigilExpr.Stock.Values

/-!
# Both modes agree where nothing takes time

A registry is `Twinned` if behind every identifier stands one declaration or one raw handler, for
both modes. In such a registry nothing ever waits, so evaluation side by side is over at once, and
it comes to what evaluation on the spot comes to: the same value or the same error, with the same
entries in the log (`Plan.LaunchesAs`).

Two simulations give this. `Simulation.agreement` relates the plans of the two modes, which come to
the same on the spot; `Simulation.prompt` says that the plan for a clock is over in the turn in
which it starts, as it would be on the spot. The main result is `Builder.launches_as_run`, in terms
of the definitions that a registry was built from.
-/

namespace SigilExpr

/-! ### Launching a prompt plan -/

/-- Whenever the plan is launched it ends at that time, as the other ends on the spot, and makes the
same entries in the log. -/
def Plan.LaunchesAs (p q : Plan) : Prop :=
  ∀ time, (p.launch time).settledAt = time ∧ (p.launch time).verdict = q.run.verdict ∧
    (p.launch time).log = q.run.log.map (time, ·)

theorem Plan.Prompt.launchesAs {p q : Plan} (h : p.Prompt) (hrun : q.run = p.run) :
    p.LaunchesAs q := by
  intro time
  obtain ⟨events, hcourse, hlog⟩ := h time .start
  rw [launch, hcourse, Course.timeline_ends, hrun, ← hlog]
  refine ⟨rfl, rfl, ?_⟩
  -- all events are those of the first turn, at the time of the launch
  have htrace : ((Turn.start.noteAll events).events.map (time, ·)).reverse =
      events.map (time, ·) := by
    simp [Turn.noteAll, Turn.start, List.reverseAux_eq]
  rw [Timeline.log, htrace, List.filterMap_map, List.map_filterMap]
  rfl

/-! ### Registries in which nothing takes time -/

/-- A routine that is made from specs and a handler, or from a handler alone. -/
inductive Routine.Compiled : Routine → Prop where
  | declared (d : ValidDeclaration) (h : ∀ t ∈ d.signature.specs, t.declaresOnce = true) :
    Compiled (.declared d)
  | raw (handler : Handler) : Compiled (.raw handler)

/-- One routine for both modes. -/
def Interpreter.Twinned (interpreter : Interpreter) : Prop :=
  ∃ routine : Routine, routine.Compiled ∧
    ∀ mode, interpreter.side mode = .supported routine

/-- One routine for both modes behind every identifier. -/
def Registry.Twinned (registry : Registry) : Prop :=
  ∀ id interpreter, registry.get? id = some interpreter → interpreter.Twinned

/-- A definition that gives both modes the same routine. -/
def Definition.Twinned : Definition → Prop
  | .declared d => ∀ t ∈ d.signature.specs, t.declaresOnce = true
  | .raw _ => True
  | .pair sync async =>
    ∃ routine : Routine, routine.Compiled ∧ sync = some routine ∧ async = some routine

theorem Definition.Twinned.of_compile {definition : Definition} (h : definition.Twinned)
    {id : String} {interpreter : Interpreter} (hc : definition.compile id = .ok interpreter) :
    interpreter.Twinned := by
  cases definition with
  | declared d =>
    simp only [compile, bind, Except.bind, pure, Except.pure] at hc
    split at hc
    · simp at hc
    · rename_i valid hvalid
      obtain rfl := Except.ok.inj hc
      -- to compile a declaration checks it and leaves it as it is
      have hd : valid.toDeclaration = d := by
        unfold Declaration.compile at hvalid
        split at hvalid
        · exact Except.ok.inj hvalid ▸ rfl
        · simp at hvalid
      refine ⟨.declared valid, .declared valid ?_, fun mode => by cases mode <;> rfl⟩
      rw [hd]
      exact h
  | raw handler =>
    obtain rfl := Except.ok.inj hc
    exact ⟨.raw handler, .raw handler, fun mode => by cases mode <;> rfl⟩
  | pair sync async =>
    obtain ⟨routine, hr, rfl, rfl⟩ := h
    obtain rfl := Except.ok.inj hc
    exact ⟨routine, hr, fun mode => by cases mode <;> rfl⟩

theorem Builder.twinned_of_build {builder : Builder} {registry : Registry}
    (h : builder.build = .ok registry)
    (hd : ∀ entry ∈ builder.definitions, entry.2.Twinned) : registry.Twinned := by
  intro id interpreter hget
  obtain ⟨definition, hm, hc⟩ := Builder.exists_definition_of_build h hget
  exact (hd (id, definition) hm).of_compile hc

namespace Registry.Twinned

variable {registry : Registry} (h : registry.Twinned) (budget : Nat)

include h

/-- The plans of the two modes come to the same on the spot. -/
theorem agreement :
    Simulation.agreement.Evaluators .sync .async (registry.evaluator budget)
      (registry.evaluator budget) := by
  -- questions are asked in one mode only, and there everything is related to itself
  have hsame := Simulation.agreement.interpreters_same (fun _ => ⟨rfl, rfl⟩) .sync registry
  refine Simulation.evaluator hsame (fun id interpreter hget => ?_) budget
  obtain ⟨routine, hr, hside⟩ := h id interpreter hget
  rw [hside, hside]
  refine .supported ?_
  cases hr with
  | declared d hd => exact .declared d fun t ht => Simulation.agreement_resolves (hd t ht)
  | raw handler => exact .raw handler

/-- The plans of a mode are prompt. -/
theorem prompt (mode : Mode) :
    Simulation.prompt.Evaluators mode mode (registry.evaluator budget)
      (registry.evaluator budget) := by
  have hmode : ∀ mode, Simulation.prompt.Interpreters mode mode registry := by
    intro mode id interpreter hget
    obtain ⟨routine, hr, hside⟩ := h id interpreter hget
    rw [hside]
    refine .supported ?_
    cases hr with
    | declared d hd => exact .declared d fun t _ => Simulation.prompt.resolves mode t
    | raw handler => exact .raw handler
  exact Simulation.evaluator (hmode .sync) (hmode mode) budget

end Registry.Twinned

/-! ### Agreement -/

/-- **Both modes agree where nothing takes time.** Let all definitions be declarations, raw handlers
and pairs of twice the same. Then, within any budget, what is launched for a node ends at the time
of the launch, with the value or the error that evaluation on the spot gives, and with the same log.
So it is for nodes whose value is checked, and for the resolving of arguments to any shape. -/
theorem Builder.launches_as_run {builder : Builder} {registry : Registry}
    (hbuild : builder.build = .ok registry)
    (h : ∀ entry ∈ builder.definitions, entry.2.Twinned) (budget : Nat) (scope : Scope) :
    (∀ node, (registry.planWithin budget .async scope node).LaunchesAs
      (registry.planWithin budget .sync scope node)) ∧
    (∀ t node, (registry.planTypedWithin budget t .async scope node).LaunchesAs
      (registry.planTypedWithin budget t .sync scope node)) ∧
    ∀ t, t.declaresOnce = true → ∀ raw,
      (registry.planResolveWithin budget t .async scope raw).LaunchesAs
        (registry.planResolveWithin budget t .sync scope raw) := by
  have htwinned := Builder.twinned_of_build hbuild h
  -- the plan for a clock is over as it would be on the spot, and there it is that of the other mode
  have hagree := htwinned.agreement budget
  have hprompt := htwinned.prompt budget .async
  refine ⟨fun node => ?_, fun t node => ?_, fun t ht raw => ?_⟩
  · exact (hprompt.planWithin scope node).launchesAs (hagree.planWithin scope node)
  · exact (hprompt.planTypedWithin scope t node).launchesAs (hagree.planTypedWithin scope t node)
  · have hp := hprompt.planResolveWithin scope (Simulation.prompt.resolves .async t) raw
    exact hp.launchesAs (hagree.planResolveWithin scope (Simulation.agreement_resolves ht) raw)

/-- The core interpreters with a handler that collects values and one that writes to the log, which
is given for both modes. -/
def Stock.builder : Builder :=
  (Core.builder .production).registerAll
    [("$all", .raw Stock.params), ("$log", .pair (some (.raw Stock.log)) (some (.raw Stock.log)))]

theorem Stock.twinned_builder : ∀ entry ∈ Stock.builder.definitions, entry.2.Twinned := by
  have hentries : Stock.builder.definitions.map Prod.snd =
      [.raw Stock.params, .declared Core.evaluate, .declared Core.literal,
        .pair (some (.raw Stock.log)) (some (.raw Stock.log)), .declared Core.value] := rfl
  have hall : ∀ d ∈ Stock.builder.definitions.map Prod.snd, d.Twinned := by
    rw [hentries]
    simp only [List.forall_mem_cons, Definition.Twinned]
    exact ⟨trivial, by decide, by decide, ⟨_, .raw _, rfl, rfl⟩, by decide, List.forall_mem_nil _⟩
  exact fun entry hm => hall entry.2 (List.mem_map_of_mem hm)

theorem Stock.launches_as_run_log :
    ∃ registry, Stock.builder.build = .ok registry ∧
      ((registry.planWithin 3 .async (.root (.str "v"))
        (.arr [.str "$all", .arr [.str "$log", .str "x"],
          .arr [.str "$log", .str "y"]])).launch 7).log = [(7, .str "x"), (7, .str "y")] := by
  refine ⟨_, rfl, ?_⟩
  have h := ((Builder.launches_as_run rfl Stock.twinned_builder 3 (.root (.str "v"))).1
    (.arr [.str "$all", .arr [.str "$log", .str "x"], .arr [.str "$log", .str "y"]]) 7).2.2
  rw [h]
  rfl

end SigilExpr
