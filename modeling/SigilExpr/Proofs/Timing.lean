import SigilExpr.Proofs.Agreement
import SigilExpr.Proofs.Budget
import SigilExpr.Stock.Items

/-!
# Success does not depend on time

A registry is `Paced` if what stands behind an identifier does the same in both modes, but for how
long it takes and for what it writes to the log at the moment of the call. In such a registry a node
has a value on a clock if and only if it has that value on the spot, however long anything takes and
in whatever order siblings end (`Builder.launch_succeeds_iff`).

For a single plan this is `Plan.verdict_launch_eq_ok_iff`. The plans of the two modes end alike on
the spot, which is the relation `Simulation.verdicts`: it forgets about the log and about everything
that waits. Since a larger budget changes nothing, it does not matter in which budgets the two sides
come to an end.
-/

namespace SigilExpr

/-! ### Plans that end alike -/

theorem Run.verdict_bind_congr {α β : Type} {r s : Run α} {f g : α → Run β}
    (h : r.verdict = s.verdict)
    (hnext : ∀ a, r.verdict = .ok a → (f a).verdict = (g a).verdict) :
    (r.bind f).verdict = (s.bind g).verdict := by
  unfold bind
  rw [← h]
  split
  · rename_i a ha
    exact hnext a ha
  · rfl

theorem Plan.verdict_runAll_congr {cs ds : List Call}
    (h : List.Forall₂ (fun c d => c.body.run.verdict = d.body.run.verdict) cs ds) :
    (runAll cs).verdict = (runAll ds).verdict := by
  induction h with
  | nil => rfl
  | cons hcd _ ih =>
    rw [runAll, runAll]
    refine Run.verdict_bind_congr hcd fun v _ => ?_
    rw [Run.map, Run.map, ih]

/-- Plans are related that end alike on the spot, whatever happens on the way. -/
def Simulation.verdicts : Simulation where
  event _ := True
  plan p q := p.run.verdict = q.run.verdict
  call c d := c.body.run.verdict = d.body.run.verdict
  written a b := a.action = b.action
  done _ := rfl
  halt _ := rfl
  emit _ h := by rw [Plan.run_emit, Plan.run_emit]; exact h
  ask {p q f g} hp h := by
    rw [Plan.run_ask, Plan.run_ask, Run.answer, Run.answer, ← hp]
    split
    · exact h _
    · exact h _
    · rfl
  join hcs h := by
    rw [Plan.run_join, Plan.run_join]
    exact Run.verdict_bind_congr (Plan.verdict_runAll_congr hcs) h
  bind hp h := by
    rw [Plan.run_bind, Plan.run_bind]
    exact Run.verdict_bind_congr hp fun v _ => h v
  ofPlan h := h
  made h := by rw [Call.plan, Call.plan, Plan.run_emitAll, Plan.run_emitAll]; exact h
  within id h := by
    rw [Call.body_within, Call.body_within, Plan.run_within, Plan.run_within]
    exact congrArg (Except.mapError (Halt.within id)) h
  breakOff _ := rfl
  logged _ := trivial
  action_eq h := h
  perform _ h := h

instance Simulation.verdicts_fits (registry : Registry) : verdicts.Fits registry where
  arrival _ h := h
  invoked _ _ := trivial

/-- Related ways to evaluate nodes resolve an argument alike in different modes. -/
theorem Simulation.verdicts_resolves {t : TypeSpec} (h : t.declaresOnce = true) :
    verdicts.Resolves .sync .async t := by
  intro e₁ e₂ he raw
  -- first from mode to mode with the one evaluator, then from evaluator to evaluator in one mode
  have hmodes : (t.resolve .sync e₁ raw).Agrees (t.resolve .async e₁ raw) :=
    TypeSpec.agrees_resolve t h raw
  exact (congrArg Run.verdict hmodes.2).trans (verdicts.resolves .async t e₁ e₂ he raw)

/-! ### Registries in which only time makes a difference -/

/-- Routines for the two modes that do the same in the end. -/
inductive Routine.Paced : Routine → Routine → Prop where
  | compiled {routine : Routine} (h : routine.Compiled) : Paced routine routine
  | written {f g : List Json → Context → Performance}
    (h : ∀ args ctx, (f args ctx).action = (g args ctx).action) : Paced (.written f) (.written g)

/-- Routines for both modes that do the same in the end. -/
def Interpreter.Paced (interpreter : Interpreter) : Prop :=
  ∃ sync async : Routine, sync.Paced async ∧ interpreter.sync = .supported sync ∧
    interpreter.async = .supported async

/-- A definition whose routines for the two modes do the same in the end. -/
def Definition.Paced : Definition → Prop
  | .pair sync async =>
    ∃ r s : Routine, r.Paced s ∧ sync = some r ∧ async = some s
  | definition => definition.Twinned

/-- Routines that do the same in the end behind every identifier. -/
def Registry.Paced (registry : Registry) : Prop :=
  ∀ id interpreter, registry.get? id = some interpreter → interpreter.Paced

theorem Interpreter.Twinned.paced {interpreter : Interpreter} (h : interpreter.Twinned) :
    interpreter.Paced := by
  obtain ⟨routine, hr, hside⟩ := h
  exact ⟨routine, routine, .compiled hr, hside .sync, hside .async⟩

theorem Definition.Paced.of_compile {definition : Definition} (h : definition.Paced)
    {id : String} {interpreter : Interpreter} (hc : definition.compile id = .ok interpreter) :
    interpreter.Paced := by
  cases definition with
  | declared d =>
    have htwinned : (Definition.declared d).Twinned := h
    exact (htwinned.of_compile hc).paced
  | raw handler =>
    have htwinned : (Definition.raw handler).Twinned := h
    exact (htwinned.of_compile hc).paced
  | pair sync async =>
    obtain ⟨r, s, hrs, rfl, rfl⟩ := h
    obtain rfl := Except.ok.inj hc
    exact ⟨r, s, hrs, rfl, rfl⟩

theorem Builder.paced_of_build {builder : Builder} {registry : Registry}
    (h : builder.build = .ok registry)
    (hd : ∀ entry ∈ builder.definitions, entry.2.Paced) : registry.Paced := by
  intro id interpreter hget
  obtain ⟨definition, hm, hc⟩ := Builder.exists_definition_of_build h hget
  exact (hd (id, definition) hm).of_compile hc

namespace Registry.Paced

variable {registry : Registry} (h : registry.Paced)

include h

/-- The plans of the two modes end alike on the spot. -/
theorem verdicts (budget : Nat) :
    Simulation.verdicts.Evaluators .sync .async (registry.evaluator budget)
      (registry.evaluator budget) := by
  have hsame := Simulation.verdicts.interpreters_same (fun _ => rfl) .sync registry
  refine Simulation.evaluator hsame (fun id interpreter hget => ?_) budget
  obtain ⟨r, s, hrs, hsync, hasync⟩ := h id interpreter hget
  rw [Interpreter.side, Interpreter.side, hsync, hasync]
  refine .supported ?_
  cases hrs with
  | written hw => exact .written hw
  | compiled hr =>
    cases hr with
    | declared d hd => exact .declared d fun t ht => Simulation.verdicts_resolves (hd t ht)
    | raw handler => exact .raw handler

/-- Within a budget, a node has a value on a clock if and only if it has it on the spot. -/
theorem verdict_launch_iff (budget : Nat) (scope : Scope) (node : Json) (time : Nat) (v : Json) :
    ((registry.planWithin budget .async scope node).launch time).verdict = .ok v ↔
      (registry.planWithin budget .sync scope node).run.verdict = .ok v := by
  -- a plan has the same value on a clock and on the spot; what is left are two plans on the spot
  rw [Plan.verdict_launch_eq_ok_iff]
  have hsame := (h.verdicts budget).planWithin scope node
  exact ⟨fun hv => Eq.trans hsame hv, fun hv => Eq.trans (Eq.symm hsame) hv⟩

end Registry.Paced

/-! ### Success and failure -/

/-- What comes to an end fails if it has no value. -/
theorem Halt.failed_iff {verdict : Except Halt Json} (h : verdict ≠ .error .exhausted) :
    (∃ e, verdict = .error (.failed e)) ↔ ∀ v, verdict ≠ .ok v := by
  match verdict with
  | .ok v => simp
  | .error (.failed e) => simp
  | .error .exhausted => exact absurd rfl h

/-- **Success does not depend on time.** Let all definitions be declarations, raw handlers and pairs
whose two sides do the same in the end, however long it takes them. Then

* within any budget and from any time on, a node has a value on a clock if and only if it has that
  value on the spot;
* so it has the value within some budget in the one mode if and only if it has in the other;
* and where both modes come to an end, within budgets of their own, one fails if and only if the
  other does. -/
theorem Builder.launch_succeeds_iff {builder : Builder} {registry : Registry}
    (hbuild : builder.build = .ok registry)
    (h : ∀ entry ∈ builder.definitions, entry.2.Paced) (scope : Scope) (node : Json) (time : Nat) :
    (∀ budget v,
      ((registry.planWithin budget .async scope node).launch time).verdict = .ok v ↔
        (registry.planWithin budget .sync scope node).run.verdict = .ok v) ∧
    (∀ v,
      (∃ budget, ((registry.planWithin budget .async scope node).launch time).verdict = .ok v) ↔
        ∃ budget, (registry.planWithin budget .sync scope node).run.verdict = .ok v) ∧
    ∀ b c,
      (registry.planWithin b .sync scope node).run.verdict ≠ .error .exhausted →
      ((registry.planWithin c .async scope node).launch time).verdict ≠ .error .exhausted →
      ((∃ e, (registry.planWithin b .sync scope node).run.verdict = .error (.failed e)) ↔
        ∃ e, ((registry.planWithin c .async scope node).launch time).verdict =
          .error (.failed e)) := by
  -- the first part; the second is the same for some budget, the third its negation
  have hiff := fun budget v =>
    (Builder.paced_of_build hbuild h).verdict_launch_iff budget scope node time v
  refine ⟨hiff, fun v => exists_congr fun budget => hiff budget v, fun b c hb hc => ?_⟩
  -- both come to the same within a budget that is large enough for either
  have hrun := (registry.planWithin_mono .sync scope node (Nat.le_max_left b c)).run hb
  have hlaunch := (registry.planWithin_mono .async scope node (Nat.le_max_right b c)).launch hc
  rw [Halt.failed_iff hb, Halt.failed_iff hc, hrun, hlaunch]
  exact forall_congr' fun v => not_congr (hiff (max b c) v).symm

/-- The handlers of `Stock.builder` with one that takes its time. -/
def Stock.slowBuilder : Builder :=
  Stock.builder.register "$then"
    (.pair (some (.written Stock.delayEvaluated)) (some (.written Stock.delayEvaluated)))

theorem Stock.paced_slowBuilder : ∀ entry ∈ Stock.slowBuilder.definitions, entry.2.Paced := by
  have hentries : Stock.slowBuilder.definitions.map Prod.snd =
      [.raw Stock.params, .declared Core.evaluate, .declared Core.literal,
        .pair (some (.raw Stock.log)) (some (.raw Stock.log)),
        .pair (some (.written Stock.delayEvaluated)) (some (.written Stock.delayEvaluated)),
        .declared Core.value] := rfl
  have hall : ∀ d ∈ Stock.slowBuilder.definitions.map Prod.snd, d.Paced := by
    rw [hentries]
    simp only [List.forall_mem_cons, Definition.Paced, Definition.Twinned]
    exact ⟨trivial, by decide, by decide, ⟨_, _, .compiled (.raw _), rfl, rfl⟩,
      ⟨_, _, .written fun _ _ => rfl, rfl, rfl⟩, by decide, List.forall_mem_nil _⟩
  exact fun entry hm => hall entry.2 (List.mem_map_of_mem hm)

/-- The first sibling ends last, and its value comes first all the same. -/
theorem Stock.launch_succeeds_slow :
    ∃ registry, Stock.slowBuilder.build = .ok registry ∧
      ((registry.planWithin 3 .async (.root .null)
        (.arr [.str "$all", .arr [.str "$then", .num (.whole 5), .str "x"],
          .arr [.str "$then", .num (.whole 2), .str "y"]])).launch 0).verdict =
        .ok (.arr [.str "x", .str "y"]) := by
  refine ⟨_, rfl, ?_⟩
  have h := Builder.launch_succeeds_iff rfl Stock.paced_slowBuilder (.root .null)
    (.arr [.str "$all", .arr [.str "$then", .num (.whole 5), .str "x"],
      .arr [.str "$then", .num (.whole 2), .str "y"]]) 0
  exact (h.1 3 (.arr [.str "x", .str "y"])).2 rfl

end SigilExpr
