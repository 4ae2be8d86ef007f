import SigilExpr.Proofs.Tracking

/-!
# Budgets make no difference in the end

An evaluation that does not use up its budget comes to the same within every larger one, on the spot
and on a clock: `Registry.planWithin_mono`, with `Plan.Below.run` and `Plan.Below.launch`. So what a
node evaluates to does not depend on the budget, as soon as there is a budget in which it evaluates
to anything at all.

`Plan.Below` is the relation between the plans for two budgets. It is kept by everything that
evaluation does (`Simulation.approximation`).
-/

namespace SigilExpr

/-- The second plan comes to the same as the first, unless the first breaks off. -/
def Plan.Below (p q : Plan) : Prop := p.Tracks (fun _ => true) True q

namespace Plan.Below

variable {p q : Plan}

theorem run (h : p.Below q) (hend : p.run.verdict ≠ .error .exhausted) : p.run = q.run := by
  have hrun := Plan.Tracks.run h fun _ => hend
  rwa [Run.filter_all, Run.filter_all] at hrun

/-- On a clock, too, the second plan comes to the same unless the first breaks off. -/
theorem launch (h : p.Below q) {time : Nat} (hend : (p.launch time).verdict ≠ .error .exhausted) :
    p.launch time = q.launch time := by
  have hlaunch := Plan.Tracks.launch h fun _ => hend
  rwa [Timeline.filter_all, Timeline.filter_all] at hlaunch

end Plan.Below

/-- Plans are related of which the first may break off where the second goes on. -/
def Simulation.approximation : Simulation := tracking (fun _ => true) True

instance Simulation.approximation_fits (registry : Registry) : approximation.Fits registry :=
  tracking_fits (fun _ => true) True registry

namespace Registry

variable {n m : Nat}

private theorem spent_below (registry : Registry) (m : Nat) (mode : Mode) (scope : Scope)
    (node : Json) :
    Simulation.approximation.call (registry.spent mode scope node)
      (registry.evaluator m mode scope node) := by
  have hopening : (registry.spent mode scope node).opening =
      (registry.evaluator m mode scope node).opening := by
    cases m with
    | zero => rfl
    | succ m => exact registry.opening_evaluateWith _ _ mode scope node
  exact ⟨by rw [hopening], Plan.exhausted_tracks trivial _⟩

/-- A larger budget is as good as a smaller one. -/
theorem evaluators_mono (registry : Registry) (mode : Mode) (h : n ≤ m) :
    Simulation.approximation.Evaluators mode mode (registry.evaluator n)
      (registry.evaluator m) := by
  have hsame := fun mode => Simulation.approximation.interpreters_same (fun _ => rfl) mode registry
  -- the induction is on the smaller budget; where it is spent the call breaks off
  have hcalls : ∀ mode scope node, Simulation.approximation.call
      (registry.evaluator n mode scope node) (registry.evaluator m mode scope node) := by
    induction n generalizing m with
    | zero => exact registry.spent_below m
    | succ n ih =>
      obtain ⟨m, rfl⟩ : ∃ k, m = k + 1 := ⟨m - 1, by omega⟩
      have ih := ih (Nat.le_of_succ_le_succ h)
      intro mode scope node
      have hprior : Simulation.approximation.Evaluators mode mode (registry.evaluator n)
          (registry.evaluator m) :=
        ⟨ih mode, fun scope node => Simulation.approximation.made (ih .sync scope node)⟩
      exact hprior.evaluateWith (.within n) (hsame mode) scope node
  exact ⟨hcalls mode, fun scope node => Simulation.approximation.made (hcalls .sync scope node)⟩

/-- **A larger budget changes nothing.** What a node comes to within some budget, on the spot or on
a clock, it comes to within every larger one. -/
theorem planWithin_mono (registry : Registry) (mode : Mode) (scope : Scope) (node : Json)
    (h : n ≤ m) :
    (registry.planWithin n mode scope node).Below (registry.planWithin m mode scope node) :=
  (registry.evaluators_mono mode h).planWithin scope node

end Registry

end SigilExpr
