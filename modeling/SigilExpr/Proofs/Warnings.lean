import Mathlib.Data.Multiset.Basic
import SigilExpr.Proofs.Agreement
import SigilExpr.Proofs.Budget

/-!
# Warnings in the two modes

Where nothing takes time both modes come to the same, but they do not go about it in the same order.
On the spot a sibling is called when those before it have values. Side by side all siblings are
called first, and if an argument is called as it is written, what there is to warn about in it is
warned about then: so there are warnings about siblings of a failure that on the spot are never
called.

`Run.Covers` compares the two: what happens on the spot happens side by side as well, at least as
often, and if there is a value nothing else does. It is kept by everything that evaluation does with
parts that are over at once (`Simulation.covered`). The main result is `Builder.warnings_agree`.
-/

namespace SigilExpr

variable {α β : Type}

/-! ### One run in another -/

/-- The runs end alike. All that happens in the other happens in this one, at least as often, and
nothing else does if there is a value. -/
structure Run.Covers (run other : Run α) : Prop where
  verdict : run.verdict = other.verdict
  subperm : other.trace.Subperm run.trace
  perm : ∀ a, other.verdict = .ok a → other.trace.Perm run.trace

namespace Run.Covers

theorem refl (run : Run α) : run.Covers run := ⟨rfl, .refl _, fun _ _ => .refl _⟩

theorem after {run other : Run α} (h : run.Covers other) (events : List Event) :
    (run.after events).Covers (other.after events) where
  verdict := h.verdict
  subperm := (List.subperm_append_left events).2 h.subperm
  perm a ha := (h.perm a ha).append_left events

theorem within {run other : Run α} (h : run.Covers other) (id : String) :
    (run.within id).Covers (other.within id) where
  verdict := congrArg (Except.mapError (Halt.within id)) h.verdict
  subperm := h.subperm
  perm a ha := h.perm a (verdict_within_eq_ok_iff.1 ha)

theorem bind {run other : Run α} {f g : α → Run β} (h : run.Covers other)
    (hnext : ∀ a, other.verdict = .ok a → (f a).Covers (g a)) :
    (run.bind f).Covers (other.bind g) := by
  cases hv : other.verdict with
  | error why =>
    rw [Run.bind, Run.bind, h.verdict, hv]
    refine ⟨rfl, h.subperm, fun _ ha => ?_⟩
    cases ha
  | ok a =>
    obtain ⟨hverdict, hsub, hperm⟩ := hnext a hv
    rw [Run.bind, Run.bind, h.verdict, hv]
    -- up to here there was a value, so nothing else has happened so far
    refine ⟨hverdict, ?_, fun b hb => (h.perm a hv).append (hperm b hb)⟩
    exact ((h.perm a hv).append_right _).subperm.trans ((List.subperm_append_left _).2 hsub)

/-- All siblings are called first, then they go on one after the other. Those after a failure are
called in vain. -/
theorem sequence {runs : List (Run Json)} {calls : List Call}
    (h : List.Forall₂ (fun run call => run.Covers call.body.run) runs calls) :
    ((Run.sequence runs).after (calls.flatMap Call.opening)).Covers (Plan.runAll calls) := by
  induction h with
  | nil => exact .refl _
  | @cons run call runs calls hcall _ ih =>
    rw [List.flatMap_cons]
    cases hv : call.body.run.verdict with
    | error why =>
      rw [sequence_cons_of_error (hcall.verdict.trans hv), Plan.runAll_cons_of_error hv]
      refine ⟨rfl, ?_, fun _ ha => nomatch ha⟩
      show (call.opening ++ call.body.run.trace).Subperm ((call.opening ++ _) ++ run.trace)
      rw [List.append_assoc, List.subperm_append_left]
      exact hcall.subperm.trans (List.sublist_append_right _ _).subperm
    | ok v =>
      rw [sequence_cons_of_ok (hcall.verdict.trans hv), Plan.runAll_cons_of_ok hv]
      have hopenings : ((call.opening ++ call.body.run.trace) ++
            (calls.flatMap Call.opening ++ (Run.sequence runs).trace)).Perm
          ((call.opening ++ calls.flatMap Call.opening) ++
            (run.trace ++ (Run.sequence runs).trace)) := by
        -- what this call comes to trades places with the calls of the others
        have hplaces : (call.body.run.trace ++ calls.flatMap Call.opening).Perm
            (calls.flatMap Call.opening ++ run.trace) :=
          calc (call.body.run.trace ++ calls.flatMap Call.opening).Perm
                (calls.flatMap Call.opening ++ call.body.run.trace) := List.perm_append_comm
            List.Perm _ (calls.flatMap Call.opening ++ run.trace) :=
              (hcall.perm v hv).append_left _
        rw [List.append_assoc, List.append_assoc, List.perm_append_left_iff, ← List.append_assoc,
          ← List.append_assoc]
        exact hplaces.append_right _
      have hverdict : (Run.sequence runs).verdict = (Plan.runAll calls).verdict := ih.verdict
      refine ⟨by simp [Run.after, hverdict], ?_, fun vs hvs => ?_⟩
      · exact ((List.subperm_append_left _).2 ih.subperm).trans hopenings.subperm
      · cases hrest : (Plan.runAll calls).verdict with
        | error why => simp [hrest, Functor.map, Except.map] at hvs
        | ok ws => exact ((ih.perm ws hrest).append_left _).trans hopenings

end Run.Covers

/-! ### Plans that are over at once -/

/-- Whoever waits for the plan gets what it comes to on the spot, in the same turn, and all that
would happen on the spot happens in that turn. -/
def Plan.Covered (p : Plan) : Prop :=
  ∀ now, ∃ run, Course.AtOnce (p.course now) run ∧ run.Covers p.run

namespace Plan

theorem Covered.emitAll {p : Plan} (h : p.Covered) (events : List Event) :
    (Plan.emitAll events p).Covered := by
  intro now
  obtain ⟨run, hrun, hcovers⟩ := h now
  refine ⟨run.after events, fun turn => ?_, ?_⟩
  · rw [course_emitAll]
    exact hrun.after events turn
  · rw [run_emitAll]
    exact hcovers.after events

theorem Covered.bind {p : Plan} {next : Json → Plan} (h : p.Covered)
    (hnext : ∀ v, (next v).Covered) : (p.bind next).Covered := by
  intro now
  obtain ⟨run, hrun, hcovers⟩ := h now
  choose runs hruns hcover using fun v => hnext v now
  refine ⟨run.bind runs, fun turn => ?_, ?_⟩
  · rw [course_bind]
    exact hrun.bind (fun v _ => hruns v) turn
  · rw [run_bind]
    exact hcovers.bind fun v _ => hcover v

theorem Covered.ask {question : Plan} {resume : Except EvalError Json → Plan}
    (h : ∀ answer, (resume answer).Covered) : (Plan.ask question resume).Covered := by
  intro now
  choose runs hruns hcover using fun answer => h answer now
  -- the question is carried out on the spot in either reading
  refine ⟨question.run.answer runs, fun turn => ?_, ?_⟩
  · rw [course_ask]
    split <;> rename_i hv <;> simp only [Run.answer, hv]
    · exact (hruns _).after question.run.trace turn
    · exact (hruns _).after question.run.trace turn
  · rw [run_ask]
    unfold Run.answer
    split
    · exact (hcover _).after question.run.trace
    · exact (hcover _).after question.run.trace
    · exact .refl _

private theorem exists_runs {calls : List Call} (h : ∀ call ∈ calls, call.body.Covered)
    (now : Nat) :
    ∃ runs, List.Forall₂ Course.AtOnce (starts calls now) runs ∧
      List.Forall₂ (fun run call => run.Covers call.body.run) runs calls := by
  induction calls with
  | nil => exact ⟨[], .nil, .nil⟩
  | cons call calls ih =>
    obtain ⟨hcall, hrest⟩ := List.forall_mem_cons.1 h
    obtain ⟨run, hrun, hcovers⟩ := hcall now
    obtain ⟨runs, hruns, hcover⟩ := ih hrest
    rw [starts_cons]
    exact ⟨run :: runs, .cons hrun hruns, .cons hcovers hcover⟩

theorem Covered.join {calls : List Call} {rest : List Json → Plan}
    (hcalls : ∀ call ∈ calls, call.body.Covered)
    (h : ∀ vs, (runAll calls).verdict = .ok vs → (rest vs).Covered) :
    (Plan.join calls rest).Covered := by
  intro now
  obtain ⟨runs, hruns, hcover⟩ := exists_runs hcalls now
  have hgroup := (Course.join_atOnce hruns now).after (calls.flatMap Call.opening)
  have hgroupcovers := Run.Covers.sequence hcover
  have hnext : ∀ vs, ∃ run, (runAll calls).verdict = .ok vs →
      Course.AtOnce ((rest vs).course now) run ∧ run.Covers (rest vs).run := by
    intro vs
    by_cases hvs : (runAll calls).verdict = .ok vs
    · obtain ⟨run, hrun⟩ := h vs hvs now
      exact ⟨run, fun _ => hrun⟩
    · exact ⟨(rest vs).run, fun hv => absurd hv hvs⟩
  choose more hmore using hnext
  refine ⟨((Run.sequence runs).after (calls.flatMap Call.opening)).bind more, fun turn => ?_, ?_⟩
  · rw [course_join]
    -- the group has the values that its members have on the spot
    exact hgroup.bind (fun vs hvs => (hmore vs (hgroupcovers.verdict.symm.trans hvs)).1) turn
  · rw [run_join]
    exact hgroupcovers.bind fun vs hvs => (hmore vs hvs).2

end Plan

/-- The plans that are over at once, each related to itself and to any other. -/
def Simulation.covered : Simulation where
  event _ := True
  plan p _ := p.Covered
  call c _ := c.body.Covered
  written _ _ := False
  done v now := ⟨_, .ends (.ok v), .refl _⟩
  halt why now := ⟨_, .ends (.error why), .refl _⟩
  emit {event p q} _ h := h.emitAll [event]
  ask _ h := Plan.Covered.ask h
  join {cs ds f g} hcs h := by
    refine Plan.Covered.join (fun call hm => ?_) h
    obtain ⟨_, _, hc⟩ := hcs.flip.exists_left_of_mem hm
    exact hc
  bind hp h := Plan.Covered.bind hp h
  ofPlan h := h
  made {c d} h := Plan.Covered.emitAll h c.opening
  within id h now := by
    obtain ⟨run, hrun, hcovers⟩ := h now
    refine ⟨run.within id, fun turn => ?_, ?_⟩
    · rw [Call.body_within, Plan.course_within, hrun turn]
      rfl
    · rw [Call.body_within, Plan.run_within]
      exact hcovers.within id
  breakOff _ now := ⟨_, .ends (.error .exhausted), .refl _⟩
  logged _ := trivial
  action_eq h := Performance.action_eq_of_false h
  perform h := h.elim

instance Simulation.covered_fits (registry : Registry) : covered.Fits registry where
  arrival _ h := h
  invoked _ _ := trivial

theorem Registry.Twinned.covered {registry : Registry} (h : registry.Twinned) (budget : Nat)
    (mode : Mode) (scope : Scope) (node : Json) :
    (registry.planWithin budget mode scope node).Covered := by
  have hmode : ∀ mode, Simulation.covered.Interpreters mode mode registry := by
    intro mode id interpreter hget
    obtain ⟨routine, hr, hside⟩ := h id interpreter hget
    rw [hside]
    refine .supported ?_
    cases hr with
    | declared d hd => exact .declared d fun t _ => Simulation.covered.resolves mode t
    | raw handler => exact .raw handler
  exact (Simulation.evaluator (hmode .sync) (hmode mode) budget).planWithin scope node

/-! ### Warnings -/

theorem Run.Covers.warnings {run other : Run α} (h : run.Covers other) :
    (other.warnings : Multiset String) ≤ run.warnings ∧
      ∀ a, other.verdict = .ok a → (other.warnings : Multiset String) = run.warnings := by
  obtain ⟨part, hperm, hsub⟩ := h.subperm
  refine ⟨Multiset.coe_le.2 ⟨_, hperm.filterMap _, hsub.filterMap _⟩, fun a ha => ?_⟩
  exact Multiset.coe_eq_coe.2 ((h.perm a ha).filterMap _)

/-- **Warnings agree between the modes.** Let all definitions be declarations, raw handlers and
pairs of twice the same, and let a node come to an end on the spot. Then, within any budget that is
no smaller and whenever it is launched, it comes to the same end on a clock, and

* every warning on the spot is given on the clock too, at least as often;
* if there is a value, both modes give the same warnings, each as often. -/
theorem Builder.warnings_agree {builder : Builder} {registry : Registry}
    (hbuild : builder.build = .ok registry)
    (h : ∀ entry ∈ builder.definitions, entry.2.Twinned) {budget larger : Nat}
    (hle : budget ≤ larger) (scope : Scope) (node : Json)
    (hend : (registry.planWithin budget .sync scope node).run.verdict ≠ .error .exhausted)
    (time : Nat) :
    let run := (registry.planWithin budget .sync scope node).run
    let line := (registry.planWithin larger .async scope node).launch time
    line.verdict = run.verdict ∧
      (run.warnings : Multiset String) ≤ line.warnings ∧
      ∀ v, run.verdict = .ok v → (run.warnings : Multiset String) = line.warnings := by
  intro run line
  have htwinned := Builder.twinned_of_build hbuild h
  -- on the spot the plans of both modes come to the same, with more of the budget left or less
  have hrun : run = (registry.planWithin larger .async scope node).run :=
    calc run
      _ = (registry.planWithin larger .sync scope node).run :=
        (registry.planWithin_mono .sync scope node hle).run hend
      _ = (registry.planWithin larger .async scope node).run :=
        (htwinned.agreement larger).planWithin scope node
  obtain ⟨part, hpart, hcovers⟩ := htwinned.covered larger .async scope node time
  have hline : line = ⟨part.trace.map (time, ·), time, part.verdict⟩ := hpart.timeline time
  have hwarnings : line.warnings = part.warnings := by
    rw [hline, Timeline.warnings, Run.warnings, List.filterMap_map]
    rfl
  rw [← hrun] at hcovers
  rw [hwarnings]
  exact ⟨by rw [hline]; exact hcovers.verdict, hcovers.warnings⟩

/-- Two calls that are misspelt, one of them inside another call. -/
theorem Stock.warnings_agree_misspelt :
    ∃ registry, (Stock.builder.withMode .development).build = .ok registry ∧
      (↑["$typo", "$tpyo"] : Multiset String) =
        ((registry.planWithin 4 .async (.root .null)
          (.arr [.str "$all", .arr [.str "$typo"],
            .arr [.str "$all", .arr [.str "$tpyo"]]])).launch 7).warnings := by
  refine ⟨_, rfl, ?_⟩
  have hvalue : ∀ registry, (Stock.builder.withMode .development).build = .ok registry →
      (registry.planWithin 3 .sync (.root .null)
        (.arr [.str "$all", .arr [.str "$typo"],
          .arr [.str "$all", .arr [.str "$tpyo"]]])).run.verdict =
        .ok (.arr [.arr [.str "$typo"], .arr [.arr [.str "$tpyo"]]]) := by
    rintro _ ⟨⟩
    rfl
  have htwinned : ∀ entry ∈ (Stock.builder.withMode .development).definitions,
      entry.2.Twinned := Stock.twinned_builder
  exact (Builder.warnings_agree rfl htwinned (Nat.le_succ 3) (.root .null)
    (.arr [.str "$all", .arr [.str "$typo"], .arr [.str "$all", .arr [.str "$tpyo"]]])
    (by rw [hvalue _ rfl]; simp) 7).2.2 _ (hvalue _ rfl)

end SigilExpr
