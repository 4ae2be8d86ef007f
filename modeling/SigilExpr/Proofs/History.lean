import SigilExpr.Plan.Run
import SigilExpr.Scope

/-!
# Histories of evaluations

A trace says what happens in a run, and not what each thing is part of. A `History` says that too:
the evaluation of a node is a list of steps, and each of them is either something that the
evaluation does itself, or the evaluation of another node, with a history of its own. To forget
which evaluation does what gives the trace back (`History.trace`). `History.evaluations` lists the
evaluations in the order in which they come to an end: depth first, and from left to right.

In an orderly history every evaluation ends as its steps say (`History.Ends`): if one of the
evaluations it leads to ends without a value, that is its last step, and it ends in the same way.
What follows for the history as a whole is `History.exists_first`.

`Run.Told` says that a run consists of steps of a certain kind. It is kept by everything that runs
are put together from.
-/

namespace SigilExpr

mutual

/-- The evaluation of a node on the spot, and what it consists of. -/
inductive History where
  | of (budget : Nat) (scope : Scope) (node : Json) (steps : List History.Step)
    (verdict : Except Halt Json)

/-- A step of an evaluation. -/
inductive History.Step where
  /-- Something happens. -/
  | event (event : Event)
  /-- Another node is evaluated. -/
  | nested (inner : History)

end

namespace History

/-- The budget of nested evaluations. -/
def budget : History → Nat
  | of budget _ _ _ _ => budget

/-- Where the node is evaluated. -/
def scope : History → Scope
  | of _ scope _ _ _ => scope

/-- The node that is evaluated. -/
def node : History → Json
  | of _ _ node _ _ => node

/-- What the evaluation consists of. -/
def steps : History → List Step
  | of _ _ _ steps _ => steps

/-- How the evaluation ends. -/
def verdict : History → Except Halt Json
  | of _ _ _ _ verdict => verdict

/-- The evaluation comes to a value. -/
def Succeeds (h : History) : Prop := ∃ v, h.verdict = .ok v

mutual

/-- What happens in an evaluation. -/
def trace : History → List Event
  | of _ _ _ steps _ => traceOf steps

/-- What happens in the course of steps. -/
def traceOf : List Step → List Event
  | [] => []
  | .event event :: steps => event :: traceOf steps
  | .nested inner :: steps => inner.trace ++ traceOf steps

end

mutual

/-- An evaluation with all those it leads to, in the order in which they come to an end. -/
def evaluations : History → List History
  | of budget scope node steps verdict =>
    evaluationsOf steps ++ [of budget scope node steps verdict]

/-- The evaluations among steps, in the order in which they come to an end. -/
def evaluationsOf : List Step → List History
  | [] => []
  | .event _ :: steps => evaluationsOf steps
  | .nested inner :: steps => inner.evaluations ++ evaluationsOf steps

end

/-- **Induction.** What holds of an evaluation if it holds of those among its steps holds of every
evaluation. -/
@[elab_as_elim, induction_eliminator]
theorem inductionOn {motive : History → Prop}
    (of : ∀ h : History, (∀ g, .nested g ∈ h.steps → motive g) → motive h) (h : History) :
    motive h :=
  @History.rec motive (fun step => ∀ g, step = .nested g → motive g)
    (fun steps => ∀ g, .nested g ∈ steps → motive g)
    (fun budget scope node steps verdict hsteps => of ⟨budget, scope, node, steps, verdict⟩ hsteps)
    (fun _ _ h => nomatch h) (fun _ h _ he => Step.nested.inj he ▸ h) (fun _ h => nomatch h)
    (fun _ _ head tail g hm => (List.mem_cons.1 hm).elim (fun he => head g he.symm) (tail g)) h

theorem trace_eq (h : History) : h.trace = traceOf h.steps := by
  cases h
  rfl

theorem evaluations_eq (h : History) : h.evaluations = evaluationsOf h.steps ++ [h] := by
  cases h
  rfl

@[simp] theorem traceOf_append (steps more : List Step) :
    traceOf (steps ++ more) = traceOf steps ++ traceOf more := by
  induction steps with
  | nil => rfl
  | cons step steps ih => cases step <;> simp [traceOf, ih]

@[simp] theorem evaluationsOf_append (steps more : List Step) :
    evaluationsOf (steps ++ more) = evaluationsOf steps ++ evaluationsOf more := by
  induction steps with
  | nil => rfl
  | cons step steps ih => cases step <;> simp [evaluationsOf, ih]

theorem traceOf_map_event (events : List Event) : traceOf (events.map .event) = events := by
  induction events with
  | nil => rfl
  | cons event events ih => simp [traceOf, ih]

@[simp] theorem evaluationsOf_nested (g : History) : evaluationsOf [.nested g] = g.evaluations := by
  simp [evaluationsOf]

theorem mem_evaluationsOf {steps : List Step} {g : History} :
    g ∈ evaluationsOf steps ↔ ∃ inner, .nested inner ∈ steps ∧ g ∈ inner.evaluations := by
  induction steps with
  | nil => simp [evaluationsOf]
  | cons step steps ih => cases step <;> simp [evaluationsOf, ih, or_and_right, exists_or]

/-- An evaluation in a history is the one that the history is of, or one in the history of a
step. -/
theorem mem_evaluations {h g : History} :
    g ∈ h.evaluations ↔ (∃ inner, .nested inner ∈ h.steps ∧ g ∈ inner.evaluations) ∨ g = h := by
  rw [evaluations_eq, List.mem_append, mem_evaluationsOf, List.mem_singleton]

theorem self_mem_evaluations (h : History) : h ∈ h.evaluations := mem_evaluations.2 (.inr rfl)

/-- Whatever an evaluation in a history consists of is in the history. -/
theorem mem_evaluations_of_nested {h g inner : History} (hg : g ∈ h.evaluations)
    (hinner : .nested inner ∈ g.steps) : inner ∈ h.evaluations := by
  induction h with
  | of h ih =>
    -- either it is part of a step, and so are its own steps, or it is the whole
    rcases mem_evaluations.1 hg with ⟨k, hk, hg⟩ | rfl
    · exact mem_evaluations.2 (.inl ⟨k, hk, ih k hk hg⟩)
    · exact mem_evaluations.2 (.inl ⟨inner, hinner, inner.self_mem_evaluations⟩)

/-- What is true of an evaluation and of all that its steps lead to is true of all its
evaluations. -/
theorem forall_evaluations {P : History → Prop} {h : History} (hself : P h)
    (hsteps : ∀ g, .nested g ∈ h.steps → ∀ k ∈ g.evaluations, P k) : ∀ k ∈ h.evaluations, P k := by
  intro k hk
  rcases mem_evaluations.1 hk with ⟨g, hg, hk⟩ | rfl
  · exact hsteps g hg k hk
  · exact hself

/-! ### How evaluations end -/

/-- All evaluations among the steps come to values. -/
def AllSucceed (steps : List Step) : Prop := ∀ g, .nested g ∈ steps → g.Succeeds

/-- **The end of steps.** They come to a value if all evaluations among them do. If they end without
one, either that is a fault of their own and all evaluations among them come to values, or the last
step is the first evaluation that does not, and they end in the same way. -/
inductive Ends {α : Type} (fault : Halt → Prop) : List Step → Except Halt α → Prop where
  | value {steps} {a : α} (h : AllSucceed steps) : Ends fault steps (.ok a)
  | fault {steps why} (h : AllSucceed steps) (hfault : fault why) : Ends fault steps (.error why)
  | passed {steps g why} (h : AllSucceed steps) (hg : g.verdict = .error why) :
    Ends fault (steps ++ [.nested g]) (.error why)

theorem allSucceed_append {steps more : List Step} :
    AllSucceed (steps ++ more) ↔ AllSucceed steps ∧ AllSucceed more := by
  simp [AllSucceed, or_imp, forall_and]

theorem allSucceed_map_event (events : List Event) : AllSucceed (events.map .event) := by
  simp [AllSucceed]

namespace Ends

variable {α β : Type} {fault fault' : Halt → Prop} {steps more : List Step}

theorem allSucceed {a : α} (h : Ends fault steps (.ok a)) : AllSucceed steps := by
  cases h with
  | value h => exact h

/-- Evaluations that come to values make no difference when they come first. -/
theorem after (hsteps : AllSucceed steps) {verdict : Except Halt α} (h : Ends fault more verdict) :
    Ends fault (steps ++ more) verdict := by
  cases h with
  | value h => exact .value (allSucceed_append.2 ⟨hsteps, h⟩)
  | fault h hfault => exact .fault (allSucceed_append.2 ⟨hsteps, h⟩) hfault
  | passed h hg =>
    rw [← List.append_assoc]
    exact .passed (allSucceed_append.2 ⟨hsteps, h⟩) hg

/-- What steps end in is what counts, not what they would come to otherwise. -/
theorem mono {why : Halt} (h : Ends fault steps (.error why : Except Halt α))
    (hfault : fault why → fault' why) : Ends fault' steps (.error why : Except Halt β) := by
  cases h with
  | fault h hf => exact .fault h (hfault hf)
  | passed h hg => exact .passed h hg

/-- **On the way out.** If errors are changed there, but none of those that evaluations among the
steps end with, then only faults change. -/
theorem mapError {f : Halt → Halt} {verdict : Except Halt α} (h : Ends fault steps verdict)
    (hf : ∀ g why, .nested g ∈ steps → g.verdict = .error why → f why = why) :
    Ends (fun why => ∃ raised, fault raised ∧ why = f raised) steps (verdict.mapError f) := by
  cases h with
  | value h => exact .value h
  | fault h hfault => exact .fault h ⟨_, hfault, rfl⟩
  | @passed steps g why h hg =>
    have hsame : f why = why := hf g why (by simp) hg
    have hends : Ends (fun why => ∃ raised, fault raised ∧ why = f raised) (steps ++ [.nested g])
        (.error why : Except Halt α) := .passed h hg
    rw [← hsame] at hends
    exact hends

end Ends

variable {fault : History → Halt → Prop}

/-- In an orderly history of an evaluation that comes to a value all evaluations do. -/
theorem all_succeed {h : History} (hends : ∀ g ∈ h.evaluations, Ends (fault g) g.steps g.verdict)
    (hvalue : h.Succeeds) : ∀ g ∈ h.evaluations, g.Succeeds := by
  induction h with
  | of h ih =>
    obtain ⟨v, hv⟩ := hvalue
    refine forall_evaluations ⟨v, hv⟩ fun g hg => ?_
    -- the evaluation itself says so of its own steps, and the induction of what they consist of
    have hself := hends h h.self_mem_evaluations
    rw [hv] at hself
    exact ih g hg (fun k hk => hends k (mem_evaluations.2 (.inl ⟨g, hg, hk⟩)))
      (hself.allSucceed g hg)

/-- **The first evaluation that does not come to a value.** In an orderly history of an evaluation
that ends without a value, take the first evaluation that does so. It has a fault of its own. All
evaluations before it come to values. From it on only those go on that it is part of, one after the
other, and all of them end as it does. -/
theorem exists_first {h : History}
    (hends : ∀ g ∈ h.evaluations, Ends (fault g) g.steps g.verdict) {why : Halt}
    (hwhy : h.verdict = .error why) :
    ∃ front first back, h.evaluations = front ++ first :: back ∧ (∀ g ∈ front, g.Succeeds) ∧
      fault first why ∧ ∀ g ∈ first :: back, g.verdict = .error why ∧ first ∈ g.evaluations := by
  induction h with
  | of h ih =>
    have hpart : ∀ {g k}, .nested g ∈ h.steps → k ∈ g.evaluations → k ∈ h.evaluations :=
      fun hg hk => mem_evaluations.2 (.inl ⟨_, hg, hk⟩)
    -- what comes before the last step comes to values, all the way down
    have hbefore : ∀ {steps}, (∀ g, .nested g ∈ steps → .nested g ∈ h.steps) → AllSucceed steps →
        ∀ k ∈ evaluationsOf steps, k.Succeeds := by
      intro steps hsub hall k hk
      obtain ⟨g, hg, hk⟩ := mem_evaluationsOf.1 hk
      exact all_succeed (fun k hk => hends k (hpart (hsub g hg) hk)) (hall g hg) k hk
    have hself := hends h h.self_mem_evaluations
    generalize hsteps : h.steps = steps at hself
    rw [hwhy] at hself
    cases hself with
    | fault hall hfault =>
      -- the evaluation is the first to fail, and comes last of all
      refine ⟨evaluationsOf steps, h, [], by rw [evaluations_eq, hsteps],
        hbefore (fun g hg => hsteps ▸ hg) hall, hfault, ?_⟩
      simpa using ⟨hwhy, h.self_mem_evaluations⟩
    | @passed steps g _ hall hg =>
      -- the first to fail is that of the last step, and this evaluation comes after it
      have hm : .nested g ∈ h.steps := by simp [hsteps]
      obtain ⟨front, first, back, hsplit, hfront, hfault, hback⟩ :=
        ih g hm (fun k hk => hends k (hpart hm hk)) hg
      have hfirst : first ∈ h.evaluations := hpart hm (by simp [hsplit])
      refine ⟨evaluationsOf steps ++ front, first, back ++ [h], ?_, ?_, hfault, ?_⟩
      · calc h.evaluations
          _ = evaluationsOf steps ++ g.evaluations ++ [h] := by
            rw [evaluations_eq, hsteps, evaluationsOf_append, evaluationsOf_nested]
          _ = (evaluationsOf steps ++ front) ++ first :: (back ++ [h]) := by simp [hsplit]
      · rintro k hk
        rcases List.mem_append.1 hk with hk | hk
        · exact hbefore (fun g hg => by simp [hsteps, hg]) hall k hk
        · exact hfront k hk
      · rintro k hk
        rw [← List.cons_append, List.mem_append, List.mem_singleton] at hk
        rcases hk with hk | rfl
        · exact hback k hk
        · exact ⟨hwhy, hfirst⟩

end History

/-! ### Runs that consist of steps -/

open History

/-- The run consists of these steps: of evaluations and events of certain kinds, which end as the
run does. -/
structure Run.ToldBy {α : Type} (inner : History → Prop) (own : Event → Prop) (fault : Halt → Prop)
    (steps : List History.Step) (run : Run α) : Prop where
  trace : run.trace = traceOf steps
  nested : ∀ g, .nested g ∈ steps → inner g
  events : ∀ event, .event event ∈ steps → own event
  ends : Ends fault steps run.verdict

/-- The run is that of an evaluation of a certain kind. -/
def Run.Recorded (inner : History → Prop) (run : Run Json) : Prop :=
  ∃ g, inner g ∧ run = ⟨g.trace, g.verdict⟩

/-- The run consists of steps: of evaluations and events of certain kinds. -/
def Run.Told {α : Type} (inner : History → Prop) (own : Event → Prop) (fault : Halt → Prop)
    (run : Run α) : Prop :=
  ∃ steps, run.ToldBy inner own fault steps

namespace Run

variable {α β : Type} {inner : History → Prop} {own : Event → Prop} {fault fault' : Halt → Prop}
  {run : Run α}

theorem told_done (a : α) : (done a).Told inner own fault :=
  ⟨[], rfl, fun _ h => (nomatch h), fun _ h => (nomatch h), .value fun _ h => nomatch h⟩

theorem told_halt {why : Halt} (h : fault why) :
    (⟨[], .error why⟩ : Run α).Told inner own fault :=
  ⟨[], rfl, fun _ h => (nomatch h), fun _ h => (nomatch h), .fault (fun _ h => nomatch h) h⟩

/-- The run of an evaluation is one step. -/
theorem Recorded.told {run : Run Json} (h : run.Recorded inner) : run.Told inner own fault := by
  obtain ⟨g, hg, rfl⟩ := h
  refine ⟨[.nested g], by simp [traceOf], by simpa using hg, by simp, ?_⟩
  -- if it fails, it is the last step, with none before it
  have hnone : AllSucceed [] := fun _ h => nomatch h
  show Ends fault ([] ++ [.nested g]) g.verdict
  cases hv : g.verdict with
  | ok v =>
    refine .value fun k hk => ?_
    obtain rfl : k = g := by simpa using hk
    exact ⟨v, hv⟩
  | error why => exact .passed hnone hv

namespace ToldBy

variable {steps : List History.Step}

theorem after (h : run.ToldBy inner own fault steps) {events : List Event}
    (he : ∀ event ∈ events, own event) :
    (run.after events).ToldBy inner own fault (events.map .event ++ steps) where
  trace := by simp [Run.after, traceOf_map_event, h.trace]
  nested g hg := h.nested g (by simpa using hg)
  events event hm := by
    rcases List.mem_append.1 hm with hm | hm
    · exact he event (by simpa using hm)
    · exact h.events event hm
  ends := .after (allSucceed_map_event events) h.ends

end ToldBy

namespace Told

theorem after (h : run.Told inner own fault) {events : List Event}
    (he : ∀ event ∈ events, own event) : (run.after events).Told inner own fault := by
  obtain ⟨steps, h⟩ := h
  exact ⟨_, h.after he⟩

/-- A fault is a fault of the run only if the run ends in it. -/
theorem mono (h : run.Told inner own fault)
    (hfault : ∀ why, run.verdict = .error why → fault why → fault' why) :
    run.Told inner own fault' := by
  obtain ⟨steps, h⟩ := h
  refine ⟨steps, h.trace, h.nested, h.events, ?_⟩
  have hends := h.ends
  cases hv : run.verdict with
  | ok a =>
    rw [hv] at hends
    exact .value hends.allSucceed
  | error why =>
    rw [hv] at hends
    exact hends.mono (hfault why hv)

/-- What a run goes on with adds its own steps. -/
theorem bind (h : run.Told inner own fault) {next : α → Run β}
    (hnext : ∀ a, run.verdict = .ok a → (next a).Told inner own fault) :
    (run.bind next).Told inner own fault := by
  obtain ⟨steps, h⟩ := h
  have hends := h.ends
  unfold Run.bind
  split
  · rename_i a ha
    -- with a value all steps so far come to values, so those that follow decide how it ends
    obtain ⟨more, hmore⟩ := hnext a ha
    rw [ha] at hends
    refine ⟨steps ++ more, by simp [Run.after, h.trace, hmore.trace], fun g hg => ?_,
      fun event hm => ?_, .after hends.allSucceed hmore.ends⟩
    · exact (List.mem_append.1 hg).elim (h.nested g) (hmore.nested g)
    · exact (List.mem_append.1 hm).elim (h.events event) (hmore.events event)
  · rename_i why hwhy
    rw [hwhy] at hends
    exact ⟨steps, h.trace, h.nested, h.events, hends.mono id⟩

theorem map (h : run.Told inner own fault) (f : α → β) : (run.map f).Told inner own fault := by
  obtain ⟨steps, h⟩ := h
  refine ⟨steps, h.trace, h.nested, h.events, ?_⟩
  have hends := h.ends
  simp only [Run.map]
  cases hv : run.verdict with
  | ok a =>
    rw [hv] at hends
    exact .value hends.allSucceed
  | error why =>
    rw [hv] at hends
    exact hends.mono id

end Told

end Run

/-- Calls consist of steps if each of them does. -/
theorem Plan.runAll_told {inner : History → Prop} {own : Event → Prop} {fault : Halt → Prop}
    {calls : List Call} (h : ∀ call ∈ calls, call.plan.run.Told inner own fault) :
    (runAll calls).Told inner own fault := by
  induction calls with
  | nil => exact Run.told_done []
  | cons call calls ih =>
    rw [List.forall_mem_cons] at h
    have hcall := h.1
    rw [Call.plan, run_emitAll] at hcall
    exact hcall.bind fun v _ => (ih h.2).map _

end SigilExpr
