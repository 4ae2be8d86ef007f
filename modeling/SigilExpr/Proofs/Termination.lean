import Mathlib.Data.Set.Finite.List
import Mathlib.Order.Filter.AtTopBot.Basic
import Mathlib.Order.Filter.Finite
import SigilExpr.Proofs.Budget

/-!
# Evaluations that come to an end

A plan comes to an end in a mode if its budget is not used up before (`Plan.Completes`), and a node
does if there is a budget with which it does (`Registry.Ends`); every larger one will do as well
(`Registry.ends_iff_endsAlong`).

For a join it is not enough that all its calls come to an end, since what it goes on with depends on
their values. But the values are the same for all budgets that are large enough, so it is enough
that the join goes on to an end with the values there are (`Registry.eventually_join`).
-/

open Filter

namespace SigilExpr

namespace Plan

/-! ### How plans end in a mode -/

/-- How the plan ends in a mode: on the spot, or on a clock from some time on. -/
def verdictIn (p : Plan) (mode : Mode) (time : Nat) : Except Halt Json :=
  match mode with
  | .sync => p.run.verdict
  | .async => (p.launch time).verdict

/-- How calls end in a mode that are made and waited for together. -/
def verdictOfAll (calls : List Call) (mode : Mode) (time : Nat) : Except Halt (List Json) :=
  match mode with
  | .sync => (runAll calls).verdict
  | .async => (launchAll calls time).verdict

variable {p q : Plan} {mode : Mode} {time : Nat} {calls : List Call}

@[simp] theorem verdictIn_done (v : Json) (mode : Mode) (time : Nat) :
    (done v).verdictIn mode time = .ok v := by
  cases mode <;> rfl

@[simp] theorem verdictIn_halt (why : Halt) (mode : Mode) (time : Nat) :
    (halt why).verdictIn mode time = .error why := by
  cases mode <;> rfl

@[simp] theorem verdictIn_emitAll (events : List Event) (p : Plan) (mode : Mode) (time : Nat) :
    (emitAll events p).verdictIn mode time = p.verdictIn mode time := by
  cases mode with
  | sync => rw [verdictIn, run_emitAll]; rfl
  | async => rw [verdictIn, launch_emitAll]; rfl

@[simp] theorem verdictIn_within (id : String) (p : Plan) (mode : Mode) (time : Nat) :
    (p.within id).verdictIn mode time = (p.verdictIn mode time).mapError (Halt.within id) := by
  cases mode with
  | sync => rw [verdictIn, run_within]; rfl
  | async => rw [verdictIn, launch_within]; rfl

/-- A plan has a value in one mode, at whatever time, if it has it on the spot. -/
theorem verdictIn_eq_ok_iff {v : Json} : p.verdictIn mode time = .ok v ↔ p.run.verdict = .ok v := by
  cases mode with
  | sync => exact Iff.rfl
  | async => exact verdict_launch_eq_ok_iff p time v

/-- The time at which the plan ends in a mode; on the spot no time passes. -/
def endIn (p : Plan) (mode : Mode) (time : Nat) : Nat :=
  match mode with
  | .sync => time
  | .async => (p.launch time).settledAt

/-- What a plan goes on with decides how it ends, from where the plan ends. -/
theorem verdictIn_bind {v : Json} (h : p.verdictIn mode time = .ok v) (next : Json → Plan) :
    (p.bind next).verdictIn mode time = (next v).verdictIn mode (p.endIn mode time) := by
  cases mode with
  | sync =>
    have hv : p.run.verdict = .ok v := h
    simp [verdictIn, run_bind, Run.bind, hv]
  | async =>
    have hv : (p.launch time).verdict = .ok v := h
    simp [verdictIn, endIn, launch_bind, Timeline.bind, hv, Timeline.after]

theorem verdictIn_bind_of_ok {v : Json} (h : p.verdictIn mode time = .ok v) (next : Json → Plan) :
    ∃ later, (p.bind next).verdictIn mode time = (next v).verdictIn mode later :=
  ⟨p.endIn mode time, verdictIn_bind h next⟩

theorem verdictIn_bind_of_error {why : Halt} (h : p.verdictIn mode time = .error why)
    (next : Json → Plan) : (p.bind next).verdictIn mode time = .error why := by
  cases mode with
  | sync =>
    have hv : p.run.verdict = .error why := h
    simp [verdictIn, run_bind, Run.bind, hv]
  | async =>
    have hv : (p.launch time).verdict = .error why := h
    simp [verdictIn, launch_bind, Timeline.bind, hv]

/-- What a join goes on with decides how it ends. -/
theorem verdictIn_join_of_ok {vs : List Json} (h : verdictOfAll calls mode time = .ok vs)
    (rest : List Json → Plan) :
    ∃ later, (join calls rest).verdictIn mode time = (rest vs).verdictIn mode later := by
  cases mode with
  | sync =>
    have hv : (runAll calls).verdict = .ok vs := h
    exact ⟨time, by simp [verdictIn, run_join, Run.bind, hv]⟩
  | async =>
    have hv : (launchAll calls time).verdict = .ok vs := h
    exact ⟨(launchAll calls time).settledAt, by simp [verdictIn, launch_join, Timeline.bind, hv,
      Timeline.after]⟩

theorem verdictIn_join_of_error {why : Halt} (h : verdictOfAll calls mode time = .error why)
    (rest : List Json → Plan) : (join calls rest).verdictIn mode time = .error why := by
  cases mode with
  | sync =>
    have hv : (runAll calls).verdict = .error why := h
    simp [verdictIn, run_join, Run.bind, hv]
  | async =>
    have hv : (launchAll calls time).verdict = .error why := h
    simp [verdictIn, launch_join, Timeline.bind, hv]

private theorem exists_of_verdict_runAll {why : Halt} (h : (runAll calls).verdict = .error why) :
    ∃ call ∈ calls, call.body.run.verdict = .error why := by
  induction calls with
  | nil => exact nomatch h
  | cons call calls ih =>
    cases hv : call.body.run.verdict with
    | error other =>
      -- the first call to fail decides, and this is it
      obtain rfl : other = why := by simpa [runAll, Run.bind, Run.after, hv] using h
      exact ⟨call, List.mem_cons_self, hv⟩
    | ok v =>
      have hrest : (runAll calls).verdict = .error why := by
        cases hvs : (runAll calls).verdict with
        | error other =>
          simpa [runAll, Run.bind, Run.after, Run.map, Functor.map, Except.map, hv, hvs] using h
        | ok vs =>
          simp [runAll, Run.bind, Run.after, Run.map, Functor.map, Except.map, hv, hvs] at h
      obtain ⟨other, hm, hother⟩ := ih hrest
      exact ⟨other, List.mem_cons_of_mem _ hm, hother⟩

/-- Calls that have no values end as one of them does. -/
theorem exists_of_verdictOfAll {why : Halt} (h : verdictOfAll calls mode time = .error why) :
    ∃ call ∈ calls, call.body.verdictIn mode time = .error why := by
  cases mode with
  | sync => exact exists_of_verdict_runAll h
  | async =>
    -- on a clock the group ends with one of its members, and as that one does
    have hv : (joinEnding calls time).verdict = .error why :=
      (verdict_joinEnding calls time).trans h
    rcases (joins_joinEnding calls time).delivers_or_error with
      ⟨vs, hvs, -⟩ | ⟨e, he, other, hother, hout⟩
    · exact absurd (hvs.symm.trans hv) (by simp)
    · obtain rfl := Except.error.inj (hout.symm.trans hv)
      obtain ⟨call, hm, rfl⟩ := List.mem_map.1 he
      exact ⟨call, hm, (Call.verdict_ending call time).symm.trans hother⟩

/-- The values of calls are those that they have on the spot. -/
theorem verdict_runAll_of_all {vs : List Json} (h : verdictOfAll calls mode time = .ok vs) :
    (runAll calls).verdict = .ok vs := by
  cases mode with
  | sync => exact h
  | async => exact verdict_runAll_of_launchAll h

/-- Plans that are the same up to where the first breaks off end alike if it does not. -/
theorem Below.verdictIn_eq (h : p.Below q) (hend : p.verdictIn mode time ≠ .error .exhausted) :
    p.verdictIn mode time = q.verdictIn mode time := by
  cases mode with
  | sync => exact congrArg Run.verdict (h.run hend)
  | async => exact congrArg Timeline.verdict (h.launch hend)

/-! ### Plans that come to an end -/

/-- The plan comes to an end in a mode, whenever it is begun. -/
def Completes (mode : Mode) (p : Plan) : Prop :=
  ∀ time, p.verdictIn mode time ≠ .error .exhausted

theorem completes_done (v : Json) : (done v).Completes mode := fun time => by simp

theorem completes_fail (e : EvalError) : (fail e).Completes mode := fun time => by simp [fail]

theorem completes_ofResult (result : Except EvalError Json) :
    (ofResult result).Completes mode := by
  cases result with
  | ok v => exact completes_done v
  | error e => exact completes_fail e

theorem completes_emitAll_iff (events : List Event) (p : Plan) :
    (emitAll events p).Completes mode ↔ p.Completes mode := by
  simp [Completes]

theorem Completes.bind {next : Json → Plan} (hp : p.Completes mode)
    (h : ∀ v, (next v).Completes mode) : (p.bind next).Completes mode := by
  intro time
  cases hv : p.verdictIn mode time with
  | error why =>
    rw [verdictIn_bind_of_error hv]
    exact hv ▸ hp time
  | ok v =>
    obtain ⟨later, hlater⟩ := verdictIn_bind_of_ok hv next
    rw [hlater]
    exact h v later

theorem Completes.join {rest : List Json → Plan}
    (hcalls : ∀ call ∈ calls, call.body.Completes mode)
    (h : ∀ vs, (runAll calls).verdict = .ok vs → (rest vs).Completes mode) :
    (Plan.join calls rest).Completes mode := by
  intro time
  cases hv : verdictOfAll calls mode time with
  | error why =>
    obtain ⟨call, hm, hcall⟩ := exists_of_verdictOfAll hv
    rw [verdictIn_join_of_error hv]
    exact hcall ▸ hcalls call hm time
  | ok vs =>
    obtain ⟨later, hlater⟩ := verdictIn_join_of_ok hv rest
    rw [hlater]
    exact h vs (verdict_runAll_of_all hv) later

theorem Completes.of_below (h : p.Below q) (hp : p.Completes mode) : q.Completes mode :=
  fun time => h.verdictIn_eq (hp time) ▸ hp time

/-! ### Plans that break off -/

/-- The budget is used up, in either mode and whenever the plan is begun. -/
def BreaksOff (p : Plan) : Prop :=
  ∀ mode time, p.verdictIn mode time = .error .exhausted

/-- The plan does not fail, in either mode and whenever it is begun. -/
def NeverFails (p : Plan) : Prop :=
  ∀ mode time e, p.verdictIn mode time ≠ .error (.failed e)

theorem BreaksOff.neverFails (h : p.BreaksOff) : p.NeverFails := fun mode time e => by
  simp [h mode time]

/-- A join breaks off if one of the calls does while none fails. -/
theorem BreaksOff.join {call : Call} (h : call.body.BreaksOff) (hm : call ∈ calls)
    (hcalls : ∀ call ∈ calls, call.body.NeverFails) (rest : List Json → Plan) :
    (Plan.join calls rest).BreaksOff := by
  intro mode time
  cases hv : verdictOfAll calls mode time with
  | ok vs =>
    -- a join with values for all calls has one for the call that breaks off
    have hvalues := verdict_runAll_eq_ok_iff.1 (verdict_runAll_of_all hv)
    obtain ⟨v, -, hvalue⟩ := hvalues.flip.exists_left_of_mem hm
    have hbreak : call.body.run.verdict = .error .exhausted := h .sync time
    rw [hbreak] at hvalue
    exact nomatch hvalue
  | error why =>
    rw [verdictIn_join_of_error hv]
    obtain ⟨other, hother, hverdict⟩ := exists_of_verdictOfAll hv
    cases why with
    | failed e => exact absurd hverdict (hcalls other hother mode time e)
    | exhausted => rfl

end Plan

namespace Call

variable {call : Call} {mode : Mode}

@[simp] theorem verdictIn_plan (call : Call) (mode : Mode) (time : Nat) :
    call.plan.verdictIn mode time = call.body.verdictIn mode time := by
  rw [plan, Plan.verdictIn_emitAll]

/-- Whoever does it, and in whose name, makes no difference to whether a call comes to an end. -/
theorem completes_within_iff (id : String) :
    (call.within id).plan.Completes mode ↔ call.plan.Completes mode := by
  simp [Plan.Completes]

theorem breaksOff_within_iff (id : String) :
    (call.within id).plan.BreaksOff ↔ call.plan.BreaksOff := by
  simp [Plan.BreaksOff]

/-- A call comes to an end if its body does. -/
theorem completes_plan_iff : call.plan.Completes mode ↔ call.body.Completes mode :=
  Plan.completes_emitAll_iff call.opening call.body

theorem breaksOff_plan_iff : call.plan.BreaksOff ↔ call.body.BreaksOff := by
  simp [Plan.BreaksOff]

theorem neverFails_plan_iff : call.plan.NeverFails ↔ call.body.NeverFails := by
  simp [Plan.NeverFails]

end Call

/-! ### Nodes that come to an end -/

namespace Registry

variable {registry : Registry} {mode : Mode} {scope : Scope}

/-- The evaluation of a node in a mode comes to an end. -/
def Ends (registry : Registry) (mode : Mode) (scope : Scope) (node : Json) : Prop :=
  ∃ budget, (registry.planWithin budget mode scope node).Completes mode

/-- The evaluation of a node in a mode comes to an end with almost all budgets of a filter: with all
that are large enough, or with a single one. -/
def EndsAlong (registry : Registry) (l : Filter Nat) (mode : Mode) (scope : Scope) (node : Json) :
    Prop :=
  ∀ᶠ budget in l, (registry.planWithin budget mode scope node).Completes mode

theorem completes_mono {n m : Nat} (hnm : n ≤ m) {node : Json}
    (h : (registry.planWithin n mode scope node).Completes mode) :
    (registry.planWithin m mode scope node).Completes mode :=
  h.of_below (registry.planWithin_mono mode scope node hnm)

/-- What comes to an end within some budget does so within every larger one. -/
theorem ends_iff_endsAlong {node : Json} :
    registry.Ends mode scope node ↔ registry.EndsAlong atTop mode scope node := by
  constructor
  · rintro ⟨budget, hend⟩
    exact eventually_atTop.2 ⟨budget, fun larger hle => completes_mono hle hend⟩
  · exact fun h => h.exists

/-- **Joins come to an end** if the calls do and if the join does with the values that the calls
have. -/
theorem eventually_join {l : Filter Nat} {calls : Nat → List Call} {rest : Nat → List Json → Plan}
    (hmono : ∀ n m, n ≤ m → List.Forall₂ Simulation.approximation.call (calls n) (calls m))
    (hcalls : ∀ᶠ n in l, ∀ call ∈ calls n, call.body.Completes mode)
    (hrest : ∀ vs n, (Plan.runAll (calls n)).verdict = .ok vs →
      ∀ᶠ n in l, (rest n vs).Completes mode) :
    ∀ᶠ n in l, (Plan.join (calls n) (rest n)).Completes mode := by
  -- a larger budget does not change the values
  have hle : ∀ {n m vs ws}, n ≤ m → (Plan.runAll (calls n)).verdict = .ok vs →
      (Plan.runAll (calls m)).verdict = .ok ws → vs = ws := by
    intro n m vs ws hnm hn hm
    have hsame := Plan.runAll_tracks (hmono n m hnm) fun _ => by simp [hn]
    have hverdict := Run.verdict_of_filter hsame
    exact Except.ok.inj (hn.symm.trans (hverdict.trans hm))
  -- so the join goes on with the same values for all budgets, or with none for any
  have hunique : ∀ {n m vs ws}, (Plan.runAll (calls n)).verdict = .ok vs →
      (Plan.runAll (calls m)).verdict = .ok ws → vs = ws := by
    intro n m vs ws hn hm
    rcases Nat.le_total n m with h | h
    · exact hle h hn hm
    · exact (hle h hm hn).symm
  -- what the join does with other values need not come to an end, so `hrest` is used only once the
  -- values are known
  by_cases hvalues : ∃ vs n, (Plan.runAll (calls n)).verdict = .ok vs
  · obtain ⟨vs, n, hn⟩ := hvalues
    filter_upwards [hcalls, hrest vs n hn] with m hm hgo
    exact .join hm fun ws hws => hunique hn hws ▸ hgo
  · filter_upwards [hcalls] with m hm
    exact .join hm fun ws hws => absurd ⟨ws, m, hws⟩ hvalues

end Registry

end SigilExpr
