import SigilExpr.Proofs.Course.Wide

/-!
# How joins end

Both kinds of groups in one statement, and what follows from it for the calls of a plan.

* `Ending.Joins` — the end of a group by the endings of its members, whatever its size;
  `Course.join_settles` says that a group has such an end.
* `Plan.course_forward` — no plan goes back in time.
* `Call.ending` — how a call ends that is waited for from some time on. What calls come to side by
  side can be told from how each of them ends: `Plan.joins_joinEnding`.
* `Plan.verdict_launch_eq_ok_iff` — **success does not depend on time:** a plan has a value on a
  clock if and only if it has that value on the spot.
-/

namespace SigilExpr

open Ending

variable {α : Type}

/-! ### Groups of any size -/

/-- The end of a group. -/
def Ending.Joins (endings : List (Ending α)) (now : Nat) (out : Ending (List α)) : Prop :=
  if endings.length ≤ Course.narrowLimit then Settles endings now out
  else SettlesInOrder endings now out

namespace Ending.Joins

variable {endings : List (Ending α)} {now : Nat} {out : Ending (List α)}

/-- A group has all values with the last of them, or it ends as some member does that has none. -/
theorem delivers_or_error (h : Joins endings now out) :
    (∃ vs, out.verdict = .ok vs ∧ Delivers endings now vs out.time) ∨
      ∃ e ∈ endings, ∃ why, e.verdict = .error why ∧ out.verdict = .error why := by
  unfold Joins at h
  split at h
  · rcases h with hok | ⟨e, why, ⟨-, front, back, rfl, -⟩, hv, hout, -⟩
    · exact .inl hok
    · exact .inr ⟨e, by simp, why, hv, hout⟩
  · rcases h with hok | ⟨e, why, ⟨-, front, back, rfl, -⟩, hv, hout⟩ | ⟨hout, e, he, hv, -⟩
    · exact .inl hok
    · exact .inr ⟨e, by simp, why, hv, hout⟩
    · exact .inr ⟨e, he, .exhausted, hv, hout⟩

/-- A group has values if all its members have them. -/
theorem verdict_eq_ok_iff (h : Joins endings now out) {vs : List α} :
    out.verdict = .ok vs ↔ List.Forall₂ (fun e v => e.verdict = .ok v) endings vs := by
  rcases h.delivers_or_error with ⟨ws, hout, hd⟩ | ⟨e, he, why, hv, hout⟩
  · rw [hout, Except.ok.injEq]
    refine ⟨fun heq => heq ▸ hd.values, fun hvs => ?_⟩
    -- the group delivers the values of its members, and no member has two
    have hunique : Relator.RightUnique fun (e : Ending α) v => e.verdict = .ok v :=
      fun e v w hv hw => by simpa [hv] using hw
    exact List.right_unique_forall₂' hunique hd.values hvs
  · rw [hout]
    refine ⟨fun heq => by simp at heq, fun hvs => ?_⟩
    -- the member that the group ends with has no value
    obtain ⟨v, -, hev⟩ := hvs.flip.exists_left_of_mem he
    have hev : e.verdict = .ok v := hev
    simp [hv] at hev

end Ending.Joins

/-- **The end of a group** can be told from the endings of its members. -/
theorem Course.join_settles {now : Nat} {starts : List (Turn → Course α)}
    {endings : List (Ending α)} (h : List.Forall₂ (Starts now) starts endings) (turn : Turn) :
    (join starts now turn).Forward now ∧
      ∀ r, Joins endings now ((join starts now turn).ending now r) := by
  unfold join Joins
  rw [h.length_eq]
  split
  · exact narrow_settles h turn
  · exact wide_settles h turn

/-! ### The calls of a plan -/

/-- How a call ends that is waited for from `time` on. -/
def Call.ending (call : Call) (time : Nat) : Ending Json :=
  (call.body.course time .start).ending time 0

theorem Call.time_ending (call : Call) (time : Nat) :
    (call.ending time).time = (call.body.launch time).settledAt :=
  (Course.settledAt_timeline _ _ _).symm

theorem Call.verdict_ending (call : Call) (time : Nat) :
    (call.ending time).verdict = (call.body.launch time).verdict :=
  (Course.verdict_timeline _ _ _).symm

namespace Plan

/-- Callees that go forward start as siblings do. -/
private theorem starts_of_forward {calls : List Call} {now : Nat}
    (h : ∀ call ∈ calls, (call.body.course now .start).Forward now) :
    List.Forall₂ (Course.Starts now) (starts calls now)
      (calls.map fun call => call.ending now) := by
  rw [starts_eq_map, List.forall₂_map_left_iff, List.forall₂_map_right_iff]
  exact List.forall₂_same.2 fun call hc => ⟨course_extends call.body now, h call hc, rfl⟩

/-- No plan goes back in time. -/
theorem course_forward (p : Plan) (now : Nat) (turn : Turn) : (p.course now turn).Forward now := by
  induction p generalizing now turn with
  | done v => exact trivial
  | halt why => exact trivial
  | emit event rest ih => exact ih now _
  | wait ticks rest ih =>
    cases ticks with
    | zero => exact ih now turn
    | succ ticks => exact ⟨Nat.le_add_right _ _, ih _ _⟩
  | ask question resume _ ih =>
    rw [course_ask]
    split
    · exact ih _ now _
    · exact ih _ now _
    · exact trivial
  | join calls rest hc hr =>
    rw [course_join]
    -- what the calls do is known by induction, and that is all that a group asks of its members
    have hstarts := starts_of_forward fun call hm => hc call hm now .start
    exact (Course.join_settles hstarts _).1.bind fun time later vs => hr vs time later
  | dispatch id part rest hp hr =>
    rw [course_dispatch]
    have hpart := (Course.forward_within id _ now).2 (hp now turn)
    exact hpart.bind fun time later v => hr v time later

theorem starts_endings (calls : List Call) (now : Nat) :
    List.Forall₂ (Course.Starts now) (starts calls now) (calls.map fun call => call.ending now) :=
  starts_of_forward fun call _ => course_forward call.body now .start

/-- How calls end that are made at `time` and waited for side by side. -/
def joinEnding (calls : List Call) (time : Nat) : Ending (List Json) :=
  (Course.join (starts calls time) time (Turn.start.noteAll (calls.flatMap Call.opening))).ending
    time 0

theorem time_joinEnding (calls : List Call) (time : Nat) :
    (joinEnding calls time).time = (launchAll calls time).settledAt :=
  (Course.settledAt_timeline _ _ _).symm

theorem verdict_joinEnding (calls : List Call) (time : Nat) :
    (joinEnding calls time).verdict = (launchAll calls time).verdict :=
  (Course.verdict_timeline _ _ _).symm

/-- **The end of calls** that are waited for side by side can be told from how each of them ends. -/
theorem joins_joinEnding (calls : List Call) (time : Nat) :
    Joins (calls.map fun call => call.ending time) time (joinEnding calls time) :=
  (Course.join_settles (starts_endings calls time) _).2 0

theorem verdict_launchAll_eq_ok_iff {calls : List Call} {time : Nat} {vs : List Json} :
    (launchAll calls time).verdict = .ok vs ↔
      List.Forall₂ (fun call v => (call.body.launch time).verdict = .ok v) calls vs := by
  rw [← verdict_joinEnding, (joins_joinEnding calls time).verdict_eq_ok_iff,
    List.forall₂_map_left_iff]
  simp only [Call.verdict_ending]

/-! ### Success -/

/-- Calls have values one after the other if each has one. -/
theorem verdict_runAll_eq_ok_iff {calls : List Call} {vs : List Json} :
    (runAll calls).verdict = .ok vs ↔
      List.Forall₂ (fun call v => call.body.run.verdict = .ok v) calls vs := by
  induction calls generalizing vs with
  | nil => simp [runAll, Run.done, eq_comm]
  | cons call calls ih =>
    rw [runAll, Run.verdict_bind_eq_ok_iff, List.forall₂_cons_left_iff]
    constructor
    · rintro ⟨v, hv, hmap⟩
      cases hvs : (runAll calls).verdict with
      | error why => simp [Run.map, hvs, Functor.map, Except.map] at hmap
      | ok ws =>
        obtain rfl : v :: ws = vs := by simpa [Run.map, hvs, Functor.map, Except.map] using hmap
        exact ⟨v, ws, hv, ih.1 hvs, rfl⟩
    · rintro ⟨v, ws, hv, hws, rfl⟩
      exact ⟨v, hv, by simp [Run.map, ih.2 hws, Functor.map, Except.map]⟩

/-- Calls have no values one after the other if one of them has none. -/
theorem verdict_runAll_of_missing {calls : List Call} {call : Call} (hcall : call ∈ calls)
    (h : ∀ v, call.body.run.verdict ≠ .ok v) : ∃ why, (runAll calls).verdict = .error why := by
  cases hv : (runAll calls).verdict with
  | error why => exact ⟨why, rfl⟩
  | ok vs =>
    obtain ⟨v, -, hcv⟩ := (verdict_runAll_eq_ok_iff.1 hv).flip.exists_left_of_mem hcall
    exact absurd hcv (h v)

/-- So it is with calls that are waited for side by side. -/
theorem verdict_launchAll_of_missing {calls : List Call} {time : Nat} {call : Call}
    (hcall : call ∈ calls) (h : ∀ v, (call.body.launch time).verdict ≠ .ok v) :
    ∃ why, (launchAll calls time).verdict = .error why := by
  cases hv : (launchAll calls time).verdict with
  | error why => exact ⟨why, rfl⟩
  | ok vs =>
    obtain ⟨v, -, hcv⟩ := (verdict_launchAll_eq_ok_iff.1 hv).flip.exists_left_of_mem hcall
    exact absurd hcv (h v)

/-- A join that has no values is over when its calls are. -/
theorem launch_join_of_error {calls : List Call} {time : Nat} {why : Halt}
    (h : (launchAll calls time).verdict = .error why) (rest : List Json → Plan) :
    (join calls rest).launch time =
      ⟨(launchAll calls time).trace, (launchAll calls time).settledAt, .error why⟩ := by
  rw [launch_join, Timeline.bind, h]

/-- **Success does not depend on time.** A plan has a value on a clock if and only if it has it on
the spot, however long its parts take and in whatever order they end. -/
theorem verdict_launch_eq_ok_iff (p : Plan) (time : Nat) (v : Json) :
    (p.launch time).verdict = .ok v ↔ p.run.verdict = .ok v := by
  -- only joins need an argument: elsewhere both readings take the same steps, and tags do not
  -- touch values
  induction p generalizing time v with
  | done w => exact Iff.rfl
  | halt why => simp
  | emit event rest ih => rw [launch_emit, run_emit]; exact ih time v
  | wait ticks rest ih => rw [launch_wait, run_wait]; exact ih _ v
  | ask question resume _ ih =>
    rw [launch_ask, run_ask, Run.answer]
    split <;> rename_i hv
    · rw [hv]
      exact ih _ time v
    · rw [hv]
      exact ih _ time v
    · simp [hv]
  | join calls rest hc hr =>
    rw [launch_join, run_join, Timeline.verdict_bind_eq_ok_iff, Run.verdict_bind_eq_ok_iff]
    refine exists_congr fun vs => and_congr ?_ (hr vs _ v)
    rw [verdict_launchAll_eq_ok_iff, verdict_runAll_eq_ok_iff]
    have hcall : ∀ call ∈ calls, ∀ v, (call.body.launch time).verdict = .ok v ↔
        call.body.run.verdict = .ok v := fun call hm v => hc call hm time v
    constructor
    · intro h
      exact ((List.forall₂_and_left _ _).2 ⟨hcall, h⟩).imp fun call v h => (h.1 v).1 h.2
    · intro h
      exact ((List.forall₂_and_left _ _).2 ⟨hcall, h⟩).imp fun call v h => (h.1 v).2 h.2
  | dispatch id part rest hp hr =>
    rw [launch_dispatch, run_dispatch, Timeline.verdict_bind_eq_ok_iff, Run.verdict_bind_eq_ok_iff]
    refine exists_congr fun w => and_congr ?_ (hr w _ v)
    rw [Timeline.verdict_within_eq_ok_iff, Run.verdict_within_eq_ok_iff]
    exact hp time w

/-- A join goes on with what its calls come to on the spot. -/
theorem verdict_runAll_of_join {calls : List Call} {now round : Nat} {turn : Turn} {vs : List Json}
    (h : ((Course.join (starts calls now) now turn).ending now round).verdict = .ok vs) :
    (runAll calls).verdict = .ok vs := by
  rw [((Course.join_settles (starts_endings calls now) turn).2 round).verdict_eq_ok_iff,
    List.forall₂_map_left_iff] at h
  rw [verdict_runAll_eq_ok_iff]
  refine h.imp fun call v hv => (verdict_launch_eq_ok_iff call.body now v).1 ?_
  rwa [← Call.verdict_ending]

theorem verdict_runAll_of_launchAll {calls : List Call} {time : Nat} {vs : List Json}
    (h : (launchAll calls time).verdict = .ok vs) : (runAll calls).verdict = .ok vs := by
  rw [← verdict_joinEnding] at h
  exact verdict_runAll_of_join h

end Plan

end SigilExpr
