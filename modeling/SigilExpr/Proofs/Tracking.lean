import SigilExpr.Proofs.Course.Tracks
import SigilExpr.Proofs.Simulation

/-!
# Plans that track each other

`Plan.Tracks` says of two plans that they go the same way, on the spot and on a clock, as far as the
events in `keep` go, up to where the first breaks off, if it may (`cuts`). It is kept by everything
that evaluation does (`Simulation.tracking`), which has three uses:

* with all events, of which the first plan may miss the last ones, it compares budgets;
* with all events but warnings, of which none may be missed, it compares runtime modes;
* with what is seen from outside, log and warnings, it compares nodes that come to the same.

Where no plan may break off early, plans can be compared by way of others (`Plan.Tracks.symm`,
`Plan.Tracks.trans`), and events that are not kept can be left out (`Plan.emitAll_tracks_self`).
-/

namespace SigilExpr

variable {α β : Type} {keep : Event → Bool} {cuts : Prop}

/-! ### Runs -/

/-- The run with only some of its events. -/
def Run.filter (keep : Event → Bool) (run : Run α) : Run α :=
  { run with trace := run.trace.filter keep }

/-- The same run as far as some events go, unless the first breaks off. -/
def Run.Tracks (keep : Event → Bool) (cuts : Prop) (r s : Run α) : Prop :=
  (cuts → r.verdict ≠ .error .exhausted) → r.filter keep = s.filter keep

namespace Run

@[simp] theorem filter_all (run : Run α) : run.filter (fun _ => true) = run := by
  simp [filter]

theorem verdict_of_filter {r s : Run α} (h : r.filter keep = s.filter keep) :
    r.verdict = s.verdict := by
  have hverdict : (r.filter keep).verdict = (s.filter keep).verdict := congrArg Run.verdict h
  exact hverdict

@[simp] theorem filter_after (events : List Event) (run : Run α) :
    (run.after events).filter keep = (run.filter keep).after (events.filter keep) := by
  simp [filter, after]

theorem filter_bind (run : Run α) (next : α → Run β) :
    (run.bind next).filter keep = (run.filter keep).bind fun a => (next a).filter keep := by
  obtain ⟨trace, verdict⟩ := run
  cases verdict with
  | ok a => exact filter_after trace (next a)
  | error why => rfl

namespace Tracks

variable {r s : Run α}

theorem refl (r : Run α) : r.Tracks keep cuts r := fun _ => rfl

theorem after (h : r.Tracks keep cuts s) {xs ys : List Event}
    (hevents : xs.filter keep = ys.filter keep) : (r.after xs).Tracks keep cuts (s.after ys) := by
  intro hend
  rw [filter_after, filter_after, hevents, h hend]

theorem map (h : r.Tracks keep cuts s) (f : α → β) : (r.map f).Tracks keep cuts (s.map f) := by
  intro hend
  -- a run that breaks off does so under a map as well
  have hr : cuts → r.verdict ≠ .error .exhausted := fun hcuts hx =>
    hend hcuts (by simp [Run.map, hx, Functor.map, Except.map])
  have heq : (r.filter keep).map f = (s.filter keep).map f := by rw [h hr]
  exact heq

theorem within (h : r.Tracks keep cuts s) (id : String) :
    (r.within id).Tracks keep cuts (s.within id) := by
  intro hend
  -- and it does so under a tag, since only errors are tagged
  have hr : cuts → r.verdict ≠ .error .exhausted := fun hcuts hx =>
    hend hcuts (by rw [Run.within, hx]; rfl)
  have heq : (r.filter keep).within id = (s.filter keep).within id := by rw [h hr]
  exact heq

theorem bind {f g : α → Run β} (h : r.Tracks keep cuts s)
    (hnext : ∀ a, r.verdict = .ok a → (f a).Tracks keep cuts (g a)) :
    (r.bind f).Tracks keep cuts (s.bind g) := by
  intro hend
  have hr : cuts → r.verdict ≠ .error .exhausted := fun hcuts hx =>
    hend hcuts (by simp [Run.bind, hx])
  -- up to here both runs are the same, so they go on with the same value
  rw [filter_bind, filter_bind, ← h hr]
  refine bind_congr fun a ha => hnext a ha fun hcuts => ?_
  have hv : r.verdict = .ok a := ha
  simpa [Run.bind, hv] using hend hcuts

end Tracks

end Run

/-! ### Plans and calls -/

/-- The second plan goes the same way as the first as far as some events go, unless the first breaks
off. -/
structure Plan.Tracks (keep : Event → Bool) (cuts : Prop) (p q : Plan) : Prop where
  run : p.run.Tracks keep cuts q.run
  course : ∀ now s t, s.filter keep = t.filter keep →
    (p.course now s).Tracks keep cuts (q.course now t)

/-- The same happens at the moment of the call, as far as some events go, and what follows goes the
same way. -/
structure Call.Tracks (keep : Event → Bool) (cuts : Prop) (c d : Call) : Prop where
  opening : c.opening.filter keep = d.opening.filter keep
  body : c.body.Tracks keep cuts d.body

namespace Plan

variable {p q : Plan} {cs ds : List Call}

/-- What is launched, too, goes the same way unless the first plan breaks off. -/
theorem Tracks.launch (h : p.Tracks keep cuts q) {time : Nat}
    (hend : cuts → (p.launch time).verdict ≠ .error .exhausted) :
    (p.launch time).filter keep = (q.launch time).filter keep :=
  (h.course time .start .start rfl).timeline hend

theorem done_tracks (v : Json) : (done v).Tracks keep cuts (done v) :=
  ⟨.refl _, fun _ _ _ hst => .ends hst _⟩

theorem halt_tracks (why : Halt) : (halt why).Tracks keep cuts (halt why) :=
  ⟨.refl _, fun _ _ _ hst => .ends hst _⟩

/-- Nothing comes of a plan that breaks off. -/
theorem exhausted_tracks (h : cuts) (q : Plan) : exhausted.Tracks keep cuts q :=
  ⟨fun hend => absurd rfl (hend h), fun _ turn _ _ => .cut h turn _⟩

theorem runAll_tracks (h : List.Forall₂ (Call.Tracks keep cuts) cs ds) :
    (runAll cs).Tracks keep cuts (runAll ds) := by
  induction h with
  | nil => exact .refl _
  | cons hcd _ ih => exact (hcd.body.run.after hcd.opening).bind fun v _ => ih.map _

theorem emitAll_tracks (h : p.Tracks keep cuts q) {xs ys : List Event}
    (hevents : xs.filter keep = ys.filter keep) :
    (emitAll xs p).Tracks keep cuts (emitAll ys q) where
  run := by
    rw [run_emitAll, run_emitAll]
    exact h.run.after hevents
  course now s t hst := by
    rw [course_emitAll, course_emitAll]
    refine h.course now _ _ ?_
    rw [Turn.filter_noteAll, Turn.filter_noteAll, hst, hevents]

theorem ask_tracks {f g : Except EvalError Json → Plan} (hp : p.run.Tracks keep cuts q.run)
    (h : ∀ answer, (f answer).Tracks keep cuts (g answer)) :
    (ask p f).Tracks keep cuts (ask q g) := by
  by_cases hx : cuts ∧ p.run.verdict = .error .exhausted
  · -- the first plan breaks off where it is, on the spot and on a clock
    obtain ⟨hcuts, hx⟩ := hx
    refine ⟨fun hend => ?_, fun now s t _ => ?_⟩
    · exact absurd (by simp [run_ask, Run.answer, hx]) (hend hcuts)
    · rw [course_ask, hx]
      exact .cut hcuts _ _
  · have hpq : p.run.filter keep = q.run.filter keep := hp fun hcuts hv => hx ⟨hcuts, hv⟩
    have hverdict : p.run.verdict = q.run.verdict := Run.verdict_of_filter hpq
    have htrace : p.run.trace.filter keep = q.run.trace.filter keep := congrArg Run.trace hpq
    -- both get the same answer, and whatever they do next has the same past
    refine ⟨?_, fun now s t hst => ?_⟩
    · rw [run_ask, run_ask, Run.answer, Run.answer, ← hverdict]
      split
      · exact (h _).run.after htrace
      · exact (h _).run.after htrace
      · exact fun _ => by simp [Run.filter, htrace]
    · have hturn : (s.noteAll p.run.trace).filter keep = (t.noteAll q.run.trace).filter keep := by
        rw [Turn.filter_noteAll, Turn.filter_noteAll, hst, htrace]
      rw [course_ask, course_ask, ← hverdict]
      split
      · exact (h _).course now _ _ hturn
      · exact (h _).course now _ _ hturn
      · exact .ends hturn _

theorem wait_tracks (h : p.Tracks keep cuts q) (ticks : Nat) :
    (wait ticks p).Tracks keep cuts (wait ticks q) := by
  cases ticks with
  -- to wait for no time at all is no turn of its own
  | zero => exact ⟨h.run, h.course⟩
  | succ ticks => exact ⟨h.run, fun now s t hst => .waits hst _ _ (h.course _ _ _ rfl)⟩

private theorem filter_flatMap_opening (h : List.Forall₂ (Call.Tracks keep cuts) cs ds) :
    (cs.flatMap Call.opening).filter keep = (ds.flatMap Call.opening).filter keep := by
  induction h with
  | nil => rfl
  | cons hcd _ ih =>
    rw [List.flatMap_cons, List.flatMap_cons, List.filter_append, List.filter_append, hcd.opening,
      ih]

theorem join_tracks {f g : List Json → Plan} (hcs : List.Forall₂ (Call.Tracks keep cuts) cs ds)
    (h : ∀ vs, (runAll cs).verdict = .ok vs → (f vs).Tracks keep cuts (g vs)) :
    (join cs f).Tracks keep cuts (join ds g) where
  run := by
    rw [run_join, run_join]
    exact (runAll_tracks hcs).bind fun vs hvs => (h vs hvs).run
  course now s t hst := by
    have hstarts : List.Forall₂ (Course.StartTracks keep cuts) (starts cs now) (starts ds now) := by
      rw [starts_eq_map, starts_eq_map, List.forall₂_map_left_iff, List.forall₂_map_right_iff]
      exact hcs.imp fun c d hcd => hcd.body.course now
    rw [course_join, course_join]
    -- what happens at the moment of the calls belongs to the turn in which they are made
    refine (Course.join_tracks hstarts now ?_).bind fun later s t vs hst hvs => ?_
    · rw [Turn.filter_noteAll, Turn.filter_noteAll, hst, filter_flatMap_opening hcs]
    · exact (h vs (verdict_runAll_of_join hvs)).course later s t hst

theorem dispatch_tracks (hp : p.Tracks keep cuts q) (id : String) {f g : Json → Plan}
    (h : ∀ v, (f v).Tracks keep cuts (g v)) :
    (dispatch id p f).Tracks keep cuts (dispatch id q g) where
  run := by
    rw [run_dispatch, run_dispatch]
    exact (hp.run.within id).bind fun v _ => (h v).run
  course now s t hst := by
    rw [course_dispatch, course_dispatch]
    exact ((hp.course now s t hst).within id).bind fun later s t v hst _ =>
      (h v).course later s t hst

theorem Tracks.within (h : p.Tracks keep cuts q) (id : String) :
    (p.within id).Tracks keep cuts (q.within id) :=
  dispatch_tracks h id done_tracks

/-- A plan that has a value on its course has it on the spot. -/
private theorem verdict_run_of_course {now : Nat} {turn : Turn} {v : Json}
    (h : ((p.course now turn).ending now 0).verdict = .ok v) : p.run.verdict = .ok v := by
  -- what has happened in a turn before makes no difference to what comes of it
  have hturn : p.course now turn = (p.course now .start).onto turn := course_extends p now turn
  rw [hturn, Course.ending_onto, ← Course.verdict_timeline] at h
  exact (verdict_launch_eq_ok_iff p now v).1 h

/-- What plans go on with is looked at for what they come to only. -/
theorem bind_tracks_of_ok {f g : Json → Plan} (hp : p.Tracks keep cuts q)
    (h : ∀ v, p.run.verdict = .ok v → (f v).Tracks keep cuts (g v)) :
    (p.bind f).Tracks keep cuts (q.bind g) where
  run := by
    rw [run_bind, run_bind]
    exact hp.run.bind fun v hv => (h v hv).run
  course now s t hst := by
    rw [course_bind, course_bind]
    exact (hp.course now s t hst).bind fun later s t v hst hv =>
      (h v (verdict_run_of_course hv)).course later s t hst

theorem bind_tracks {f g : Json → Plan} (hp : p.Tracks keep cuts q)
    (h : ∀ v, (f v).Tracks keep cuts (g v)) : (p.bind f).Tracks keep cuts (q.bind g) :=
  bind_tracks_of_ok hp fun v _ => h v

/-- Every plan goes the way that it goes. -/
theorem tracks_self (p : Plan) : p.Tracks keep cuts p := by
  induction p with
  | done v => exact done_tracks v
  | halt why => exact halt_tracks why
  | emit event rest ih =>
    -- one event is a list of events
    have hevents : [event].filter keep = [event].filter keep := rfl
    exact emitAll_tracks ih hevents
  | wait ticks rest ih => exact wait_tracks ih ticks
  | ask question resume hq hr => exact ask_tracks hq.run hr
  | join calls rest hc hr =>
    exact join_tracks (List.forall₂_same.2 fun call hm => ⟨rfl, hc call hm⟩) fun vs _ => hr vs
  | dispatch id part rest hp hr => exact dispatch_tracks hp id hr

/-- How a plan is made up does not matter, only what comes of it in either mode. -/
theorem Tracks.of_eq {r : Plan} (h : p.Tracks keep cuts q) (hrun : r.run = p.run)
    (hcourse : ∀ now turn, r.course now turn = p.course now turn) : r.Tracks keep cuts q where
  run := by
    rw [hrun]
    exact h.run
  course now s t hst := by
    rw [hcourse]
    exact h.course now s t hst

/-- Where failures are tagged already, a further tag makes no difference. -/
theorem within_within_tracks (inner outer : String) (p : Plan) :
    ((p.within inner).within outer).Tracks keep cuts (p.within inner) := by
  refine ((tracks_self p).within inner).of_eq ?_ fun now turn => ?_
  · rw [run_within, run_within, Run.within_within]
  · rw [course_within, course_within, Course.within_within]

/-- Nor does it where nothing fails. -/
theorem done_within_tracks (id : String) (v : Json) :
    ((done v).within id).Tracks keep cuts (done v) :=
  ⟨.refl _, fun _ _ _ hst => .ends hst _⟩

theorem exhausted_within_tracks (id : String) : (exhausted.within id).Tracks keep cuts exhausted :=
  ⟨.refl _, fun _ _ _ hst => .ends hst _⟩

/-- Where a tag makes no difference, it makes none after some events. -/
theorem emitAll_within_tracks {id : String} (h : (p.within id).Tracks keep cuts p)
    (events : List Event) : ((emitAll events p).within id).Tracks keep cuts (emitAll events p) := by
  have hevents : (emitAll events (p.within id)).Tracks keep cuts (emitAll events p) :=
    emitAll_tracks h rfl
  -- events are no part of what is tagged
  refine hevents.of_eq ?_ fun now turn => ?_
  · rw [run_within, run_emitAll, run_emitAll, run_within, Run.within_after]
  · rw [course_within, course_emitAll, course_emitAll, course_within]

/-- Where no plan is cut short, each goes the way of the other. -/
theorem Tracks.symm (h : p.Tracks keep False q) : q.Tracks keep False p where
  run _ := (h.run nofun).symm
  course now s t hst := (h.course now t s hst.symm).symm

theorem Tracks.trans {r : Plan} (h : p.Tracks keep False q) (h' : q.Tracks keep False r) :
    p.Tracks keep False r where
  run _ := (h.run nofun).trans (h'.run nofun)
  course now s t hst := (h.course now s s rfl).trans (h'.course now s t hst)

/-- Events that are not kept may as well not happen. -/
theorem emitAll_tracks_self {events : List Event} (hevents : events.filter keep = []) (p : Plan) :
    (emitAll events p).Tracks keep cuts p := by
  have hnone : events.filter keep = ([] : List Event).filter keep := hevents
  exact emitAll_tracks (tracks_self p) hnone

theorem emit_tracks_self {event : Event} (hevent : keep event = false) (p : Plan) :
    (emit event p).Tracks keep cuts p := by
  have hnone : [event].filter keep = [] := by
    rw [List.filter_cons_of_neg (by simp [hevent]), List.filter_nil]
  exact emitAll_tracks_self hnone p

end Plan

namespace Call

variable {c d e : Call}

theorem tracks_self (c : Call) : c.Tracks keep cuts c := ⟨rfl, Plan.tracks_self _⟩

theorem Tracks.symm (h : c.Tracks keep False d) : d.Tracks keep False c :=
  ⟨h.opening.symm, h.body.symm⟩

theorem Tracks.trans (h : c.Tracks keep False d) (h' : d.Tracks keep False e) :
    c.Tracks keep False e :=
  ⟨h.opening.trans h'.opening, h.body.trans h'.body⟩

/-- What is made and waited for at once goes the same way, too. -/
theorem Tracks.plan (h : c.Tracks keep cuts d) : c.plan.Tracks keep cuts d.plan :=
  Plan.emitAll_tracks h.body h.opening

end Call

/-! ### Evaluation -/

/-- Plans are related that go the same way as far as some events go. -/
def Simulation.tracking (keep : Event → Bool) (cuts : Prop) : Simulation where
  event _ := True
  plan := Plan.Tracks keep cuts
  call := Call.Tracks keep cuts
  written a b := a = b
  done := Plan.done_tracks
  halt := Plan.halt_tracks
  emit {event _ _} _ h := by
    have hevents : [event].filter keep = [event].filter keep := rfl
    exact Plan.emitAll_tracks h hevents
  ask hp h := Plan.ask_tracks hp.run h
  join := Plan.join_tracks
  bind := Plan.bind_tracks
  ofPlan h := ⟨rfl, h⟩
  made h := h.plan
  within id h := ⟨h.opening, h.body.within id⟩
  breakOff h := ⟨h.opening, Plan.halt_tracks _⟩
  logged _ := trivial
  action_eq h := congrArg Performance.action h
  perform {a b p q} h hpq := by
    subst h
    exact ⟨rfl, Plan.wait_tracks hpq a.ticks⟩

instance Simulation.tracking_fits (keep : Event → Bool) (cuts : Prop) (registry : Registry) :
    (tracking keep cuts).Fits registry where
  arrival node h := by
    refine ⟨?_, h.body⟩
    rw [Call.after, Call.after, List.filter_append, List.filter_append, h.opening]
  invoked _ _ := trivial

namespace Registry

variable (registry : Registry)

/-- **Further tags change nothing.** What an evaluation fails with has the tag of the call that it
is, and that tag stays on the way out of all calls around it. -/
theorem evaluator_within_tracks (budget : Nat) (mode : Mode) (scope : Scope) (node : Json)
    (id : String) :
    ((registry.evaluator budget mode scope node).within id).Tracks keep cuts
      (registry.evaluator budget mode scope node) := by
  refine ⟨rfl, ?_⟩
  cases budget with
  | zero => exact Plan.exhausted_within_tracks id
  | succ budget =>
    rw [evaluator, evaluateWith]
    -- only calls can fail, and a call leaves its own tag
    cases registry.call? node with
    | none => exact Plan.done_within_tracks id node
    | some found => exact Plan.within_within_tracks found.1 id _

theorem planWithin_within_tracks (budget : Nat) (mode : Mode) (scope : Scope) (node : Json)
    (id : String) : ((registry.planWithin budget mode scope node).within id).Tracks keep cuts
      (registry.planWithin budget mode scope node) :=
  Plan.emitAll_within_tracks (registry.evaluator_within_tracks budget mode scope node id).body _

/-- In particular what an evaluation comes to on the spot stays as it is. -/
theorem run_planWithin_within (budget : Nat) (mode : Mode) (scope : Scope) (node : Json)
    (id : String) :
    (registry.planWithin budget mode scope node).run.within id =
      (registry.planWithin budget mode scope node).run := by
  have h : ((registry.planWithin budget mode scope node).within id).Tracks (fun _ => true) False
      (registry.planWithin budget mode scope node) :=
    registry.planWithin_within_tracks budget mode scope node id
  have hrun := h.run nofun
  rwa [Run.filter_all, Run.filter_all, Plan.run_within] at hrun

end Registry

end SigilExpr
