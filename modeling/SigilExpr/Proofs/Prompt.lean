import SigilExpr.Proofs.Course.AtOnce
import SigilExpr.Proofs.Simulation

/-!
# Evaluations that are over at once

An evaluation in which nobody ever waits is over in the turn in which it starts. `Plan.Prompt` says
that of a plan: whenever it is launched it ends in its first turn, as it ends on the spot, and with
the same entries of the log. Joins keep it, in groups that are watched together as in those that are
served from a queue (`Course.endsAtOnce_join`): whoever is looked at has ended already, so the
members end in the order of positions, and the first failure is the one that the others would come
after on the spot too.

The nodes that are visited need not be the same. Side by side all siblings are called before the
first of them goes on; on the spot those after a failure are never called.
-/

namespace SigilExpr

variable {α β : Type}

/-- A course is over in its first turn, part of `turn`, and comes to what a run comes to, but for
events that leave no entry in the log. -/
def Course.EndsAtOnce (course : Course α) (turn : Turn) (run : Run α) : Prop :=
  ∃ events, course = .ends (turn.noteAll events) run.verdict ∧
    events.filterMap Event.logged? = run.log

/-- Whoever waits for the plan gets what it comes to on the spot, in the same turn. -/
def Plan.Prompt (p : Plan) : Prop :=
  ∀ now turn, (p.course now turn).EndsAtOnce turn p.run

/-- A call that writes nothing to the log at once and whose body is prompt. -/
def Call.Prompt (call : Call) : Prop :=
  call.opening.filterMap Event.logged? = [] ∧ call.body.Prompt

@[simp] theorem Run.log_after (events : List Event) (run : Run α) :
    (run.after events).log = events.filterMap Event.logged? ++ run.log := by
  simp [Run.log, Run.after]

namespace Course

/-! ### Courses that are over at once -/

theorem EndsAtOnce.ends (turn : Turn) (verdict : Except Halt α) :
    EndsAtOnce (ends turn verdict) turn ⟨[], verdict⟩ :=
  ⟨[], rfl, rfl⟩

/-- What happens before in the turn may happen before in the run. -/
theorem EndsAtOnce.noted {course : Course α} {turn : Turn} {run : Run α} {xs ys : List Event}
    (h : course.EndsAtOnce (turn.noteAll xs) run)
    (hlog : xs.filterMap Event.logged? = ys.filterMap Event.logged?) :
    course.EndsAtOnce turn (run.after ys) := by
  obtain ⟨events, rfl, he⟩ := h
  refine ⟨xs ++ events, by rw [Turn.noteAll_noteAll]; rfl, ?_⟩
  rw [List.filterMap_append, hlog, he, Run.log_after]

theorem EndsAtOnce.bind {course : Course α} {now : Nat} {turn : Turn} {run : Run α}
    {next : Nat → Turn → α → Course β} {f : α → Run β} (h : course.EndsAtOnce turn run)
    (hnext : ∀ turn a, run.verdict = .ok a → (next now turn a).EndsAtOnce turn (f a)) :
    (course.bind now next).EndsAtOnce turn (run.bind f) := by
  obtain ⟨events, rfl, he⟩ := h
  obtain ⟨trace, verdict⟩ := run
  cases verdict with
  | error why => exact ⟨events, rfl, he⟩
  | ok a => exact (hnext _ a rfl).noted he

theorem EndsAtOnce.within {course : Course α} {turn : Turn} {run : Run α}
    (h : course.EndsAtOnce turn run) (id : String) :
    (course.within id).EndsAtOnce turn (run.within id) := by
  obtain ⟨events, rfl, he⟩ := h
  exact ⟨events, rfl, he⟩

/-! ### Groups -/

variable {calls : List Call}

/-- Prompt calls come to runs that write to the log what they write on the spot. -/
private theorem exists_sequence (h : ∀ call ∈ calls, call.Prompt) (now : Nat) :
    ∃ runs, List.Forall₂ AtOnce (Plan.starts calls now) runs ∧
      (Run.sequence runs).verdict = (Plan.runAll calls).verdict ∧
      (Run.sequence runs).log = (Plan.runAll calls).log := by
  induction calls with
  | nil => exact ⟨[], .nil, rfl, rfl⟩
  | cons call calls ih =>
    obtain ⟨hcall, hrest⟩ := List.forall_mem_cons.1 h
    obtain ⟨runs, hruns, hverdict, hlog⟩ := ih hrest
    obtain ⟨events, hc, he⟩ := hcall.2 now .start
    have hstart := AtOnce.of_extends (Plan.course_extends call.body now) hc
    refine ⟨⟨events, call.body.run.verdict⟩ :: runs, ?_, ?_⟩
    · rw [Plan.starts_cons]
      exact .cons hstart hruns
    · cases hv : call.body.run.verdict with
      | error why =>
        -- those after it have no turn, as they are not called on the spot
        rw [Run.sequence_cons_of_error rfl, Plan.runAll_cons_of_error hv]
        simp [Run.log, he, hcall.1]
      | ok v =>
        rw [Run.sequence_cons_of_ok rfl, Plan.runAll_cons_of_ok hv, hverdict]
        simp only [Run.log] at hlog he
        simp [Run.log, he, hcall.1, hlog]

/-- **A join is over at once** if all its calls are: it comes to what the calls come to one after
the other. -/
theorem endsAtOnce_join (h : ∀ call ∈ calls, call.Prompt) (now : Nat) (turn : Turn) :
    (join (Plan.starts calls now) now turn).EndsAtOnce turn (Plan.runAll calls) := by
  obtain ⟨runs, hruns, hverdict, hlog⟩ := exists_sequence h now
  exact ⟨(Run.sequence runs).trace, by rw [join_atOnce hruns now turn, hverdict], hlog⟩

end Course

namespace Simulation

/-- The prompt plans, as the relation of each with itself and with any other. -/
def prompt : Simulation where
  event _ := True
  plan p _ := p.Prompt
  call c _ := c.Prompt
  written _ _ := False
  done v now turn := .ends turn (.ok v)
  halt why now turn := .ends turn (.error why)
  emit {event p q} _ h now turn := by
    rw [Plan.course_emit, Plan.run_emit]
    have hrest : (p.course now (turn.note event)).EndsAtOnce (turn.noteAll [event]) p.run := h now _
    exact hrest.noted rfl
  ask {p q f g} _ h now turn := by
    rw [Plan.course_ask, Plan.run_ask, Run.answer]
    split <;> rename_i hv
    · rw [hv]
      exact (h _ now _).noted rfl
    · rw [hv]
      exact (h _ now _).noted rfl
    · rw [hv]
      exact ⟨p.run.trace, rfl, rfl⟩
  join {cs ds f g} hcs h now turn := by
    have hprompt : ∀ call ∈ cs, call.Prompt := fun call hm => by
      obtain ⟨_, _, hc⟩ := hcs.flip.exists_left_of_mem hm
      exact hc
    -- the openings all happen before the first call goes on, but leave nothing in the log
    have hopening : (cs.flatMap Call.opening).filterMap Event.logged? = [] := by
      rw [List.filterMap_flatMap, List.flatMap_eq_nil_iff]
      exact fun call hm => (hprompt call hm).1
    rw [Plan.course_join, Plan.run_join]
    have hjoin : Course.EndsAtOnce _ turn ((Plan.runAll cs).after []) :=
      (Course.endsAtOnce_join hprompt now _).noted hopening
    exact hjoin.bind fun later vs hvs => h vs hvs now later
  bind {p q f g} hp h now turn := by
    rw [Plan.course_bind, Plan.run_bind]
    exact (hp now turn).bind fun later a _ => h a now later
  ofPlan h := ⟨rfl, h⟩
  made {c d} h now turn := by
    rw [Call.plan, Plan.course_emitAll, Plan.run_emitAll]
    exact (h.2 now _).noted rfl
  within {c d} id h := by
    refine ⟨h.1, fun now turn => ?_⟩
    rw [Call.body_within, Plan.course_within, Plan.run_within]
    exact (h.2 now turn).within id
  breakOff h := ⟨h.1, fun now turn => .ends turn (.error .exhausted)⟩
  logged _ := trivial
  action_eq h := Performance.action_eq_of_false h
  perform h := h.elim

instance prompt_fits (registry : Registry) : prompt.Fits registry where
  arrival node h := by
    refine ⟨?_, h.2⟩
    rw [Call.after, List.filterMap_append, h.1, Registry.arrival]
    simp [Event.logged?]
  invoked _ _ := trivial

end Simulation

end SigilExpr
