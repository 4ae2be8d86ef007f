import SigilExpr.Plan.Narrow
import SigilExpr.Plan.Run
import SigilExpr.Plan.Timeline
import SigilExpr.Plan.Wide

/-!
# Launching a plan on a clock

The concurrent reading of plans. To launch a plan is to have it waited for from some time on.
`Plan.course` is the sequence of turns that it takes then, and `Plan.launch` is what they come to.

A join makes all its calls first, in order, and then the callees proceed side by side as siblings.
Up to `Course.narrowLimit` siblings are watched together (`Course.narrow`), more are served from a
queue (`Course.wide`). The join goes on in the turn in which they end.

Launches compose: `Plan.course_bind` and, for what they come to, `Plan.launch_bind`.
-/

namespace SigilExpr

namespace Course

variable {α : Type}

/-- The largest number of siblings that are watched together. -/
def narrowLimit : Nat := 30

/-- The course of siblings that have been called at `now` and start as part of `turn`. -/
def join (starts : List (Turn → Course α)) (now : Nat) (turn : Turn) : Course (List α) :=
  if starts.length ≤ narrowLimit then narrow starts turn
  else wide (starts.map fun start _ => start .start) now turn

/-- Siblings extend a turn as a group if each of them does. -/
theorem join_extends (starts : List (Turn → Course α)) (h : ∀ start ∈ starts, Extends start)
    (now : Nat) : Extends (join starts now) := by
  intro turn
  unfold join
  split
  · exact narrow_extends starts h turn
  · exact wide_extends _ now turn

end Course

namespace Plan

mutual

/-- The turns that a plan takes if it is waited for from `now` on, the first of which has come to
`turn` so far. -/
def course : Plan → Nat → Turn → Course Json
  | .done v, _, turn => .ends turn (.ok v)
  | .halt why, _, turn => .ends turn (.error why)
  | .emit event rest, now, turn => rest.course now (turn.note event)
  | .wait 0 rest, now, turn => rest.course now turn
  | .wait (ticks + 1) rest, now, turn =>
    .waits turn (now + (ticks + 1)) 0 fun () => rest.course (now + (ticks + 1)) .start
  -- the question is answered within the turn, so its events join those of the turn
  | .ask question resume, now, turn =>
    match question.carryOut turn.events with
    | (events, .ok v) => (resume (.ok v)).course now { turn with events }
    | (events, .error (.failed e)) => (resume (.error e)).course now { turn with events }
    | (events, .error .exhausted) => .ends { turn with events } (.error .exhausted)
  | .join calls rest, now, turn =>
    match Course.join (starts calls now) now (turn.noteAll (calls.flatMap Call.opening)) with
    -- all siblings have ended in their first turns, so the join goes on in this one
    | .ends turn (.ok vs) => (rest vs).course now turn
    | .ends turn (.error why) => .ends turn (.error why)
    | .waits turn time age more =>
      .waits turn time age fun () =>
        (more ()).bind time fun later turn vs => (rest vs).course later turn
  | .dispatch id part rest, now, turn =>
    match part.course now turn with
    | .ends turn (.ok v) => (rest v).course now turn
    | .ends turn (.error why) => .ends turn (.error (why.within id))
    | .waits turn time age more =>
      .waits turn time age fun () =>
        ((more ()).within id).bind time fun later turn v => (rest v).course later turn

/-- The turns that callees take if they are waited for from `now` on. -/
def starts : List Call → Nat → List (Turn → Course Json)
  | [], _ => []
  | ⟨_, body⟩ :: calls, now => body.course now :: starts calls now

end

/-- What a plan comes to if it is waited for from `time` on. -/
def launch (p : Plan) (time : Nat) : Timeline Json :=
  (p.course time .start).timeline time

/-- What calls come to that are made at `time` and waited for side by side. -/
def launchAll (calls : List Call) (time : Nat) : Timeline (List Json) :=
  (Course.join (starts calls time) time (Turn.start.noteAll (calls.flatMap Call.opening))).timeline
    time

/-! ### The turns of a plan, step by step -/

theorem starts_eq_map (calls : List Call) (now : Nat) :
    starts calls now = calls.map fun call => call.body.course now := by
  induction calls with
  | nil => rfl
  | cons call calls ih =>
    obtain ⟨opening, body⟩ := call
    simp [starts, ih]

theorem starts_cons (call : Call) (calls : List Call) (now : Nat) :
    starts (call :: calls) now = call.body.course now :: starts calls now := by
  rw [starts_eq_map, starts_eq_map, List.map_cons]

@[simp] theorem course_done (v : Json) (now : Nat) (turn : Turn) :
    (done v).course now turn = .ends turn (.ok v) := rfl

@[simp] theorem course_halt (why : Halt) (now : Nat) (turn : Turn) :
    (halt why).course now turn = .ends turn (.error why) := rfl

@[simp] theorem course_emit (event : Event) (rest : Plan) (now : Nat) (turn : Turn) :
    (emit event rest).course now turn = rest.course now (turn.note event) := rfl

theorem course_emitAll (events : List Event) (rest : Plan) (now : Nat) (turn : Turn) :
    (emitAll events rest).course now turn = rest.course now (turn.noteAll events) := by
  induction events generalizing turn with
  | nil => rfl
  | cons event events ih => simp [ih, Turn.note, Turn.noteAll]

theorem course_ask (question : Plan) (resume : Except EvalError Json → Plan) (now : Nat)
    (turn : Turn) :
    (ask question resume).course now turn =
      match question.run.verdict with
      | .ok v => (resume (.ok v)).course now (turn.noteAll question.run.trace)
      | .error (.failed e) => (resume (.error e)).course now (turn.noteAll question.run.trace)
      | .error .exhausted => .ends (turn.noteAll question.run.trace) (.error .exhausted) := by
  rw [course, carryOut_eq]
  split <;> simp_all [Turn.noteAll, List.reverseAux_eq]

theorem course_join (calls : List Call) (rest : List Json → Plan) (now : Nat) (turn : Turn) :
    (join calls rest).course now turn =
      (Course.join (starts calls now) now (turn.noteAll (calls.flatMap Call.opening))).bind now
        fun later turn vs => (rest vs).course later turn := by
  rw [course]
  match Course.join (starts calls now) now (turn.noteAll (calls.flatMap Call.opening)) with
  | .ends turn (.ok vs) => rfl
  | .ends turn (.error why) => rfl
  | .waits turn time age more => rfl

theorem course_dispatch (id : String) (part : Plan) (rest : Json → Plan) (now : Nat) (turn : Turn) :
    (dispatch id part rest).course now turn =
      ((part.course now turn).within id).bind now
        fun later turn v => (rest v).course later turn := by
  rw [course]
  match part.course now turn with
  | .ends turn (.ok v) => rfl
  | .ends turn (.error why) => rfl
  | .waits turn time age more => rfl

@[simp] theorem course_within (id : String) (p : Plan) (now : Nat) (turn : Turn) :
    (p.within id).course now turn = (p.course now turn).within id := by
  rw [within, course_dispatch]
  exact Course.bind_ends _ now

/-- **A plan extends a turn:** what has happened in its first turn already makes no difference to
it. -/
theorem course_extends (p : Plan) (now : Nat) : Course.Extends (p.course now) := by
  induction p generalizing now with
  | done v => intro turn; simp [Course.onto]
  | halt why => intro turn; simp [Course.onto]
  | emit event rest ih =>
    intro turn
    rw [course_emit, course_emit, ih now (turn.note event), ih now (Turn.start.note event),
      Course.onto_onto, Turn.absorb_note, Turn.absorb_start]
  | wait ticks rest ih =>
    cases ticks with
    | zero => exact ih now
    | succ ticks => intro turn; simp [course, Course.onto]
  | ask question resume _ ih =>
    intro turn
    have ih := fun answer turn => ih answer now (Turn.noteAll turn question.run.trace)
    rw [course_ask, course_ask]
    split
    · rw [ih, ih, Course.onto_onto, Turn.absorb_noteAll, Turn.absorb_start]
    · rw [ih, ih, Course.onto_onto, Turn.absorb_noteAll, Turn.absorb_start]
    · simp [Course.onto, Turn.absorb_noteAll]
  | join calls rest hc hr =>
    intro turn
    have hs : ∀ start ∈ starts calls now, Course.Extends start := by
      simpa [starts_eq_map] using fun call hm => hc call hm now
    have hj := fun turn =>
      Course.join_extends _ hs now (Turn.noteAll turn (calls.flatMap Call.opening))
    rw [course_join, course_join, hj, hj, Course.onto_bind _ _ _ _ fun time vs => hr vs time,
      Course.onto_bind _ _ _ _ fun time vs => hr vs time, Course.onto_onto, Turn.absorb_noteAll,
      Turn.absorb_start]
  | dispatch id part rest hp hr =>
    intro turn
    rw [course_dispatch, course_dispatch, hp now turn, Course.within_onto,
      Course.onto_bind _ _ _ _ fun time v => hr v time]

/-- **Composition.** The turns of a plan that goes on are its turns, and in the last of them it goes
on. -/
theorem course_bind (next : Json → Plan) (p : Plan) (now : Nat) (turn : Turn) :
    (p.bind next).course now turn =
      (p.course now turn).bind now fun later turn v => (next v).course later turn := by
  induction p generalizing now turn with
  | done v => rfl
  | halt why => rfl
  | emit event rest ih => exact ih now _
  | wait ticks rest ih =>
    cases ticks with
    | zero => exact ih now turn
    | succ ticks => simp [bind, course, Course.bind, ih]
  | ask question resume _ ih =>
    rw [bind, course_ask, course_ask]
    split <;> simp [ih, Course.bind]
  | join calls rest _ ih => simp [bind, course_join, Course.bind_assoc, ih]
  | dispatch id part rest _ ih => simp [bind, course_dispatch, Course.bind_assoc, ih]

/-- To launch a plan that goes on is to launch it and to go on at its end. -/
theorem launch_bind (next : Json → Plan) (p : Plan) (time : Nat) :
    (p.bind next).launch time = (p.launch time).bind fun later v => (next v).launch later := by
  unfold launch
  rw [course_bind]
  exact Course.timeline_bind _ _ _ fun later v => (next v).course_extends later

/-! ### The equations of a launch -/

@[simp] theorem launch_done (v : Json) (time : Nat) : (done v).launch time = .done time v := rfl

@[simp] theorem launch_halt (why : Halt) (time : Nat) :
    (halt why).launch time = ⟨[], time, .error why⟩ := rfl

theorem timeline_course_noteAll (p : Plan) (events : List Event) (time : Nat) :
    (p.course time (Turn.start.noteAll events)).timeline time =
      (p.launch time).after (events.map (time, ·)) := by
  rw [course_extends p time (Turn.start.noteAll events), Course.timeline_onto]
  simp [launch, Turn.noteAll, Turn.start, List.reverseAux_eq]

@[simp] theorem launch_emit (event : Event) (rest : Plan) (time : Nat) :
    (emit event rest).launch time = (rest.launch time).after [(time, event)] :=
  timeline_course_noteAll rest [event] time

@[simp] theorem launch_emitAll (events : List Event) (rest : Plan) (time : Nat) :
    (emitAll events rest).launch time = (rest.launch time).after (events.map (time, ·)) := by
  rw [launch, course_emitAll, timeline_course_noteAll]

@[simp] theorem launch_wait (ticks : Nat) (rest : Plan) (time : Nat) :
    (wait ticks rest).launch time = rest.launch (time + ticks) := by
  cases ticks with
  | zero => rfl
  | succ ticks => simp [launch, course, Turn.start]

theorem launch_ask (question : Plan) (resume : Except EvalError Json → Plan) (time : Nat) :
    (ask question resume).launch time =
      match question.run.verdict with
      | .ok v => ((resume (.ok v)).launch time).after (question.run.trace.map (time, ·))
      | .error (.failed e) =>
        ((resume (.error e)).launch time).after (question.run.trace.map (time, ·))
      | .error .exhausted => ⟨question.run.trace.map (time, ·), time, .error .exhausted⟩ := by
  rw [launch, course_ask]
  split
  · rw [timeline_course_noteAll]
  · rw [timeline_course_noteAll]
  · simp [Turn.noteAll, Turn.start, List.reverseAux_eq]

theorem launch_join (calls : List Call) (rest : List Json → Plan) (time : Nat) :
    (join calls rest).launch time =
      (launchAll calls time).bind fun later vs => (rest vs).launch later := by
  rw [launch, course_join]
  exact Course.timeline_bind _ _ _ fun later vs => (rest vs).course_extends later

theorem launch_dispatch (id : String) (part : Plan) (rest : Json → Plan) (time : Nat) :
    (dispatch id part rest).launch time =
      ((part.launch time).within id).bind fun later v => (rest v).launch later := by
  rw [launch, course_dispatch,
    Course.timeline_bind _ _ _ fun later v => (rest v).course_extends later,
    Course.timeline_within]
  rfl

@[simp] theorem launch_within (id : String) (p : Plan) (time : Nat) :
    (p.within id).launch time = (p.launch time).within id := by
  rw [launch, course_within, Course.timeline_within, launch]

end Plan

end SigilExpr
