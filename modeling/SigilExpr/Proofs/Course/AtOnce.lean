import Mathlib.Data.List.Forall2
import SigilExpr.Plan.Launch

/-!
# Groups that are over at once

A group of siblings none of whom waits is over in the turn in which it starts. Whoever is looked at
has ended by then, so the siblings end in the order of positions, whether they are watched together
or served from a queue, and the first that has no value ends the group: `Course.join_atOnce`. So
the group comes to what the siblings come to one after the other (`Run.sequence`).
-/

namespace SigilExpr

variable {α β : Type}

namespace Turn

@[simp] theorem noteAll_nil (turn : Turn) : turn.noteAll [] = turn := rfl

theorem noteAll_noteAll (turn : Turn) (xs ys : List Event) :
    (turn.noteAll xs).noteAll ys = turn.noteAll (xs ++ ys) :=
  ext (by simp [noteAll, List.reverseAux_eq]) rfl

@[simp] theorem absorb_start_noteAll (turn : Turn) (events : List Event) :
    turn.absorb (start.noteAll events) = turn.noteAll events := by
  rw [absorb_noteAll, absorb_start]

end Turn

/-- Runs one after the other, up to the first that ends without a value. -/
def Run.sequence : List (Run α) → Run (List α)
  | [] => .done []
  | run :: runs => run.bind fun a => (sequence runs).map (a :: ·)

namespace Run

theorem sequence_cons_of_ok {run : Run α} {a : α} (h : run.verdict = .ok a) (runs : List (Run α)) :
    sequence (run :: runs) =
      ⟨run.trace ++ (sequence runs).trace, (a :: ·) <$> (sequence runs).verdict⟩ := by
  simp [sequence, bind, h, after, map]

theorem sequence_cons_of_error {run : Run α} {why : Halt} (h : run.verdict = .error why)
    (runs : List (Run α)) : sequence (run :: runs) = ⟨run.trace, .error why⟩ := by
  simp [sequence, bind, h]

end Run

namespace Plan

/-- Calls that are carried out one after the other come to their runs one after the other. -/
theorem runAll_eq_sequence (calls : List Call) :
    runAll calls = Run.sequence (calls.map fun call => call.body.run.after call.opening) := by
  induction calls with
  | nil => rfl
  | cons call calls ih => rw [runAll, ih, List.map_cons, Run.sequence]

theorem runAll_cons_of_ok {call : Call} {v : Json} (h : call.body.run.verdict = .ok v)
    (calls : List Call) :
    runAll (call :: calls) =
      ⟨call.opening ++ call.body.run.trace ++ (runAll calls).trace,
        (v :: ·) <$> (runAll calls).verdict⟩ := by
  simp [runAll, Run.bind, Run.after, Run.map, h]

theorem runAll_cons_of_error {call : Call} {why : Halt} (h : call.body.run.verdict = .error why)
    (calls : List Call) :
    runAll (call :: calls) = ⟨call.opening ++ call.body.run.trace, .error why⟩ := by
  simp [runAll, Run.bind, Run.after, h]

end Plan

namespace Course

/-- The course is over in its first turn, in which it comes to a run. -/
def AtOnce (start : Turn → Course α) (run : Run α) : Prop :=
  ∀ turn, start turn = .ends (turn.noteAll run.trace) run.verdict

/-- Whoever extends a turn comes to the same in any turn. -/
theorem AtOnce.of_extends {start : Turn → Course α} (h : Extends start) {events : List Event}
    {verdict : Except Halt α} (hstart : start .start = .ends (Turn.start.noteAll events) verdict) :
    AtOnce start ⟨events, verdict⟩ := by
  intro turn
  -- so it is enough to know one turn, the one in which nothing has happened yet
  have hturn : start turn = (start .start).onto turn := h turn
  rw [hturn, hstart, onto, Turn.absorb_start_noteAll]

theorem AtOnce.ends (verdict : Except Halt α) :
    AtOnce (fun turn => .ends turn verdict) ⟨[], verdict⟩ := fun _ => rfl

theorem AtOnce.after {start : Turn → Course α} {run : Run α} (h : AtOnce start run)
    (events : List Event) :
    AtOnce (fun turn => start (turn.noteAll events)) (run.after events) := by
  intro turn
  show start (turn.noteAll events) = _
  rw [h, Turn.noteAll_noteAll]
  rfl

theorem AtOnce.bind {start : Turn → Course α} {run : Run α} (h : AtOnce start run) {now : Nat}
    {next : Nat → Turn → α → Course β} {f : α → Run β}
    (hnext : ∀ a, run.verdict = .ok a → AtOnce (fun turn => next now turn a) (f a)) :
    AtOnce (fun turn => (start turn).bind now next) (run.bind f) := by
  intro turn
  show (start turn).bind now next = _
  rw [h turn]
  cases hv : run.verdict with
  | error why => simp [Course.bind, Run.bind, hv]
  | ok a =>
    have hlast : next now (turn.noteAll run.trace) a = _ := hnext a hv (turn.noteAll run.trace)
    simp [Course.bind, Run.bind, hv, hlast, Turn.noteAll_noteAll, Run.after]

theorem AtOnce.timeline {start : Turn → Course α} {run : Run α} (h : AtOnce start run)
    (time : Nat) :
    (start .start).timeline time = ⟨run.trace.map (time, ·), time, run.verdict⟩ := by
  rw [h .start, timeline_ends]
  simp [Turn.noteAll, Turn.start, List.reverseAux_eq]

variable {starts : List (Turn → Course α)} {runs : List (Run α)}

/-! ### Groups that are watched together -/

private theorem firstRound_atOnce (h : List.Forall₂ AtOnce starts runs) (turn : Turn)
    (before : List (Member α)) :
    firstRound starts turn before =
      (turn.noteAll (Run.sequence runs).trace,
        (fun vs => before.reverse ++ vs.map .settled) <$> (Run.sequence runs).verdict) := by
  induction h generalizing turn before with
  | nil => simp [firstRound, Run.sequence, Run.done, Functor.map, Except.map]
  | @cons start run starts runs hs _ ih =>
    rw [firstRound, hs turn]
    cases hv : run.verdict with
    | error why => rw [Run.sequence_cons_of_error hv]; rfl
    | ok a =>
      rw [Run.sequence_cons_of_ok hv]
      simp only [ih, Turn.noteAll_noteAll]
      cases (Run.sequence runs).verdict <;> simp [Functor.map, Except.map]

private theorem watch_settled (vs : List α) (turn : Turn) :
    watch (vs.map .settled) 0 turn = ends turn (.ok vs) := by
  have halarm : (vs.map Member.settled).filterMap Member.alarm? = [] := by
    simp [List.filterMap_map, Function.comp_def, Member.alarm?]
  have hvalue : (vs.map Member.settled).filterMap Member.value? = vs := by
    simp [List.filterMap_map, Function.comp_def, Member.value?]
  -- nobody waits for anything, so the watch is over with the values that are there
  rw [watch_eq, halarm, hvalue]
  rfl

private theorem narrow_atOnce (h : List.Forall₂ AtOnce starts runs) :
    AtOnce (narrow starts) (Run.sequence runs) := by
  intro turn
  rw [narrow, firstRound_atOnce h]
  cases (Run.sequence runs).verdict with
  | error why => rfl
  | ok vs => exact watch_settled vs _

/-! ### Groups that are served from a queue -/

section

variable {crowd : Crowd α} {strand : Strand α} {ready : List (Strand α)} {now : Nat} {part : Turn}

/-- Where nothing is put aside, an end counts at once if it is at the position that counts next. -/
private theorem attend_of_ok {v : α} (hready : crowd.ready = strand :: ready)
    (hdue : strand.due now = true) (hrest : strand.rest () = .ends part (.ok v))
    (hposition : strand.position = crowd.counted) (haside : crowd.aside = []) (turn : Turn) :
    ∃ after : Crowd α, crowd.attend now turn = after.attend now (turn.absorb part) ∧
      after.ready = ready ∧ after.asleep = crowd.asleep ∧ after.aside = [] ∧
      after.values = v :: crowd.values ∧ after.counted = crowd.counted + 1 := by
  refine ⟨{ crowd with
    ready, live := crowd.live - 1, values := v :: crowd.values, counted := crowd.counted + 1,
    aside := [], served := crowd.served + 1, visits := 0, returns := 0 },
    ?_, rfl, rfl, rfl, rfl, rfl⟩
  rw [Crowd.attend_cons hready]
  simp [Crowd.serve, hdue, hrest, Crowd.settle, haside, hposition, Crowd.putAside, Crowd.recount]

private theorem attend_of_error {why : Halt} (hready : crowd.ready = strand :: ready)
    (hdue : strand.due now = true) (hrest : strand.rest () = .ends part (.error why))
    (hposition : strand.position = crowd.counted) (haside : crowd.aside = []) (turn : Turn) :
    crowd.attend now turn = ends (turn.absorb part) (.error why) := by
  rw [Crowd.attend_cons hready]
  cases why <;>
    simp [Crowd.serve, hdue, hrest, Crowd.settle, haside, hposition, Crowd.putAside, Crowd.recount]

end

private theorem attend_atOnce (h : List.Forall₂ AtOnce starts runs) {crowd : Crowd α} {now : Nat}
    (hready : crowd.ready = (starts.zipIdx crowd.counted).map fun entry =>
      ⟨.called now fun _ => entry.1 .start, entry.2⟩)
    (hasleep : crowd.asleep = []) (haside : crowd.aside = []) (turn : Turn) :
    crowd.attend now turn = .ends (turn.noteAll (Run.sequence runs).trace)
      ((crowd.values.reverse ++ ·) <$> (Run.sequence runs).verdict) := by
  -- the queue is in the order of positions, and every end counts as soon as it is there
  induction h generalizing crowd turn with
  | nil =>
    rw [Crowd.attend_nil (by simpa using hready), hasleep]
    simp [Alarm.soonest, Run.sequence, Run.done, Functor.map, Except.map]
  | @cons start run starts runs hs _ ih =>
    rw [List.zipIdx_cons, List.map_cons] at hready
    have hrest := hs .start
    have hdue : Sleeper.due (.called now fun _ => start .start) now = true := by
      simp [Sleeper.due, Sleeper.called]
    cases hv : run.verdict with
    | error why =>
      -- an error counts at once, and those behind it in the queue are not served any more
      rw [hv] at hrest
      rw [attend_of_error hready hdue hrest rfl haside, Turn.absorb_start_noteAll,
        Run.sequence_cons_of_error hv]
      rfl
    | ok a =>
      -- the crowd that is left is served in the same visit, one position further
      rw [hv] at hrest
      obtain ⟨after, hattend, hr, hasleep', ha, hvs, hn⟩ :=
        attend_of_ok hready hdue hrest rfl haside turn
      rw [hattend, Turn.absorb_start_noteAll,
        ih (by rw [hr, hn]) (by rw [hasleep', hasleep]) ha, hvs, Run.sequence_cons_of_ok hv,
        Turn.noteAll_noteAll]
      cases (Run.sequence runs).verdict <;> simp [Functor.map, Except.map]

private theorem wide_atOnce (h : List.Forall₂ AtOnce starts runs) (now : Nat) :
    AtOnce (wide (starts.map fun start _ => start .start) now) (Run.sequence runs) := by
  intro turn
  -- at first everybody is in the queue, from the first position on
  have hready : (Crowd.ofStarts now (starts.map fun start _ => start .start)).ready =
      (starts.zipIdx 0).map fun entry => ⟨.called now fun _ => entry.1 .start, entry.2⟩ := by
    simp [Crowd.ofStarts, List.zipIdx_map, Function.comp_def]
  rw [wide, attend_atOnce h hready rfl rfl turn]
  cases (Run.sequence runs).verdict <;> rfl

/-- **A group is over at once** if all its members are: it comes to what they come to one after the
other. -/
theorem join_atOnce (h : List.Forall₂ AtOnce starts runs) (now : Nat) :
    AtOnce (join starts now) (Run.sequence runs) := by
  intro turn
  unfold join
  split
  · exact narrow_atOnce h turn
  · exact wide_atOnce h now turn

end Course

end SigilExpr
