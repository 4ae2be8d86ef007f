import SigilExpr.Plan.Course

/-!
# Timelines

A `Timeline` is what a course comes to when all its turns have been taken: dated events, the time of
the end, and how it ends. Timelines compose as courses do (`Timeline.bind`, `Course.timeline_bind`).
-/

namespace SigilExpr

/-- What an evaluation comes to on a clock. -/
structure Timeline (α : Type) where
  /-- What happens, and when. -/
  trace : List (Nat × Event)
  /-- The time of the end. -/
  settledAt : Nat
  /-- How it ends. -/
  verdict : Except Halt α

namespace Timeline

variable {α β γ : Type}

/-- A timeline that ends at once. -/
def done (time : Nat) (a : α) : Timeline α := ⟨[], time, .ok a⟩

/-- Puts dated events in front. -/
def after (events : List (Nat × Event)) (line : Timeline α) : Timeline α :=
  { line with trace := events ++ line.trace }

/-- Goes on, at its end, with the value of a timeline. -/
def bind (line : Timeline α) (next : Nat → α → Timeline β) : Timeline β :=
  match line.verdict with
  | .ok a => (next line.settledAt a).after line.trace
  | .error why => ⟨line.trace, line.settledAt, .error why⟩

/-- Tags the error of a timeline. -/
def within (id : String) (line : Timeline α) : Timeline α :=
  { line with verdict := line.verdict.mapError (Halt.within id) }

@[simp] theorem after_nil (line : Timeline α) : line.after [] = line := rfl

@[simp] theorem after_after (xs ys : List (Nat × Event)) (line : Timeline α) :
    (line.after ys).after xs = line.after (xs ++ ys) := by
  simp [after]

@[simp] theorem done_bind (time : Nat) (a : α) (next : Nat → α → Timeline β) :
    (done time a).bind next = next time a := rfl

theorem bind_after (events : List (Nat × Event)) (line : Timeline α)
    (next : Nat → α → Timeline β) :
    (line.after events).bind next = (line.bind next).after events := by
  obtain ⟨trace, settledAt, verdict⟩ := line
  cases verdict <;> simp [bind, after]

/-- What a timeline goes on with needs to be looked at for its own value only. -/
theorem bind_congr {line : Timeline α} {f g : Nat → α → Timeline β}
    (h : ∀ a, line.verdict = .ok a → f line.settledAt a = g line.settledAt a) :
    line.bind f = line.bind g := by
  unfold bind
  split
  · rename_i a ha
    rw [h a ha]
  · rfl

@[simp] theorem bind_done (line : Timeline α) : line.bind done = line := by
  obtain ⟨trace, settledAt, verdict⟩ := line
  cases verdict <;> simp [bind, done, after]

@[simp] theorem within_after (id : String) (events : List (Nat × Event)) (line : Timeline α) :
    (line.after events).within id = (line.within id).after events := rfl

/-- Tags make no difference to a value. -/
@[simp] theorem verdict_within_eq_ok_iff {id : String} {line : Timeline α} {a : α} :
    (line.within id).verdict = .ok a ↔ line.verdict = .ok a :=
  Halt.mapError_within_eq_ok_iff

theorem verdict_bind_eq_ok_iff {line : Timeline α} {next : Nat → α → Timeline β} {b : β} :
    (line.bind next).verdict = .ok b ↔
      ∃ a, line.verdict = .ok a ∧ (next line.settledAt a).verdict = .ok b := by
  obtain ⟨trace, settledAt, verdict⟩ := line
  cases verdict <;> simp [bind, after]

/-- The entries of the log, dated and in order. -/
def log (line : Timeline α) : List (Nat × Json) :=
  line.trace.filterMap fun (time, event) => event.logged?.map fun v => (time, v)

/-- The identifiers that were warned about, in order. -/
def warnings (line : Timeline α) : List String :=
  line.trace.filterMap fun (_, event) => event.warned?

end Timeline

namespace Course

variable {α β : Type}

/-- Takes all turns of a course, the first at `now`, after the dated events `past`, the latest
first. -/
def follow : Course α → Nat → List (Nat × Event) → Timeline α
  | ends turn verdict, now, past =>
    ⟨(turn.events.map (now, ·) ++ past).reverse, now, verdict⟩
  | waits turn time _ rest, now, past =>
    (rest ()).follow time (turn.events.map (now, ·) ++ past)

/-- What a course comes to if it has its first turn at `now`. -/
def timeline (course : Course α) (now : Nat) : Timeline α := course.follow now []

theorem follow_eq (course : Course α) (now : Nat) (past : List (Nat × Event)) :
    course.follow now past = (course.timeline now).after past.reverse := by
  unfold timeline
  induction course generalizing now past with
  | ends turn verdict => simp [follow, Timeline.after]
  | waits turn time age rest ih =>
    simp only [follow]
    rw [ih, ih () time (turn.events.map (now, ·) ++ [])]
    simp

@[simp] theorem timeline_ends (turn : Turn) (verdict : Except Halt α) (now : Nat) :
    (ends turn verdict).timeline now = ⟨(turn.events.map (now, ·)).reverse, now, verdict⟩ := by
  simp [timeline, follow]

@[simp] theorem timeline_waits (turn : Turn) (time age : Nat) (rest : Unit → Course α)
    (now : Nat) :
    (waits turn time age rest).timeline now =
      ((rest ()).timeline time).after (turn.events.map (now, ·)).reverse := by
  show (rest ()).follow time _ = _
  simp [follow_eq]

theorem timeline_onto (turn : Turn) (course : Course α) (now : Nat) :
    (course.onto turn).timeline now =
      (course.timeline now).after (turn.events.map (now, ·)).reverse := by
  cases course <;> simp [onto, Timeline.after]

theorem timeline_within (id : String) (course : Course α) (now : Nat) :
    (course.within id).timeline now = (course.timeline now).within id := by
  induction course generalizing now with
  | ends turn verdict => simp [within, Timeline.within]
  | waits turn time age rest ih => simp [within, ih]

/-- **Composition.** What goes on in the last turn of a course goes on at the end of its
timeline. -/
theorem timeline_bind (course : Course α) (now : Nat) (next : Nat → Turn → α → Course β)
    (h : ∀ time a, Extends fun turn => next time turn a) :
    (course.bind now next).timeline now =
      (course.timeline now).bind fun time a => (next time .start a).timeline time := by
  induction course generalizing now with
  | ends turn verdict =>
    cases verdict with
    | error why => simp [bind, Timeline.bind]
    | ok a =>
      have h : next now turn a = (next now .start a).onto turn := h now a turn
      simp [bind, Timeline.bind, h, timeline_onto]
  | waits turn time age rest ih => simp [bind, ih, Timeline.bind_after]

end Course

end SigilExpr
