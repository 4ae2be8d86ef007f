import SigilExpr.Plan.Basic

/-!
# Turns and courses

On a clock an evaluation proceeds in turns: it does what can be done at once, then waits for an
alarm and has its next turn. A `Course` is that sequence of turns, of which the later ones are only
worked out when they come. Courses compose: what goes on at the end of one goes on in its last turn
(`Course.bind`, `Course.bind_assoc`). A first turn may be part of a turn in which something has
happened already: `Course.onto` puts that in front, and a way to start that does no more with it
`Extends` the turn.

Siblings of a join have courses of their own and take turns as parts of the turns of the join. Where
several alarms are set for one time, it may matter which was set first, so a course says of the next
alarm how many turns ago it was set. A `Sleeper` is a sibling that waits, with the alarm on the
clock of the group: it remembers in which turns of the group its own turns were.
-/

namespace SigilExpr

/-! ### Turns -/

/-- What comes of a turn. -/
structure Turn where
  /-- What happens, the latest event first. -/
  events : List Event
  /-- Somebody in it has asked to be looked after once more at the same time. -/
  woken : Bool

namespace Turn

/-- A turn in which nothing has happened yet. -/
def start : Turn := ⟨[], false⟩

/-- Something happens. -/
def note (turn : Turn) (event : Event) : Turn := { turn with events := event :: turn.events }

/-- Several things happen, in order. -/
def noteAll (turn : Turn) (events : List Event) : Turn :=
  { turn with events := events.reverseAux turn.events }

/-- Somebody asks to be looked after once more. -/
def wake (turn : Turn) : Turn := { turn with woken := true }

/-- Somebody has a turn as part of this one. -/
def absorb (turn part : Turn) : Turn :=
  ⟨if turn.events.isEmpty then part.events else part.events ++ turn.events,
    turn.woken || part.woken⟩

@[simp] theorem events_absorb (turn part : Turn) :
    (turn.absorb part).events = part.events ++ turn.events := by
  obtain ⟨_ | _, _⟩ := turn <;> simp [Turn.absorb]

@[simp] theorem woken_absorb (turn part : Turn) :
    (turn.absorb part).woken = (turn.woken || part.woken) := rfl

@[simp] theorem start_absorb (part : Turn) : start.absorb part = part := rfl

theorem ext {a b : Turn} (he : a.events = b.events) (hw : a.woken = b.woken) : a = b := by
  cases a
  cases b
  simp_all

@[simp] theorem absorb_start (turn : Turn) : turn.absorb .start = turn :=
  ext (by simp [start]) (by simp [start])

theorem absorb_assoc (a b c : Turn) : (a.absorb b).absorb c = a.absorb (b.absorb c) :=
  ext (by simp) (by simp [Bool.or_assoc])

theorem absorb_note (turn part : Turn) (event : Event) :
    turn.absorb (part.note event) = (turn.absorb part).note event :=
  ext (by simp [note]) rfl

theorem absorb_noteAll (turn part : Turn) (events : List Event) :
    turn.absorb (part.noteAll events) = (turn.absorb part).noteAll events :=
  ext (by simp [noteAll, List.reverseAux_eq]) rfl

theorem absorb_wake (turn part : Turn) : turn.absorb part.wake = (turn.absorb part).wake :=
  ext (by simp [wake]) (by simp [wake])

end Turn

/-! ### Courses -/

/-- The turns of an evaluation. -/
inductive Course (α : Type) where
  /-- The last turn, and how it ends. -/
  | ends (turn : Turn) (verdict : Except Halt α)
  /-- A turn, the time of the next one, how many turns ago the alarm for it was set (none if in
  this turn), and all further turns. -/
  | waits (turn : Turn) (time age : Nat) (rest : Unit → Course α)

namespace Course

variable {α β γ : Type}

/-- The number of turns after the first. -/
def length : Course α → Nat
  | ends _ _ => 0
  | waits _ _ _ rest => (rest ()).length + 1

/-- Goes on with the value of a course, in its last turn. The course is at `now`; what goes on is
told the time and the turn so far. -/
def bind (course : Course α) (now : Nat) (next : Nat → Turn → α → Course β) : Course β :=
  match course with
  | ends turn (.ok a) => next now turn a
  | ends turn (.error why) => ends turn (.error why)
  | waits turn time age rest => waits turn time age fun () => (rest ()).bind time next

/-- Tags the error that a course ends with. -/
def within (id : String) : Course α → Course α
  | ends turn verdict => ends turn (verdict.mapError (Halt.within id))
  | waits turn time age rest => waits turn time age fun () => (rest ()).within id

/-- Puts what has happened in a turn already in front of the first turn. -/
def onto (turn : Turn) : Course α → Course α
  | ends part verdict => ends (turn.absorb part) verdict
  | waits part time age rest => waits (turn.absorb part) time age rest

@[simp] theorem onto_start (course : Course α) : course.onto .start = course := by
  cases course <;> rfl

theorem onto_onto (earlier later : Turn) (course : Course α) :
    (course.onto later).onto earlier = course.onto (earlier.absorb later) := by
  cases course <;> simp [onto, Turn.absorb_assoc]

theorem within_onto (id : String) (turn : Turn) (course : Course α) :
    (course.onto turn).within id = (course.within id).onto turn := by
  cases course <;> rfl

/-- The innermost tag stays. -/
@[simp] theorem within_within (inner outer : String) (course : Course α) :
    (course.within inner).within outer = course.within inner := by
  induction course with
  | ends turn verdict => simp [within]
  | waits turn time age rest ih => simp [within, ih]

/-- A turn can be taken as part of another without making a difference to it. -/
def Extends (start : Turn → Course α) : Prop :=
  ∀ turn, start turn = (start .start).onto turn

theorem onto_bind (course : Course α) (now : Nat) (turn : Turn)
    (next : Nat → Turn → α → Course β)
    (h : ∀ time a, Extends fun turn => next time turn a) :
    (course.onto turn).bind now next = (course.bind now next).onto turn := by
  cases course with
  | waits part time age rest => rfl
  | ends part verdict =>
    cases verdict with
    | error why => rfl
    | ok a =>
      have h : ∀ turn, next now turn a = (next now .start a).onto turn := h now a
      -- in one turn or in the other, what goes on is the same on top of what has happened so far
      show next now (turn.absorb part) a = (next now part a).onto turn
      rw [h (turn.absorb part), h part, onto_onto]

theorem bind_ends (course : Course α) (now : Nat) :
    (course.bind now fun _ turn a => ends turn (.ok a)) = course := by
  induction course generalizing now with
  | ends turn verdict => cases verdict <;> rfl
  | waits turn time age rest ih => simp [bind, ih]

theorem bind_assoc (course : Course α) (now : Nat) (f : Nat → Turn → α → Course β)
    (g : Nat → Turn → β → Course γ) :
    (course.bind now f).bind now g =
      course.bind now fun time turn a => (f time turn a).bind time g := by
  induction course generalizing now with
  | ends turn verdict => cases verdict <;> rfl
  | waits turn time age rest ih => simp [bind, ih]

end Course

/-! ### Siblings that wait -/

/-- An alarm on the clock of a group of siblings. The clock counts turns: those of the group, or the
single turns that it gives to siblings. -/
structure Alarm where
  /-- The time for which it is set. -/
  time : Nat
  /-- The turn in which it was set. -/
  setIn : Nat
deriving DecidableEq, Repr

namespace Alarm

/-- The one of two alarms that goes off first: the earlier one, and at one time the one that was
set first. -/
def sooner (a b : Alarm) : Alarm :=
  if b.time < a.time ∨ (b.time = a.time ∧ b.setIn < a.setIn) then b else a

/-- The first alarm to go off. -/
def soonest : List Alarm → Option Alarm
  | [] => none
  | a :: alarms => some (alarms.foldl sooner a)

theorem sooner_eq (a b : Alarm) : a.sooner b = a ∨ a.sooner b = b := by
  unfold sooner
  split
  · exact .inr rfl
  · exact .inl rfl

theorem foldl_sooner_mem (alarms : List Alarm) (a : Alarm) :
    alarms.foldl sooner a = a ∨ alarms.foldl sooner a ∈ alarms := by
  induction alarms generalizing a with
  | nil => exact .inl rfl
  | cons b alarms ih =>
    rcases ih (a.sooner b) with h | h
    · rw [List.foldl_cons, h]
      rcases sooner_eq a b with h | h <;> simp [h]
    · exact .inr (List.mem_cons_of_mem b h)

theorem mem_of_soonest {alarms : List Alarm} {a : Alarm} (h : soonest alarms = some a) :
    a ∈ alarms := by
  cases alarms with
  | nil => simp [soonest] at h
  | cons b alarms =>
    obtain rfl := Option.some.inj h
    rcases foldl_sooner_mem alarms b with h | h <;> simp [h]

theorem time_sooner_le (a b : Alarm) : (a.sooner b).time ≤ a.time ∧ (a.sooner b).time ≤ b.time := by
  unfold sooner
  split <;> omega

theorem time_foldl_sooner_le (alarms : List Alarm) (a : Alarm) :
    (alarms.foldl sooner a).time ≤ a.time ∧
      ∀ b ∈ alarms, (alarms.foldl sooner a).time ≤ b.time := by
  induction alarms generalizing a with
  | nil => simp
  | cons c alarms ih =>
    have hs := time_sooner_le a c
    obtain ⟨ha, hall⟩ := ih (a.sooner c)
    refine ⟨Nat.le_trans ha hs.1, fun b hb => ?_⟩
    rcases List.mem_cons.1 hb with rfl | hb
    · exact Nat.le_trans ha hs.2
    · exact hall b hb

/-- No alarm goes off before the first one. -/
theorem time_le_of_soonest {alarms : List Alarm} {a b : Alarm} (h : soonest alarms = some a)
    (hb : b ∈ alarms) : a.time ≤ b.time := by
  cases alarms with
  | nil => simp [soonest] at h
  | cons c alarms =>
    obtain rfl := Option.some.inj h
    rcases List.mem_cons.1 hb with rfl | hb
    · exact (time_foldl_sooner_le alarms b).1
    · exact (time_foldl_sooner_le alarms c).2 b hb

theorem soonest_eq_none_iff {alarms : List Alarm} : soonest alarms = none ↔ alarms = [] := by
  cases alarms <;> simp [soonest]

end Alarm

/-- A sibling between two of its turns. -/
structure Sleeper (α : Type) where
  /-- The alarm for its next turn. -/
  alarm : Alarm
  /-- Its own turns so far, as the group counts them, the latest first. -/
  turns : List Nat
  /-- Its further turns. -/
  rest : Unit → Course α

namespace Sleeper

variable {α : Type}

/-- A sibling that waits after a turn of its own, the first of `turns`, for an alarm that was set
`age` of its turns ago. -/
def after (turns : List Nat) (time age : Nat) (rest : Unit → Course α) : Sleeper α :=
  ⟨⟨time, turns[age]?.getD 0⟩, turns, rest⟩

/-- A sibling that was called at some time and has not had a turn. -/
def called (time : Nat) (rest : Unit → Course α) : Sleeper α :=
  ⟨⟨time, 0⟩, [], rest⟩

/-- The number of turns to come. -/
def length (sleeper : Sleeper α) : Nat := (sleeper.rest ()).length + 1

/-- The alarm for its next turn has gone off. -/
def due (sleeper : Sleeper α) (now : Nat) : Bool := sleeper.alarm.time ≤ now

end Sleeper

end SigilExpr
