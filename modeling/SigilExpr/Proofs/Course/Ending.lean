import Mathlib.Data.List.Forall2
import SigilExpr.Plan.Launch

/-!
# How courses end

What is left of a course when its turns are forgotten. `Course.ending` says when the last turn is,
how many turns the course has at that time before it, and how it ends. The count matters to a group
that is watched together: of two members that end at one time, the one with fewer turns at that time
ends first (`Ending.before`).

Two properties of whole courses go with it:

* `Course.Forward` — no turn is earlier than the one that leads to it, so the end of what is left of
  a course is never before now (`Course.le_ending`);
* `Course.Every` — every event in any turn has some property, which carries over to timelines
  (`Course.Every.timeline`).

Both are kept when a course goes on (`Course.Forward.bind`, `Course.Every.bind`).
-/

/-- Where two lists are related item by item, every item of the second has a partner in the
first. -/
theorem List.Forall₂.exists_left_of_mem {α β : Type} {R : α → β → Prop} {xs : List α} {ys : List β}
    (h : List.Forall₂ R xs ys) {y : β} (hy : y ∈ ys) : ∃ x ∈ xs, R x y := by
  induction h with
  | nil => simp at hy
  | @cons a b as bs hab _ ih =>
    rcases List.mem_cons.1 hy with rfl | hy
    · exact ⟨a, List.mem_cons_self, hab⟩
    · obtain ⟨x, hx, hxy⟩ := ih hy
      exact ⟨x, List.mem_cons_of_mem a hx, hxy⟩

namespace SigilExpr

variable {α β : Type}

/-- How an evaluation ends on a clock. -/
structure Ending (α : Type) where
  /-- The time of the last turn. -/
  time : Nat
  /-- The number of turns at that time before the last one. -/
  round : Nat
  /-- How it ends. -/
  verdict : Except Halt α

namespace Ending

/-- It ends without a value. -/
def Failed (e : Ending α) : Prop := ∃ why, e.verdict = .error why

/-- The one end is before the other: at an earlier time, or at the same time with fewer turns. -/
def before (e f : Ending α) : Prop := e.time < f.time ∨ (e.time = f.time ∧ e.round < f.round)

theorem not_failed_of_ok {e : Ending α} {a : α} (h : e.verdict = .ok a) : ¬ e.Failed := by
  rintro ⟨why, hw⟩
  rw [h] at hw
  exact absurd hw (by simp)

end Ending

namespace Course

/-! ### Endings -/

/-- How a course ends that has its first turn at `now`, after `round` turns at that time. -/
def ending : Course α → Nat → Nat → Ending α
  | ends _ verdict, now, round => ⟨now, round, verdict⟩
  | waits _ time _ rest, now, round => (rest ()).ending time (if time = now then round + 1 else 0)

@[simp] theorem ending_ends (turn : Turn) (verdict : Except Halt α) (now round : Nat) :
    (ends turn verdict).ending now round = ⟨now, round, verdict⟩ := rfl

@[simp] theorem ending_waits (turn : Turn) (time age : Nat) (rest : Unit → Course α)
    (now round : Nat) :
    (waits turn time age rest).ending now round =
      (rest ()).ending time (if time = now then round + 1 else 0) := rfl

@[simp] theorem ending_onto (turn : Turn) (course : Course α) (now round : Nat) :
    (course.onto turn).ending now round = course.ending now round := by
  cases course <;> rfl

/-- A tag makes no difference to when a course ends. -/
@[simp] theorem ending_within (id : String) (course : Course α) (now round : Nat) :
    (course.within id).ending now round =
      { course.ending now round with
        verdict := (course.ending now round).verdict.mapError (Halt.within id) } := by
  induction course generalizing now round with
  | ends turn verdict => rfl
  | waits turn time age rest ih => exact ih () time _

theorem settledAt_timeline (course : Course α) (now round : Nat) :
    (course.timeline now).settledAt = (course.ending now round).time := by
  induction course generalizing now round with
  | ends turn verdict => simp
  | waits turn time age rest ih =>
    rw [timeline_waits, ending_waits]
    exact ih () time _

theorem verdict_timeline (course : Course α) (now round : Nat) :
    (course.timeline now).verdict = (course.ending now round).verdict := by
  induction course generalizing now round with
  | ends turn verdict => simp
  | waits turn time age rest ih =>
    rw [timeline_waits, ending_waits]
    exact ih () time _

/-- How often a course had a turn before makes no difference to when it ends. -/
theorem time_ending (course : Course α) (now r s : Nat) :
    (course.ending now r).time = (course.ending now s).time := by
  -- the timeline knows nothing of the number of turns
  rw [← settledAt_timeline, ← settledAt_timeline]

/-- Nor does it make one to how it ends. -/
theorem verdict_ending (course : Course α) (now r s : Nat) :
    (course.ending now r).verdict = (course.ending now s).verdict := by
  rw [← verdict_timeline, ← verdict_timeline]

/-! ### Time does not run backwards -/

/-- No turn is earlier than the one that leads to it; the first is at `now`. -/
def Forward : Course α → Nat → Prop
  | ends _ _, _ => True
  | waits _ time _ rest, now => now ≤ time ∧ (rest ()).Forward time

@[simp] theorem forward_ends (turn : Turn) (verdict : Except Halt α) (now : Nat) :
    (ends turn verdict).Forward now := trivial

@[simp] theorem forward_waits (turn : Turn) (time age : Nat) (rest : Unit → Course α) (now : Nat) :
    (waits turn time age rest).Forward now ↔ now ≤ time ∧ (rest ()).Forward time := Iff.rfl

@[simp] theorem forward_onto (turn : Turn) (course : Course α) (now : Nat) :
    (course.onto turn).Forward now ↔ course.Forward now := by
  cases course <;> rfl

@[simp] theorem forward_within (id : String) (course : Course α) (now : Nat) :
    (course.within id).Forward now ↔ course.Forward now := by
  induction course generalizing now with
  | ends turn verdict => rfl
  | waits turn time age rest ih => exact and_congr_right fun _ => ih () time

theorem Forward.bind {course : Course α} {now : Nat} {next : Nat → Turn → α → Course β}
    (h : course.Forward now) (hnext : ∀ time turn a, (next time turn a).Forward time) :
    (course.bind now next).Forward now := by
  induction course generalizing now with
  | ends turn verdict =>
    cases verdict with
    | ok a => exact hnext now turn a
    | error why => trivial
  | waits turn time age rest ih => exact ⟨h.1, ih () h.2⟩

/-- The end is not before now, and if it is now, it is not before the turns that were now. -/
theorem le_ending {course : Course α} {now : Nat} (h : course.Forward now) (round : Nat) :
    now ≤ (course.ending now round).time ∧
      ((course.ending now round).time = now → round ≤ (course.ending now round).round) := by
  induction course generalizing now round with
  | ends turn verdict => simp
  | waits turn time age rest ih =>
    obtain ⟨hle, hrest⟩ := h
    have hend := ih () hrest (if time = now then round + 1 else 0)
    rw [ending_waits]
    refine ⟨Nat.le_trans hle hend.1, fun ht => ?_⟩
    -- an end at `now` leaves no room for a later turn in between
    have htime : time = now := Nat.le_antisymm (ht ▸ hend.1) hle
    have hround := hend.2 (ht.trans htime.symm)
    rw [if_pos htime] at hround ⊢
    exact Nat.le_of_succ_le hround

/-! ### What happens on the way -/

/-- Every event in every turn has a property. -/
def Every (P : Event → Prop) : Course α → Prop
  | ends turn _ => ∀ event ∈ turn.events, P event
  | waits turn _ _ rest => (∀ event ∈ turn.events, P event) ∧ (rest ()).Every P

variable {P : Event → Prop}

/-- What a course goes on with needs to be looked at for the value only that the course ends
with. -/
theorem Every.bind {course : Course α} {now : Nat} {next : Nat → Turn → α → Course β}
    (h : course.Every P)
    (hnext : ∀ time turn a, (course.ending now 0).verdict = .ok a →
      (∀ event ∈ turn.events, P event) → (next time turn a).Every P) :
    (course.bind now next).Every P := by
  induction course generalizing now with
  | ends turn verdict =>
    -- the course goes on in its last turn, in which everything has the property already
    cases verdict with
    | ok a => exact hnext now turn a rfl h
    | error why => exact h
  | waits turn time age rest ih =>
    -- the number of turns before makes no difference to the value
    refine ⟨h.1, ih () h.2 fun later part a hv => hnext later part a ?_⟩
    rw [ending_waits, verdict_ending _ _ _ 0, hv]

@[simp] theorem every_within (id : String) (course : Course α) :
    (course.within id).Every P ↔ course.Every P := by
  induction course with
  | ends turn verdict => rfl
  | waits turn time age rest ih => exact and_congr_right fun _ => ih ()

theorem Every.timeline {course : Course α} (h : course.Every P) (now : Nat) :
    ∀ entry ∈ (course.timeline now).trace, P entry.2 := by
  induction course generalizing now with
  | ends turn verdict =>
    intro entry he
    simp only [timeline_ends, List.mem_reverse, List.mem_map] at he
    obtain ⟨event, hm, rfl⟩ := he
    exact h event hm
  | waits turn time age rest ih =>
    intro entry he
    simp only [timeline_waits, Timeline.after, List.mem_append, List.mem_reverse,
      List.mem_map] at he
    rcases he with ⟨event, hm, rfl⟩ | he
    · exact h.1 event hm
    · exact ih () h.2 time entry he

end Course

end SigilExpr
