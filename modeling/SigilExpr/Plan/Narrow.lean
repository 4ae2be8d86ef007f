import SigilExpr.Plan.Course

/-!
# Siblings that are watched together

A small group of siblings has its turns in rounds. In each round everybody whose alarm has gone off
has a turn, in the order of positions. The first that ends without a value ends the group there and
then; if all have values, the group ends with them.

The course of a group is `narrow`. It is well founded by the number of turns to come: in every
round that is waited for, somebody's alarm goes off.
-/

namespace SigilExpr

variable {α : Type}

/-- A sibling in a group that is watched together. -/
inductive Member (α : Type) where
  /-- It has a value. -/
  | settled (a : α)
  /-- It waits. -/
  | pending (sleeper : Sleeper α)

namespace Member

/-- The value, if there is one. -/
def value? : Member α → Option α
  | settled a => some a
  | pending _ => none

/-- The alarm that it waits for, if it does. -/
def alarm? : Member α → Option Alarm
  | settled _ => none
  | pending sleeper => some sleeper.alarm

/-- The number of turns to come. -/
def length : Member α → Nat
  | settled _ => 0
  | pending sleeper => sleeper.length

/-- The number of turns to come of all members. -/
def total : List (Member α) → Nat
  | [] => 0
  | member :: members => member.length + total members

end Member

namespace Course

/-- The first round: everybody has a turn as part of `turn`, in order, up to the first that ends
without a value. The members so far are in `before`, the latest first. -/
def firstRound : List (Turn → Course α) → Turn → List (Member α) →
    Turn × Except Halt (List (Member α))
  | [], turn, before => (turn, .ok before.reverse)
  | start :: starts, turn, before =>
    match start turn with
    | .ends turn (.ok a) => firstRound starts turn (.settled a :: before)
    | .ends turn (.error why) => (turn, .error why)
    | .waits turn time age rest =>
      firstRound starts turn (.pending (.after [0] time age rest) :: before)

/-- A round at `now`, which is the turn number `count` of the group: everybody whose alarm has gone
off has a turn as part of `turn`, in order, up to the first that ends without a value. The members
so far are in `before`, the latest first. -/
def round (now count : Nat) : List (Member α) → Turn → List (Member α) →
    Turn × Except Halt (List (Member α))
  | [], turn, before => (turn, .ok before.reverse)
  | .settled a :: members, turn, before => round now count members turn (.settled a :: before)
  | .pending sleeper :: members, turn, before =>
    if sleeper.due now then
      match sleeper.rest () with
      | .ends part (.ok a) => round now count members (turn.absorb part) (.settled a :: before)
      | .ends part (.error why) => (turn.absorb part, .error why)
      | .waits part time age rest =>
        round now count members (turn.absorb part)
          (.pending (.after (count :: sleeper.turns) time age rest) :: before)
    else round now count members turn (.pending sleeper :: before)

/-! ### Every round that is waited for makes progress -/

private theorem total_cons (member : Member α) (members : List (Member α)) :
    Member.total (member :: members) = member.length + Member.total members := rfl

private theorem total_reverse (members : List (Member α)) :
    Member.total members.reverse = Member.total members := by
  have happend : ∀ xs ys : List (Member α),
      Member.total (xs ++ ys) = Member.total xs + Member.total ys := by
    intro xs ys
    induction xs with
    | nil => simp [Member.total]
    | cons member members ih => simp only [List.cons_append, total_cons, ih, Nat.add_assoc]
  induction members with
  | nil => rfl
  | cons member members ih =>
    simp only [List.reverse_cons, happend, ih, Member.total]
    omega

private theorem total_round {now count : Nat} {members before after : List (Member α)}
    {turn turn' : Turn} (h : round now count members turn before = (turn', .ok after)) :
    Member.total after ≤ Member.total members + Member.total before ∧
      ((∃ sleeper, .pending sleeper ∈ members ∧ sleeper.due now) →
        Member.total after < Member.total members + Member.total before) := by
  induction members generalizing turn before with
  | nil =>
    simp only [round, Prod.mk.injEq, Except.ok.injEq] at h
    simp [← h.2, Member.total, total_reverse]
  | cons member members ih =>
    cases member with
    | settled a =>
      have ih := ih h
      simp only [total_cons, Member.length] at ih ⊢
      simpa [Nat.add_comm, Nat.add_left_comm] using ih
    | pending sleeper =>
      by_cases hd : sleeper.due now = true
      -- its alarm has gone off: whatever comes of the turn, it has fewer to come
      · simp only [round, hd, if_true] at h
        split at h
        · have ih := ih h
          simp only [total_cons, Member.length, Sleeper.length] at ih ⊢
          omega
        · simp at h
        · rename_i time age rest hr
          have ih := ih h
          have hs : (sleeper.rest ()).length = (rest ()).length + 1 := by rw [hr]; rfl
          simp only [total_cons, Member.length, Sleeper.length, Sleeper.after, hs] at ih ⊢
          omega
      -- it goes on waiting, so somebody else is the one whose alarm has gone off
      · simp only [round, hd] at h
        have ih := ih h
        simp only [total_cons] at ih ⊢
        refine ⟨by omega, fun ⟨s, hs, hdue⟩ => ?_⟩
        have : s ≠ sleeper := fun he => hd (he ▸ hdue)
        have := ih.2 ⟨s, by simpa [this] using hs, hdue⟩
        omega

private theorem total_round_lt {members after : List (Member α)} {alarm : Alarm} {count : Nat}
    {turn turn' : Turn} (hs : Alarm.soonest (members.filterMap Member.alarm?) = some alarm)
    (h : round alarm.time count members turn [] = (turn', .ok after)) :
    Member.total after < Member.total members := by
  obtain ⟨member, hm, ha⟩ := List.mem_filterMap.1 (Alarm.mem_of_soonest hs)
  cases member with
  | settled a => simp [Member.alarm?] at ha
  | pending sleeper =>
    refine (total_round h).2 ⟨sleeper, hm, ?_⟩
    simp only [Member.alarm?, Option.some.injEq] at ha
    simp [Sleeper.due, ha]

/-! ### The group -/

/-- The further course of a group whose turn number `count` is over and has come to `turn`. -/
def watch (members : List (Member α)) (count : Nat) (turn : Turn) : Course (List α) :=
  match _ : Alarm.soonest (members.filterMap Member.alarm?) with
  | none => .ends turn (.ok (members.filterMap Member.value?))
  | some alarm =>
    .waits turn alarm.time (count - alarm.setIn) fun () =>
      match h : round alarm.time (count + 1) members .start [] with
      | (turn, .ok after) => watch after (count + 1) turn
      | (turn, .error why) => .ends turn (.error why)
termination_by Member.total members
decreasing_by exact total_round_lt (by assumption) h

theorem watch_eq (members : List (Member α)) (count : Nat) (turn : Turn) :
    watch members count turn =
      match Alarm.soonest (members.filterMap Member.alarm?) with
      | none => .ends turn (.ok (members.filterMap Member.value?))
      | some alarm =>
        .waits turn alarm.time (count - alarm.setIn) fun () =>
          match round alarm.time (count + 1) members .start [] with
          | (turn, .ok after) => watch after (count + 1) turn
          | (turn, .error why) => .ends turn (.error why) := by
  rw [watch]
  split
  · simp_all
  · rename_i alarm hs
    rw [hs]
    congr 1
    funext _
    split <;> simp_all

/-- The course of siblings that are watched together. They start as part of `turn`. -/
def narrow (starts : List (Turn → Course α)) (turn : Turn) : Course (List α) :=
  match firstRound starts turn [] with
  | (turn, .ok members) => watch members 0 turn
  | (turn, .error why) => .ends turn (.error why)

/-! ### A first round as part of a turn -/

private theorem firstRound_extends (starts : List (Turn → Course α))
    (h : ∀ start ∈ starts, Extends start) (turn : Turn) (before : List (Member α)) :
    firstRound starts turn before =
      (turn.absorb (firstRound starts .start before).1, (firstRound starts .start before).2) := by
  induction starts generalizing turn before with
  | nil => simp [firstRound]
  | cons start starts ih =>
    have ih := ih fun start hs => h start (List.mem_cons_of_mem _ hs)
    have he := h start List.mem_cons_self turn
    simp only [firstRound]
    rw [he]
    match start .start with
    | .ends part (.error why) => rfl
    | .ends part (.ok a) =>
      simp only [onto]
      rw [ih (turn.absorb part), ih part, Turn.absorb_assoc]
    | .waits part time age rest =>
      simp only [onto]
      rw [ih (turn.absorb part), ih part, Turn.absorb_assoc]

private theorem watch_extends (members : List (Member α)) (count : Nat) (turn part : Turn) :
    watch members count (turn.absorb part) = (watch members count part).onto turn := by
  rw [watch, watch]
  split <;> rfl

/-- A group of siblings that is watched together extends a turn if its members do. -/
theorem narrow_extends (starts : List (Turn → Course α)) (h : ∀ start ∈ starts, Extends start) :
    Extends (narrow starts) := by
  intro turn
  unfold narrow
  rw [firstRound_extends starts h turn]
  match firstRound starts .start [] with
  | (part, .ok members) => exact watch_extends members 0 turn part
  | (part, .error why) => rfl

end Course

end SigilExpr
