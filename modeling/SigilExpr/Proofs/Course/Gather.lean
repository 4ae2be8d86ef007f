import Mathlib.Algebra.BigOperators.Group.List.Basic
import Mathlib.Algebra.Order.Group.Multiset
import Mathlib.Tactic.Abel
import SigilExpr.Proofs.Course.Join

/-!
# What happens in a group that has all values

A group that fails leaves its members where they are. A group that has all values has seen every
member to its end, so all that happens in the courses of the members happens in the course of the
group, at the same times and as often, and nothing else does (`Course.join_gathers`). Who has a turn
before whom decides about the order of events only, and that is left open here: dated events are
counted as a multiset.

The invariant is the sum of what has happened in a turn so far and of what the members have ahead of
them: a round and a service only move events from the one to the other.
-/

namespace SigilExpr

variable {α : Type}

/-! ### Dated events -/

/-- What has happened in a turn at `now`. -/
def Turn.dated (turn : Turn) (now : Nat) : Multiset (Nat × Event) := turn.events.map (now, ·)

/-- What happens in a course whose first turn is at `now`. -/
def Course.dated (course : Course α) (now : Nat) : Multiset (Nat × Event) :=
  (course.timeline now).trace

/-- What happens in the turns to come of a sibling. -/
def Sleeper.ahead (sleeper : Sleeper α) : Multiset (Nat × Event) :=
  (sleeper.rest ()).dated sleeper.alarm.time

/-- What happens in the turns to come of a member. -/
def Member.ahead : Member α → Multiset (Nat × Event)
  | settled _ => 0
  | pending sleeper => sleeper.ahead

/-- What happens in the turns to come of those who are still there. -/
def Crowd.ahead (crowd : Crowd α) : Multiset (Nat × Event) :=
  ((crowd.ready ++ crowd.asleep).map fun strand => strand.ahead).sum

@[simp] theorem Turn.dated_start (now : Nat) : Turn.start.dated now = 0 := rfl

@[simp] theorem Turn.dated_absorb (turn part : Turn) (now : Nat) :
    (turn.absorb part).dated now = turn.dated now + part.dated now := by
  rw [dated, events_absorb, List.map_append, ← Multiset.coe_add, add_comm]
  rfl

@[simp] theorem Turn.dated_noteAll (turn : Turn) (events : List Event) (now : Nat) :
    (turn.noteAll events).dated now = turn.dated now + events.map (now, ·) := by
  have hperm : (turn.noteAll events).events.Perm (turn.events ++ events) := by
    rw [noteAll, List.reverseAux_eq]
    exact List.perm_append_comm.trans ((List.reverse_perm events).append_left _)
  have hmap := hperm.map fun event => (now, event)
  rw [List.map_append] at hmap
  exact Multiset.coe_eq_coe.2 hmap

@[simp] theorem Turn.dated_wake (turn : Turn) (now : Nat) :
    turn.wake.dated now = turn.dated now := rfl

namespace Course

@[simp] theorem dated_ends (turn : Turn) (verdict : Except Halt α) (now : Nat) :
    (ends turn verdict).dated now = turn.dated now := by
  rw [dated, timeline_ends]
  exact Multiset.coe_eq_coe.2 (List.reverse_perm _)

@[simp] theorem dated_waits (turn : Turn) (time age : Nat) (rest : Unit → Course α) (now : Nat) :
    (waits turn time age rest).dated now = turn.dated now + (rest ()).dated time := by
  rw [dated, timeline_waits, Timeline.after, ← Multiset.coe_add]
  exact congrArg (· + _) (Multiset.coe_eq_coe.2 (List.reverse_perm _))

/-! ### Groups that are watched together -/

theorem firstRound_gathers {starts : List (Turn → Course α)}
    (h : ∀ start ∈ starts, Extends start) (now : Nat) {turn turn' : Turn}
    {before after : List (Member α)} (hr : firstRound starts turn before = (turn', .ok after)) :
    turn'.dated now + (after.map Member.ahead).sum =
      turn.dated now + (before.map Member.ahead).sum +
        (starts.map fun start => (start .start).dated now).sum := by
  induction starts generalizing turn before with
  | nil =>
    obtain ⟨rfl, rfl⟩ : turn = turn' ∧ before.reverse = after := by simpa [firstRound] using hr
    simp [List.sum_reverse]
  | cons start starts ih =>
    obtain ⟨hextends, hrest⟩ := List.forall_mem_cons.1 h
    have hstart : start turn = (start .start).onto turn := hextends turn
    rw [firstRound, hstart] at hr
    rw [List.map_cons, List.sum_cons]
    -- what happens in the first turn is in the turn of the group now, the rest is still to come
    cases hc : start .start with
    | ends part verdict =>
      rw [hc] at hr
      cases verdict with
      | error why => simp [onto] at hr
      | ok a =>
        rw [ih hrest hr, List.map_cons, List.sum_cons, Turn.dated_absorb, Member.ahead, dated_ends]
        abel
    | waits part time age rest =>
      rw [hc] at hr
      rw [ih hrest hr, List.map_cons, List.sum_cons, Turn.dated_absorb, Member.ahead, dated_waits,
        Sleeper.ahead, Sleeper.after]
      abel

theorem round_gathers {now index : Nat} {members : List (Member α)} {endings : List (Ending α)}
    (h : List.Forall₂ (Member.Promises now index) members endings) (count : Nat)
    {turn turn' : Turn} {before after : List (Member α)}
    (hr : round now count members turn before = (turn', .ok after)) :
    turn'.dated now + (after.map Member.ahead).sum =
      turn.dated now + (before.map Member.ahead).sum + (members.map Member.ahead).sum := by
  induction h generalizing turn before with
  | nil =>
    obtain ⟨rfl, rfl⟩ : turn = turn' ∧ before.reverse = after := by simpa [round] using hr
    simp [List.sum_reverse]
  | @cons member e members endings hm _ ih =>
    rw [List.map_cons, List.sum_cons]
    cases member with
    | settled a =>
      rw [ih hr, List.map_cons, List.sum_cons]
      abel
    | pending sleeper =>
      rw [round] at hr
      split at hr
      · rename_i hdue
        -- its alarm goes off now, so what happens in this turn happens at this time
        have htime : sleeper.alarm.time = now :=
          Nat.le_antisymm (by simpa [Sleeper.due] using hdue) hm.1
        rw [Member.ahead, Sleeper.ahead, htime]
        cases hrest : sleeper.rest () with
        | ends part verdict =>
          rw [hrest] at hr
          cases verdict with
          | error why => simp at hr
          | ok a =>
            rw [ih hr, List.map_cons, List.sum_cons, Turn.dated_absorb, Member.ahead, dated_ends]
            abel
        | waits part time age rest =>
          rw [hrest] at hr
          rw [ih hr, List.map_cons, List.sum_cons, Turn.dated_absorb, Member.ahead, dated_waits,
            Sleeper.ahead, Sleeper.after]
          abel
      · rw [ih hr, List.map_cons, List.sum_cons]
        abel

private theorem ahead_of_settled {members : List (Member α)}
    (h : members.filterMap Member.alarm? = []) : (members.map Member.ahead).sum = 0 := by
  induction members with
  | nil => rfl
  | cons member members ih =>
    cases member with
    | settled a => simpa [Member.ahead] using ih (by simpa [Member.alarm?] using h)
    | pending sleeper => simp [Member.alarm?] at h

theorem watch_gathers {now index : Nat} {members : List (Member α)} {endings : List (Ending α)}
    (h : List.Forall₂ (Member.Promises now index) members endings) (count : Nat) (turn : Turn)
    {vs : List α} (hv : ((watch members count turn).timeline now).verdict = .ok vs) :
    (watch members count turn).dated now = turn.dated now + (members.map Member.ahead).sum := by
  fun_induction watch members count turn generalizing now index with
  | case1 members count turn hs =>
    rw [dated_ends, ahead_of_settled (Alarm.soonest_eq_none_iff.1 hs), add_zero]
  | case2 members count turn alarm hs ih =>
    obtain ⟨hnow, -⟩ := exists_time_le h (Alarm.mem_of_soonest hs)
    have hnext := promises_advance h hnow fun a ha => Alarm.time_le_of_soonest hs ha
    rw [timeline_waits] at hv
    rw [dated_waits]
    -- the group has its values in the end, so this round leaves everybody there
    rcases round_settles hnext (count + 1) .start [] with
      ⟨turn', after, hr, hafter⟩ | ⟨turn', why, hr, -⟩
    · rw [List.reverse_nil, List.nil_append] at hr
      have hround := round_gathers hnext (count + 1) hr
      split at hv
      · rename_i t a ht
        obtain ⟨rfl, rfl⟩ : t = turn' ∧ a = after := by simpa [hr] using ht.symm
        have hsum : t.dated alarm.time + (a.map Member.ahead).sum =
            (members.map Member.ahead).sum := by simpa using hround
        calc turn.dated now + (watch a (count + 1) t).dated alarm.time
          _ = turn.dated now + (t.dated alarm.time + (a.map Member.ahead).sum) := by
            rw [ih _ _ hr hafter hv]
          _ = turn.dated now + (members.map Member.ahead).sum := by rw [hsum]
      · rename_i t w ht
        simp [hr] at ht
    · split at hv
      · rename_i t a ht
        simp [hr] at ht
      · simp [Timeline.after] at hv

theorem narrow_gathers {now : Nat} {starts : List (Turn → Course α)} {endings : List (Ending α)}
    (h : List.Forall₂ (Starts now) starts endings) (turn : Turn) {vs : List α}
    (hv : ((narrow starts turn).timeline now).verdict = .ok vs) :
    (narrow starts turn).dated now =
      turn.dated now + (starts.map fun start => (start .start).dated now).sum := by
  have hextends : ∀ start ∈ starts, Extends start := fun start hm => by
    obtain ⟨_, _, hs⟩ := h.flip.exists_left_of_mem hm
    exact hs.extend
  rw [narrow] at hv ⊢
  rcases firstRound_settles h turn [] with ⟨turn', after, hr, hafter⟩ | ⟨turn', why, hr, -⟩
  · rw [List.reverse_nil, List.nil_append] at hr
    rw [hr] at hv ⊢
    calc (watch after 0 turn').dated now
      _ = turn'.dated now + (after.map Member.ahead).sum := watch_gathers hafter 0 turn' hv
      _ = turn.dated now + (starts.map fun start => (start .start).dated now).sum := by
        simpa using firstRound_gathers hextends now hr
  · rw [hr] at hv
    simp at hv

end Course

namespace Crowd

/-! ### Groups that are served from a queue -/

variable {now : Nat} {endings : List (Ending α)}

/-- A service has moved events from those ahead into the turn, unless it has ended the group. -/
def ServeGathers (crowd : Crowd α) (now : Nat) (turn : Turn) : Turn × Service α → Prop
  | (_, .over _) => True
  | (turn', .settled after) => turn'.dated now + after.ahead = turn.dated now + crowd.ahead
  | (turn', .pending after) => turn'.dated now + after.ahead = turn.dated now + crowd.ahead

private theorem ahead_of_perm {xs ys : List (Strand α)} (h : xs.Perm ys) :
    (xs.map fun strand => strand.ahead).sum = (ys.map fun strand => strand.ahead).sum :=
  (h.map _).sum_eq

theorem serve_gathers {crowd : Crowd α} {strand : Strand α} {ready : List (Strand α)}
    (hready : crowd.ready = strand :: ready) (hle : now ≤ strand.alarm.time) (turn : Turn) :
    ServeGathers crowd now turn (serve { crowd with ready } strand now turn) := by
  have hahead : crowd.ahead =
      strand.ahead + ((ready ++ crowd.asleep).map fun strand => strand.ahead).sum := by
    rw [ahead, hready, List.cons_append, List.map_cons, List.sum_cons]
  -- whoever falls asleep is one more of those who are there
  have hasleep : ∀ next : Strand α,
      ((ready ++ fallAsleep next crowd.asleep).map fun strand => strand.ahead).sum =
        next.ahead + ((ready ++ crowd.asleep).map fun strand => strand.ahead).sum := by
    intro next
    have hperm : (ready ++ fallAsleep next crowd.asleep).Perm (next :: (ready ++ crowd.asleep)) :=
      ((perm_fallAsleep next crowd.asleep).append_left ready).trans List.perm_middle
    rw [ahead_of_perm hperm, List.map_cons, List.sum_cons]
  by_cases hdue : strand.due now = true
  · have htime : strand.alarm.time = now :=
      Nat.le_antisymm (by simpa [Sleeper.due] using hdue) hle
    rw [serve, if_pos hdue]
    rw [Sleeper.ahead, htime] at hahead
    cases hrest : strand.rest () with
    | ends part verdict =>
      rw [hrest, Course.dated_ends] at hahead
      simp only
      split
      · rename_i after hs
        obtain ⟨hr, ha⟩ := strands_of_settle hs
        simp only [ServeGathers, Turn.dated_absorb, hahead]
        rw [ahead, hr, ha]
        abel
      · trivial
    | waits part time age rest =>
      rw [hrest, Course.dated_waits] at hahead
      simp only
      split
      · have hperm : ∀ next : Strand α, ((ready ++ [next]) ++ crowd.asleep).Perm
            (next :: (ready ++ crowd.asleep)) := fun next => by
          rw [List.append_assoc, List.singleton_append]
          exact List.perm_middle
        simp only [ServeGathers, Turn.dated_absorb, hahead]
        rw [ahead, ahead_of_perm (hperm _), List.map_cons, List.sum_cons, Sleeper.ahead,
          Sleeper.after]
        abel
      · simp only [ServeGathers, Turn.dated_absorb, hahead]
        rw [ahead, hasleep, Sleeper.ahead, Sleeper.after]
        abel
  · rw [serve, if_neg hdue]
    simp only [ServeGathers, hahead]
    rw [ahead, hasleep]

/-- **A group that is served from a queue** and has all values has seen everybody to the end. -/
theorem attend_gathers {crowd : Crowd α} (h : crowd.Promises now endings) (turn : Turn)
    {vs : List α} (hv : ((crowd.attend now turn).timeline now).verdict = .ok vs) :
    (crowd.attend now turn).dated now = turn.dated now + crowd.ahead := by
  have hle : ∀ {crowd : Crowd α} {now : Nat} {strand : Strand α} {ready : List (Strand α)},
      crowd.Promises now endings → crowd.ready = strand :: ready → now ≤ strand.alarm.time :=
    fun h hready => (h.promise _ (by rw [hready]; exact List.mem_cons_self)).1
  fun_induction attend crowd now turn with
  | case1 crowd now turn hready hs =>
    have hasleep : crowd.asleep = [] := by
      simpa using Alarm.soonest_eq_none_iff.1 hs
    simp [ahead, hready, hasleep]
  | case2 crowd now turn hready alarm hs ih =>
    obtain ⟨-, -, hring⟩ := h.ring hready hs
    -- whoever is woken or sleeps on was asleep before
    have hahead : (crowd.ring alarm.time).openTurn.ahead = crowd.ahead := by
      refine ahead_of_perm ?_
      rw [hready, List.nil_append]
      exact ((List.reverse_perm _).append_right _).trans (List.filter_append_perm _ _)
    rw [Course.timeline_waits] at hv
    rw [Course.dated_waits]
    calc turn.dated now +
        ((crowd.ring alarm.time).openTurn.attend alarm.time .start).dated alarm.time
      _ = turn.dated now + (crowd.ring alarm.time).openTurn.ahead := by
        rw [ih hring.openTurn hv, Turn.dated_start, zero_add]
      _ = turn.dated now + crowd.ahead := by rw [hahead]
  | case3 crowd now turn strand ready hready turn' why hs => simp at hv
  | case4 crowd now turn strand ready hready turn' after hs ih =>
    have hsound := serve_sound hready h turn
    have hgathers := serve_gathers hready (hle h hready) turn
    rw [hs] at hsound hgathers
    rw [ih hsound hv]
    exact hgathers
  | case5 crowd now turn strand ready hready turn' after hs htired ih =>
    have hsound := serve_sound hready h turn
    have hgathers := serve_gathers hready (hle h hready) turn
    rw [hs] at hsound hgathers
    -- a turn that is given up takes nothing along
    have hopen : after.openTurn.ahead = after.ahead := rfl
    rw [Course.timeline_waits] at hv
    rw [Course.dated_waits, Turn.dated_wake]
    calc turn'.dated now + (after.openTurn.attend now .start).dated now
      _ = turn'.dated now + after.ahead := by
        rw [ih (Promises.openTurn hsound) hv, Turn.dated_start, zero_add, hopen]
      _ = turn.dated now + crowd.ahead := hgathers
  | case6 crowd now turn strand ready hready turn' after hs htired ih =>
    have hsound := serve_sound hready h turn
    have hgathers := serve_gathers hready (hle h hready) turn
    rw [hs] at hsound hgathers
    rw [ih hsound hv]
    exact hgathers

end Crowd

theorem Course.wide_gathers {now : Nat} {starts : List (Turn → Course α)}
    {endings : List (Ending α)} (h : List.Forall₂ (Starts now) starts endings) (turn : Turn)
    {vs : List α}
    (hv : ((wide (starts.map fun start _ => start .start) now turn).timeline now).verdict =
      .ok vs) :
    (wide (starts.map fun start _ => start .start) now turn).dated now =
      turn.dated now + (starts.map fun start => (start .start).dated now).sum := by
  have hahead : (Crowd.ofStarts now (starts.map fun start _ => start .start)).ahead =
      (starts.map fun start => (start .start).dated now).sum := by
    -- everybody is called at `now`, whatever the position
    have hmap : (starts.map fun start => (start .start).dated now) =
        (starts.zipIdx.map Prod.fst).map fun start => (start .start).dated now := by
      rw [List.zipIdx_map_fst]
    rw [hmap, Crowd.ahead, Crowd.ofStarts, List.append_nil, List.zipIdx_map, List.map_map,
      List.map_map, List.map_map]
    rfl
  rw [wide, Crowd.attend_gathers (Crowd.promises_ofStarts h) turn hv, hahead]

/-- **A group that has all values** has seen every member to its end: what happens in it is what
happened in its turn before, and all that happens to the members. -/
theorem Course.join_gathers {now : Nat} {starts : List (Turn → Course α)}
    {endings : List (Ending α)} (h : List.Forall₂ (Starts now) starts endings) (turn : Turn)
    {vs : List α} (hv : ((join starts now turn).timeline now).verdict = .ok vs) :
    (join starts now turn).dated now =
      turn.dated now + (starts.map fun start => (start .start).dated now).sum := by
  unfold join at hv ⊢
  split
  · rename_i hle
    rw [if_pos hle] at hv
    exact narrow_gathers h turn hv
  · rename_i hle
    rw [if_neg hle] at hv
    exact wide_gathers h turn hv

end SigilExpr
