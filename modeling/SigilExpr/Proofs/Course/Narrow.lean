import SigilExpr.Proofs.Course.Ending

/-!
# How a group ends that is watched together

A group that is watched together has a value when all its members have one, and fails with the
first member that fails. What its course comes to can be told from the endings of its members alone
(`Course.narrow_settles`):

* `Ending.Delivers` — all members have values; the group has them in order of positions, at the time
  of the last end;
* `Ending.FirstFailed` — the first member that ends without a value, where of several that end in
  one round the lowest position counts.

The proof goes round by round. `Member.Promises` is the invariant: it says of a member, before a
certain round at a certain time, how it is going to end. A round keeps it for the next one, or ends
the group with the first failure (`Course.round_settles`).
-/

namespace SigilExpr

variable {α : Type}

namespace Ending

/-- All have values, and this is the time when the last of them has. -/
structure Delivers (endings : List (Ending α)) (now : Nat) (vs : List α) (time : Nat) : Prop where
  /-- The values, in order of positions. -/
  values : List.Forall₂ (fun e v => e.verdict = .ok v) endings vs
  /-- Nobody ends later. -/
  le_time : ∀ e ∈ endings, e.time ≤ time
  /-- Somebody ends then, unless everything is over from the start. -/
  attained : time = now ∨ ∃ e ∈ endings, e.time = time

/-- The first failure: nobody at a lower position fails as early, and nobody at a higher one
earlier. -/
def FirstFailed (endings : List (Ending α)) (e : Ending α) : Prop :=
  e.Failed ∧ ∃ front back, endings = front ++ e :: back ∧
    (∀ f ∈ front, f.Failed → e.before f) ∧ (∀ f ∈ back, f.Failed → ¬ f.before e)

theorem FirstFailed.head {endings : List (Ending α)} {e : Ending α} (he : e.Failed)
    (h : ∀ f ∈ endings, f.Failed → ¬ f.before e) : FirstFailed (e :: endings) e :=
  ⟨he, [], endings, rfl, by simp, h⟩

theorem FirstFailed.cons {endings : List (Ending α)} {d e : Ending α} (h : FirstFailed endings e)
    (hd : d.Failed → e.before d) : FirstFailed (d :: endings) e := by
  obtain ⟨he, front, back, rfl, hfront, hback⟩ := h
  refine ⟨he, d :: front, back, rfl, fun f hf => ?_, hback⟩
  rcases List.mem_cons.1 hf with rfl | hf
  · exact hd
  · exact hfront f hf

/-- The end of a group that is watched together. -/
def Settles (endings : List (Ending α)) (now : Nat) (out : Ending (List α)) : Prop :=
  (∃ vs, out.verdict = .ok vs ∧ Delivers endings now vs out.time) ∨
    ∃ e why, FirstFailed endings e ∧ e.verdict = .error why ∧ out.verdict = .error why ∧
      out.time = e.time

end Ending

namespace Ending

theorem Settles.of_later {endings : List (Ending α)} {now time : Nat} {out : Ending (List α)}
    (h : Settles endings time out) (hlate : ∃ e ∈ endings, time ≤ e.time) :
    Settles endings now out := by
  rcases h with ⟨vs, hv, hvs, hle, hat⟩ | hfail
  · refine .inl ⟨vs, hv, hvs, hle, .inr ?_⟩
    rcases hat with hat | hat
    · -- whoever was to end at `time` or later has ended by `time`
      obtain ⟨e, he, hte⟩ := hlate
      exact ⟨e, he, Nat.le_antisymm (hle e he) (by rw [hat]; exact hte)⟩
    · exact hat
  · exact .inr hfail

end Ending

open Ending

/-! ### What members promise -/

/-- How a sibling ends that starts at `now`. -/
structure Course.Starts (now : Nat) (start : Turn → Course α) (e : Ending α) : Prop where
  /-- Its first turn can be part of another. -/
  extend : Course.Extends start
  /-- It never goes back in time. -/
  forward : (start .start).Forward now
  /-- This is its end. -/
  ending : (start .start).ending now 0 = e

namespace Member

/-- How a member is going to end, before round number `round` at `now`. -/
def Promises (now round : Nat) : Member α → Ending α → Prop
  | settled a, e => e.verdict = .ok a ∧ e.time ≤ now
  | pending sleeper, e =>
    now ≤ sleeper.alarm.time ∧ (sleeper.rest ()).Forward sleeper.alarm.time ∧
      (sleeper.rest ()).ending sleeper.alarm.time
        (if sleeper.alarm.time = now then round else 0) = e

variable {now round : Nat} {member : Member α} {e : Ending α}

/-- A member that has not ended does not end before the round that comes. -/
theorem Promises.not_before (h : member.Promises now round e) {verdict : Except Halt α}
    (hf : e.Failed) : ¬ e.before ⟨now, round, verdict⟩ := by
  cases member with
  | settled a => exact absurd hf (not_failed_of_ok h.1)
  | pending sleeper =>
    obtain ⟨hle, hforward, rfl⟩ := h
    have hend := Course.le_ending hforward (if sleeper.alarm.time = now then round else 0)
    rintro (hlt | ⟨heq, hlt⟩)
    · exact absurd (Nat.le_trans hle hend.1) (Nat.not_le.2 hlt)
    · have htime : sleeper.alarm.time = now :=
        Nat.le_antisymm (Nat.le_trans hend.1 (Nat.le_of_eq heq)) hle
      have hround := hend.2 (heq.trans htime.symm)
      rw [if_pos htime] at hround hlt
      exact absurd hround (Nat.not_le.2 hlt)

/-- A member that is still there after a round ends after that round. -/
theorem Promises.before_of_succ (h : member.Promises now (round + 1) e)
    {verdict : Except Halt α} (hf : e.Failed) : Ending.before ⟨now, round, verdict⟩ e := by
  have hnot : ¬ e.before ⟨now, round + 1, verdict⟩ := h.not_before hf
  unfold Ending.before at hnot ⊢
  simp only at hnot ⊢
  omega

/-- Until the next alarm goes off nothing changes, but rounds are counted afresh at a new time. -/
theorem Promises.advance {time : Nat} (h : member.Promises now round e) (hnow : now ≤ time)
    (htime : ∀ alarm, member.alarm? = some alarm → time ≤ alarm.time) :
    member.Promises time (if time = now then round else 0) e := by
  cases member with
  | settled a => exact ⟨h.1, Nat.le_trans h.2 hnow⟩
  | pending sleeper =>
    obtain ⟨hle, hforward, hend⟩ := h
    have hal : time ≤ sleeper.alarm.time := htime sleeper.alarm rfl
    refine ⟨hal, hforward, ?_⟩
    rw [← hend]
    congr 1
    by_cases hat : sleeper.alarm.time = time
    · rw [if_pos hat, hat]
    · -- an alarm after `time` is an alarm after `now`
      have hne : ¬ sleeper.alarm.time = now := by omega
      rw [if_neg hat, if_neg hne]

end Member

namespace Course

/-! ### Rounds -/

/-- What a round has come to that went through the members in `before` first, the latest of them in
front. Either everybody stays, with a promise for the next round, or the first failure ends the
group. -/
def RoundSettles (now index : Nat) (before : List (Member α)) (endings : List (Ending α))
    (out : Turn × Except Halt (List (Member α))) : Prop :=
  (∃ turn after, out = (turn, .ok (before.reverse ++ after)) ∧
      List.Forall₂ (Member.Promises now (index + 1)) after endings) ∨
    ∃ turn why, out = (turn, .error why) ∧ FirstFailed endings ⟨now, index, .error why⟩

/-- Nobody is left to have a turn. -/
theorem RoundSettles.nil {now index : Nat} {turn : Turn} {before : List (Member α)} :
    RoundSettles now index before [] (turn, .ok before.reverse) :=
  .inl ⟨turn, [], by rw [List.append_nil], .nil⟩

/-- Whoever stays is in front of those who come after it. -/
theorem RoundSettles.cons {now index : Nat} {member : Member α} {before : List (Member α)}
    {e : Ending α} {endings : List (Ending α)} {out : Turn × Except Halt (List (Member α))}
    (h : RoundSettles now index (member :: before) endings out)
    (hp : member.Promises now (index + 1) e) :
    RoundSettles now index before (e :: endings) out := by
  rcases h with ⟨turn, after, rfl, hafter⟩ | ⟨turn, why, rfl, hfirst⟩
  · exact .inl ⟨turn, member :: after, by simp, .cons hp hafter⟩
  · exact .inr ⟨turn, why, rfl, hfirst.cons hp.before_of_succ⟩

/-- A failure ends the group, if nobody who comes after it was to end before this round. -/
theorem RoundSettles.head {now index : Nat} {turn : Turn} {why : Halt} {before : List (Member α)}
    {endings : List (Ending α)}
    (h : ∀ f ∈ endings, f.Failed → ¬ f.before ⟨now, index, .error why⟩) :
    RoundSettles now index before (⟨now, index, .error why⟩ :: endings) (turn, .error why) :=
  .inr ⟨turn, why, rfl, .head ⟨why, rfl⟩ h⟩

/-- **One round.** Either all members stay, and promise the same for the next round, or the first
failure ends the group. -/
theorem round_settles {now index : Nat} {members : List (Member α)}
    {endings : List (Ending α)} (h : List.Forall₂ (Member.Promises now index) members endings)
    (count : Nat) (turn : Turn) (before : List (Member α)) :
    RoundSettles now index before endings (round now count members turn before) := by
  induction h generalizing turn before with
  | nil => exact .nil
  | @cons member e members endings hm hall ih =>
    -- whoever is in front has a turn or not; the others go on after that, with one more in `before`
    cases member with
    | settled a => exact (ih turn (.settled a :: before)).cons ⟨hm.1, hm.2⟩
    | pending sleeper =>
      obtain ⟨hle, hforward, hend⟩ := hm
      by_cases hdue : sleeper.due now = true
      · -- its alarm goes off, so this is one of its turns
        have htime : sleeper.alarm.time = now :=
          Nat.le_antisymm (by simpa [Sleeper.due] using hdue) hle
        rw [htime] at hforward
        rw [if_pos htime, htime] at hend
        rw [round, if_pos hdue]
        cases hrest : sleeper.rest () with
        | ends part verdict =>
          rw [hrest, ending_ends] at hend
          subst hend
          cases verdict with
          | ok a => exact (ih (turn.absorb part) (.settled a :: before)).cons ⟨rfl, Nat.le_refl now⟩
          | error why =>
            -- those after it have had no turn yet, and are not to end before this round
            refine .head fun f hf hfail => ?_
            obtain ⟨member, -, hp⟩ := hall.exists_left_of_mem hf
            exact hp.not_before hfail
        | waits part time age rest =>
          rw [hrest, forward_waits] at hforward
          rw [hrest, ending_waits] at hend
          exact (ih (turn.absorb part) _).cons ⟨hforward.1, hforward.2, hend⟩
      · -- its alarm is for a later time, when rounds are counted afresh
        have hne : ¬ sleeper.alarm.time = now := by
          intro heq
          exact hdue (by simp [Sleeper.due, heq])
        rw [if_neg hne] at hend
        rw [round, if_neg hdue]
        exact (ih turn (.pending sleeper :: before)).cons
          ⟨hle, hforward, by rw [if_neg hne]; exact hend⟩

/-- **The first round**, in which everybody has a turn. -/
theorem firstRound_settles {now : Nat} {starts : List (Turn → Course α)}
    {endings : List (Ending α)} (h : List.Forall₂ (Starts now) starts endings) (turn : Turn)
    (before : List (Member α)) :
    RoundSettles now 0 before endings (firstRound starts turn before) := by
  induction h generalizing turn before with
  | nil => exact .nil
  | @cons start e starts endings hs hall ih =>
    obtain ⟨hext, hforward, hend⟩ := hs
    -- the first turn is part of the turn of the group, but it comes to the same as on its own
    have hstart := hext turn
    rw [firstRound]
    cases hc : start .start with
    | ends part verdict =>
      rw [hc, onto] at hstart
      rw [hc] at hend
      subst hend
      rw [hstart]
      cases verdict with
      | ok a => exact (ih (turn.absorb part) (.settled a :: before)).cons ⟨rfl, Nat.le_refl now⟩
      | error why =>
        refine .head fun f hf hfail => ?_
        -- nobody ends before the turn in which all start
        obtain ⟨start, -, hs⟩ := hall.exists_left_of_mem hf
        have hle := le_ending hs.forward 0
        rw [hs.ending] at hle
        rintro (hlt | ⟨-, hlt⟩)
        · exact absurd hle.1 (Nat.not_le.2 hlt)
        · exact absurd hlt (Nat.not_lt_zero _)
    | waits part time age rest =>
      rw [hc, onto] at hstart
      rw [hc, forward_waits] at hforward
      rw [hc] at hend
      rw [hstart]
      exact (ih (turn.absorb part) _).cons ⟨hforward.1, hforward.2, hend⟩

/-! ### The group -/

private theorem values_of_settled {now index : Nat} {members : List (Member α)}
    {endings : List (Ending α)} (h : List.Forall₂ (Member.Promises now index) members endings)
    (hm : members.filterMap Member.alarm? = []) :
    List.Forall₂ (fun e v => e.verdict = .ok v) endings (members.filterMap Member.value?) ∧
      ∀ e ∈ endings, e.time ≤ now := by
  induction h with
  | nil => exact ⟨.nil, by simp⟩
  | @cons member e members endings hp _ ih =>
    cases member with
    | pending sleeper => simp [Member.alarm?] at hm
    | settled a =>
      obtain ⟨hvs, hle⟩ := ih (by simpa [Member.alarm?] using hm)
      refine ⟨by simpa [Member.value?] using ⟨hp.1, hvs⟩, fun f hf => ?_⟩
      rcases List.mem_cons.1 hf with rfl | hf
      · exact hp.2
      · exact hle f hf

theorem promises_advance {now index time : Nat} {members : List (Member α)}
    {endings : List (Ending α)} (h : List.Forall₂ (Member.Promises now index) members endings)
    (hnow : now ≤ time)
    (htime : ∀ alarm ∈ members.filterMap Member.alarm?, time ≤ alarm.time) :
    List.Forall₂ (Member.Promises time (if time = now then index else 0)) members endings := by
  induction h with
  | nil => exact .nil
  | @cons member e members endings hp _ ih =>
    refine .cons (hp.advance hnow fun alarm ha => ?_) (ih fun alarm ha => ?_)
    · exact htime alarm (by simp [ha])
    · exact htime alarm (List.mem_filterMap.2 (by simpa using .inr (by simpa using ha)))

/-- A member that waits for an alarm ends no earlier than that. -/
theorem exists_time_le {now index : Nat} {members : List (Member α)}
    {endings : List (Ending α)} {alarm : Alarm}
    (h : List.Forall₂ (Member.Promises now index) members endings)
    (ha : alarm ∈ members.filterMap Member.alarm?) :
    now ≤ alarm.time ∧ ∃ e ∈ endings, alarm.time ≤ e.time := by
  induction h with
  | nil => simp at ha
  | @cons member e members endings hp _ ih =>
    rcases List.mem_filterMap.1 ha with ⟨m, hm, hma⟩
    rcases List.mem_cons.1 hm with rfl | hm
    · cases m with
      | settled a => simp [Member.alarm?] at hma
      | pending sleeper =>
        obtain rfl : sleeper.alarm = alarm := by simpa [Member.alarm?] using hma
        obtain ⟨hle, hforward, rfl⟩ := hp
        exact ⟨hle, _, List.mem_cons_self, (le_ending hforward _).1⟩
    · obtain ⟨hle, f, hf, hft⟩ := ih (List.mem_filterMap.2 ⟨m, hm, hma⟩)
      exact ⟨hle, f, List.mem_cons_of_mem e hf, hft⟩

/-- **The further rounds.** Each that comes goes by the alarm that goes off first. -/
theorem watch_settles {now index : Nat} {members : List (Member α)} {endings : List (Ending α)}
    (h : List.Forall₂ (Member.Promises now index) members endings) (count : Nat) (turn : Turn) :
    (watch members count turn).Forward now ∧
      ∀ r, Settles endings now ((watch members count turn).ending now r) := by
  fun_induction watch members count turn generalizing now index with
  | case1 members count turn hs =>
    -- nobody waits for an alarm, so everybody has a value
    obtain ⟨hvs, hle⟩ := values_of_settled h (Alarm.soonest_eq_none_iff.1 hs)
    exact ⟨trivial, fun r => .inl ⟨_, rfl, hvs, hle, .inl rfl⟩⟩
  | case2 members count turn alarm hs ih =>
    obtain ⟨hnow, hlate⟩ := exists_time_le h (Alarm.mem_of_soonest hs)
    -- until then nothing happens, and the promises are those for the round at that time
    have hnext := promises_advance h hnow fun a ha => Alarm.time_le_of_soonest hs ha
    rcases round_settles hnext (count + 1) .start [] with
      ⟨turn', after, hr, hafter⟩ | ⟨turn', why, hr, hfirst⟩
    · have hih := ih turn' after hr hafter
      rw [forward_waits]
      simp only [ending_waits]
      split
      · rename_i t a ht
        obtain ⟨rfl, rfl⟩ : t = turn' ∧ a = after := by simpa [hr] using ht.symm
        exact ⟨⟨hnow, hih.1⟩, fun r => (hih.2 _).of_later hlate⟩
      · rename_i t why ht
        simp [hr] at ht
    · rw [forward_waits]
      simp only [ending_waits]
      split
      · rename_i t a ht
        simp [hr] at ht
      · rename_i t w ht
        obtain ⟨rfl, rfl⟩ : t = turn' ∧ w = why := by simpa [hr] using ht.symm
        exact ⟨⟨hnow, trivial⟩, fun r => .inr ⟨_, w, hfirst, rfl, rfl, rfl⟩⟩

/-- **The end of a group that is watched together** can be told from the endings of its members:
it has all values with the last of them, or it fails with the first failure. -/
theorem narrow_settles {now : Nat} {starts : List (Turn → Course α)} {endings : List (Ending α)}
    (h : List.Forall₂ (Starts now) starts endings) (turn : Turn) :
    (narrow starts turn).Forward now ∧
      ∀ r, Settles endings now ((narrow starts turn).ending now r) := by
  unfold narrow
  rcases firstRound_settles h turn [] with ⟨turn', after, hr, hafter⟩ | ⟨turn', why, hr, hfirst⟩
  · rw [hr]
    exact watch_settles hafter 0 turn'
  · rw [hr]
    exact ⟨trivial, fun r => .inr ⟨_, why, hfirst, rfl, rfl, rfl⟩⟩

end Course

end SigilExpr
