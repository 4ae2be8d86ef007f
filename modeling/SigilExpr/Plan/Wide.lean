import SigilExpr.Plan.Course

/-!
# Siblings that are served from a queue

A large group of siblings has one attendant, who serves them one by one from a queue. At first all
are in the queue, in the order of positions. Whoever waits for an alarm leaves the queue, and comes
back when it goes off; of those who come back at one time, the ones whose alarms were set first come
first.

* A sibling that asks during its own turn to be looked after once more goes to the end of the queue
  at once. It is served like the others then, even if its alarm has not gone off and nothing comes
  of it.
* The attendant gives up a turn, asking to be looked after once more, when since the beginning of
  the turn or the last end in it two siblings have gone back to the queue in their own turns, or as
  many have been served as there are siblings left.
* Ends count in the order of positions: a value is put aside until all before it are there, and so
  is a failure. The first that counts and is a failure ends the group. Only the end of the budget
  ends the group right away.

The course of a group is `wide`. It is well founded: whoever is served in time has fewer turns to
come, and whoever is served out of time leaves the queue.
-/

namespace SigilExpr

variable {α : Type}

/-- A sibling in a group that is served from a queue. -/
structure Strand (α : Type) extends Sleeper α where
  /-- Its position among the siblings. -/
  position : Nat

/-- A group of siblings that are served from a queue. The clock of the group counts services: an
alarm is set in the service of the sibling that set it. -/
structure Crowd (α : Type) where
  /-- The siblings in the queue. -/
  ready : List (Strand α)
  /-- The siblings that wait, the one whose alarm was set last first. -/
  asleep : List (Strand α)
  /-- The number of siblings that have not ended. -/
  live : Nat
  /-- The values that count, the latest first. -/
  values : List α
  /-- The number of values that count: the position whose end counts next. -/
  counted : Nat
  /-- Ends that were put aside, in the order of positions. -/
  aside : List (Nat × Except Halt α)
  /-- The number of services. -/
  served : Nat
  /-- That number at the beginning of each turn, the latest first. -/
  openings : List Nat
  /-- The number of services in this turn since the last end. -/
  visits : Nat
  /-- How many of those siblings went back to the queue in their own turns. -/
  returns : Nat

/-- How many siblings go back to the queue in their own turns before the attendant gives up. -/
def Crowd.patience : Nat := 2

namespace Crowd

/-- A group before its first turn. -/
def ofStarts (now : Nat) (starts : List (Unit → Course α)) : Crowd α where
  ready := starts.zipIdx.map fun (start, position) => ⟨.called now start, position⟩
  asleep := []
  live := starts.length
  values := []
  counted := 0
  aside := []
  served := 0
  openings := [0]
  visits := 0
  returns := 0

/-! ### Ends -/

/-- Puts an end aside. -/
def putAside (position : Nat) (verdict : Except Halt α) :
    List (Nat × Except Halt α) → List (Nat × Except Halt α)
  | [] => [(position, verdict)]
  | first :: others =>
    if position < first.1 then (position, verdict) :: first :: others
    else first :: putAside position verdict others

/-- The values that count with the number of them and what stays aside, once ends that were put
aside count as far as possible; or the first failure that counts. -/
def recount (values : List α) (counted : Nat) :
    List (Nat × Except Halt α) → Except Halt (List α × Nat × List (Nat × Except Halt α))
  | [] => .ok (values, counted, [])
  | (position, verdict) :: others =>
    if position = counted then
      match verdict with
      | .ok a => recount (a :: values) (counted + 1) others
      | .error why => .error why
    else .ok (values, counted, (position, verdict) :: others)

/-- The group after the sibling at a position has ended, unless the group ends. -/
def settle (crowd : Crowd α) (position : Nat) (verdict : Except Halt α) :
    Except Halt (Crowd α) :=
  match verdict with
  -- no answer of the others could stand for a missing one
  | .error .exhausted => .error .exhausted
  | verdict =>
    match recount crowd.values crowd.counted (putAside position verdict crowd.aside) with
    | .ok (values, counted, aside) =>
      .ok { crowd with
        live := crowd.live - 1, values := values, counted := counted, aside := aside,
        visits := 0, returns := 0 }
    | .error why => .error why

/-! ### The queue -/

/-- Lets a sibling wait. -/
def fallAsleep (strand : Strand α) : List (Strand α) → List (Strand α)
  | [] => [strand]
  | first :: others =>
    if first.alarm.setIn ≤ strand.alarm.setIn then strand :: first :: others
    else first :: fallAsleep strand others

/-- How many turns of the group ago a service took place. -/
def age (crowd : Crowd α) (setIn : Nat) : Nat :=
  (crowd.openings.takeWhile (setIn < ·)).length

/-- The group at the beginning of a turn. -/
def openTurn (crowd : Crowd α) : Crowd α :=
  { crowd with openings := crowd.served :: crowd.openings, visits := 0, returns := 0 }

/-- The group at a time when alarms go off and nobody is in the queue. -/
def ring (crowd : Crowd α) (now : Nat) : Crowd α :=
  { crowd with
    ready := (crowd.asleep.filter fun strand => strand.due now).reverse,
    asleep := crowd.asleep.filter fun strand => !strand.due now }

/-- The attendant gives up a turn. -/
def isTired (crowd : Crowd α) : Bool :=
  crowd.visits == crowd.live || patience ≤ crowd.returns

/-- What comes of serving a sibling. -/
inductive Service (α : Type) where
  /-- The group ends. -/
  | over (why : Halt)
  /-- The sibling has ended. -/
  | settled (crowd : Crowd α)
  /-- The sibling waits. -/
  | pending (crowd : Crowd α)

/-- Serves a sibling that has been taken from the queue, as part of a turn of the group. -/
def serve (crowd : Crowd α) (strand : Strand α) (now : Nat) (turn : Turn) : Turn × Service α :=
  if strand.due now then
    match strand.rest () with
    | .ends part verdict =>
      match { crowd with served := crowd.served + 1 }.settle strand.position verdict with
      | .ok crowd => (turn.absorb part, .settled crowd)
      | .error why => (turn.absorb part, .over why)
    | .waits part time age rest =>
      let strand := ⟨.after (crowd.served :: strand.turns) time age rest, strand.position⟩
      let crowd := { crowd with served := crowd.served + 1, visits := crowd.visits + 1 }
      -- whoever asks in its own turn keeps a place in the queue, behind all others
      if part.woken then
        (turn.absorb part, .pending
          { crowd with ready := crowd.ready ++ [strand], returns := crowd.returns + 1 })
      else (turn.absorb part, .pending { crowd with asleep := fallAsleep strand crowd.asleep })
  else
    -- nothing comes of it, but it takes up a service
    (turn, .pending
      { crowd with
        asleep := fallAsleep strand crowd.asleep,
        served := crowd.served + 1, visits := crowd.visits + 1 })

/-! ### Whoever is served has fewer turns to come or leaves the queue -/

/-- The number of turns to come of some siblings. -/
def total : List (Strand α) → Nat
  | [] => 0
  | strand :: strands => strand.length + total strands

/-- The number of siblings whose alarm has not gone off. -/
def early (now : Nat) (strands : List (Strand α)) : Nat :=
  (strands.filter fun strand => !strand.due now).length

/-- What becomes less from one service to the next: the turns to come, and among states with as
many of them the siblings in the queue that have no turn to take; a queue that fills counts too. -/
def rank (crowd : Crowd α) (now : Nat) : Nat × Nat :=
  (total crowd.ready + total crowd.asleep,
    2 * early now crowd.ready + if crowd.ready.isEmpty then 1 else 0)

private theorem total_singleton (strand : Strand α) : total [strand] = strand.length := by
  simp [total]

private theorem total_cons (strand : Strand α) (strands : List (Strand α)) :
    total (strand :: strands) = strand.length + total strands := rfl

private theorem total_append (xs ys : List (Strand α)) :
    total (xs ++ ys) = total xs + total ys := by
  induction xs with
  | nil => simp [total]
  | cons strand strands ih => simp only [List.cons_append, total_cons, ih, Nat.add_assoc]

private theorem total_fallAsleep (strand : Strand α) (strands : List (Strand α)) :
    total (fallAsleep strand strands) = strand.length + total strands := by
  induction strands with
  | nil => rfl
  | cons first others ih =>
    unfold fallAsleep
    split
    · simp [total]
    · rw [total_cons, total_cons, ih]
      omega

private theorem total_reverse (strands : List (Strand α)) :
    total strands.reverse = total strands := by
  induction strands with
  | nil => rfl
  | cons strand strands ih =>
    simp only [List.reverse_cons, total_append, ih, total]
    omega

private theorem total_filter (p : Strand α → Bool) (strands : List (Strand α)) :
    total (strands.filter p) + total (strands.filter fun strand => !p strand) = total strands := by
  induction strands with
  | nil => rfl
  | cons first others ih =>
    cases h : p first <;> simp [total, h] at ih ⊢ <;> omega

/-- An end makes no difference to those who are still there. -/
theorem strands_of_settle {crowd after : Crowd α} {position : Nat} {verdict : Except Halt α}
    (h : crowd.settle position verdict = .ok after) :
    after.ready = crowd.ready ∧ after.asleep = crowd.asleep := by
  unfold settle at h
  split at h
  · simp at h
  · split at h
    · simp only [Except.ok.injEq] at h
      simp [← h]
    · simp at h

private theorem rank_settled {crowd after : Crowd α} {strand : Strand α} {now : Nat}
    {turn turn' : Turn} (h : serve crowd strand now turn = (turn', .settled after)) :
    total after.ready + total after.asleep <
      strand.length + total crowd.ready + total crowd.asleep := by
  unfold serve at h
  repeat' split at h
  all_goals simp only [Prod.mk.injEq, Service.settled.injEq, reduceCtorEq, and_false] at h
  rename_i hs
  have := strands_of_settle hs
  simp only [← h.2, this, Sleeper.length]
  omega

private theorem rank_pending {crowd after : Crowd α} {strand : Strand α} {now : Nat}
    {turn turn' : Turn} (h : serve crowd strand now turn = (turn', .pending after)) :
    total after.ready + total after.asleep <
        strand.length + total crowd.ready + total crowd.asleep ∨
      total after.ready + total after.asleep =
          strand.length + total crowd.ready + total crowd.asleep ∧
        after.ready = crowd.ready ∧ strand.due now = false := by
  unfold serve at h
  repeat' split at h
  all_goals simp only [Prod.mk.injEq, Service.pending.injEq, reduceCtorEq, and_false] at h
  · rename_i part time age rest hr _
    have hl : (strand.rest ()).length = (rest ()).length + 1 := by rw [hr]; rfl
    refine .inl ?_
    simp only [← h.2, total_append, total_singleton, Sleeper.length, Sleeper.after, hl]
    omega
  · rename_i part time age rest hr _
    have hl : (strand.rest ()).length = (rest ()).length + 1 := by rw [hr]; rfl
    refine .inl ?_
    simp only [← h.2, total_fallAsleep, Sleeper.length, Sleeper.after, hl]
    omega
  · rename_i hd
    refine .inr ?_
    simp only [← h.2, total_fallAsleep, hd, and_true]
    omega

private theorem rank_ring {crowd : Crowd α} {alarm : Alarm} (hr : crowd.ready = [])
    (h : Alarm.soonest (crowd.asleep.map (·.alarm)) = some alarm) (now : Nat) :
    Prod.Lex (· < ·) (· < ·) ((crowd.ring alarm.time).openTurn.rank alarm.time)
      (crowd.rank now) := by
  obtain ⟨strand, hm, ha⟩ := List.mem_map.1 (Alarm.mem_of_soonest h)
  have hd : strand.due alarm.time = true := by simp [Sleeper.due, ha]
  have hne : crowd.asleep.filter (fun strand => strand.due alarm.time) ≠ [] :=
    List.ne_nil_of_mem (List.mem_filter.2 ⟨hm, hd⟩)
  have ht := total_filter (fun strand => strand.due alarm.time) crowd.asleep
  rw [Prod.lex_def]
  -- nobody has a turn yet, but the queue fills with siblings whose alarms have gone off
  refine .inr ⟨?_, ?_⟩
  · simp only [rank, openTurn, ring, hr, total_reverse]
    simpa [total] using ht
  · have he : List.filter (fun _ => false) crowd.asleep = [] := by simp
    simp [rank, openTurn, ring, hr, early, List.filter_filter, hne, he]

private theorem rank_settled_lt {crowd after : Crowd α} {strand : Strand α}
    {ready : List (Strand α)} {now : Nat} {turn turn' : Turn} (hr : crowd.ready = strand :: ready)
    (h : serve { crowd with ready } strand now turn = (turn', .settled after)) :
    Prod.Lex (· < ·) (· < ·) (after.rank now) (crowd.rank now) := by
  have := rank_settled h
  rw [Prod.lex_def]
  refine .inl ?_
  simp only [rank, hr, total_cons] at this ⊢
  omega

private theorem rank_pending_lt {crowd after : Crowd α} {strand : Strand α}
    {ready : List (Strand α)} {now : Nat} {turn turn' : Turn} (hr : crowd.ready = strand :: ready)
    (h : serve { crowd with ready } strand now turn = (turn', .pending after)) :
    Prod.Lex (· < ·) (· < ·) (after.rank now) (crowd.rank now) := by
  rw [Prod.lex_def]
  rcases rank_pending h with h | ⟨he, hq, hd⟩
  -- a turn was taken
  · refine .inl ?_
    simp only [rank, hr, total_cons] at h ⊢
    omega
  -- no turn was taken, and the sibling has left the queue
  · refine .inr ⟨?_, ?_⟩
    · simp only [rank, hr, total_cons] at he ⊢
      omega
    · simp only [rank, hr, hq, early, List.filter_cons, hd]
      split <;> simp
      omega

/-! ### The group -/

/-- The further course of a group in a turn at `now` that has come to `turn` so far. -/
def attend (crowd : Crowd α) (now : Nat) (turn : Turn) : Course (List α) :=
  match _ : crowd.ready with
  | [] =>
    match _ : Alarm.soonest (crowd.asleep.map (·.alarm)) with
    | none => .ends turn (.ok crowd.values.reverse)
    | some alarm =>
      .waits turn alarm.time (crowd.age alarm.setIn) fun () =>
        attend (crowd.ring alarm.time).openTurn alarm.time .start
  | strand :: ready =>
    match _ : serve { crowd with ready } strand now turn with
    | (turn, .over why) => .ends turn (.error why)
    | (turn, .settled after) => attend after now turn
    | (turn, .pending after) =>
      if after.isTired then .waits turn.wake now 0 fun () => attend after.openTurn now .start
      else attend after now turn
termination_by crowd.rank now
decreasing_by
  · exact rank_ring (by assumption) (by assumption) now
  · exact rank_settled_lt (by assumption) (by assumption)
  · rename_i hr hs _
    have := rank_pending_lt hr hs
    exact this
  · exact rank_pending_lt (by assumption) (by assumption)

theorem attend_nil {crowd : Crowd α} (hr : crowd.ready = []) (now : Nat) (turn : Turn) :
    crowd.attend now turn =
      match Alarm.soonest (crowd.asleep.map (·.alarm)) with
      | none => .ends turn (.ok crowd.values.reverse)
      | some alarm =>
        .waits turn alarm.time (crowd.age alarm.setIn) fun () =>
          attend (crowd.ring alarm.time).openTurn alarm.time .start := by
  rw [attend]
  split
  · split <;> simp_all
  · simp_all

theorem attend_cons {crowd : Crowd α} {strand : Strand α} {ready : List (Strand α)}
    (hr : crowd.ready = strand :: ready) (now : Nat) (turn : Turn) :
    crowd.attend now turn =
      match serve { crowd with ready } strand now turn with
      | (turn, .over why) => .ends turn (.error why)
      | (turn, .settled after) => attend after now turn
      | (turn, .pending after) =>
        if after.isTired then .waits turn.wake now 0 fun () => attend after.openTurn now .start
        else attend after now turn := by
  rw [attend]
  split
  · simp_all
  · split <;> simp_all

/-! ### Services as parts of a turn -/

private theorem serve_absorb (crowd : Crowd α) (strand : Strand α) (now : Nat)
    (turn part : Turn) :
    serve crowd strand now (turn.absorb part) =
      (turn.absorb (serve crowd strand now part).1, (serve crowd strand now part).2) := by
  unfold serve
  repeat' split
  all_goals simp_all [Turn.absorb_assoc]

theorem attend_absorb (crowd : Crowd α) (now : Nat) (turn part : Turn) :
    crowd.attend now (turn.absorb part) = (crowd.attend now part).onto turn := by
  fun_induction attend crowd now part with
  | case1 crowd now part hr ha => simp [attend_nil hr, ha, Course.onto]
  | case2 crowd now part hr alarm ha => simp [attend_nil hr, ha, Course.onto]
  | case3 crowd now part strand ready hr after why hs =>
    simp [attend_cons hr, serve_absorb, hs, Course.onto]
  | case4 crowd now part strand ready hr part' after hs ih =>
    simp [attend_cons hr, serve_absorb, hs, ih]
  | case5 crowd now part strand ready hr part' after hs ht =>
    simp [attend_cons hr, serve_absorb, hs, ht, Course.onto, Turn.absorb_wake]
  | case6 crowd now part strand ready hr part' after hs ht ih =>
    simp [attend_cons hr, serve_absorb, hs, ht, ih]

end Crowd

/-- The course of siblings that are served from a queue. They have been called at `now` and start as
part of `turn`. -/
def Course.wide (starts : List (Unit → Course α)) (now : Nat) (turn : Turn) : Course (List α) :=
  (Crowd.ofStarts now starts).attend now turn

/-- A group of siblings that is served from a queue extends a turn. -/
theorem Course.wide_extends (starts : List (Unit → Course α)) (now : Nat) :
    Course.Extends (Course.wide starts now) := fun turn => by
  simpa [wide] using Crowd.attend_absorb (.ofStarts now starts) now turn .start

end SigilExpr
