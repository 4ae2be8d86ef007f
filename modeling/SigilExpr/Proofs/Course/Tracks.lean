import SigilExpr.Proofs.Course.Join

/-!
# Courses that track each other

Two evaluations can go the same way though not the same happens in them: the one may warn where the
other does not, or it may break off where the other has the budget to go on. `Course.Tracks` says of
two courses that they take the same turns, as far as the events in `keep` go, up to where the first
is cut short, if it may be cut short at all (`cuts`). So what the courses come to is the same when
only these events are kept (`Course.Tracks.timeline`).

Groups keep it, since they never look at what happens in the turns of their members: they only ask
whether a member has ended, for which alarm it waits, and whether it has asked to be looked after. A
member that breaks off ends the group at once, in either kind of group, unless the group has ended
before. Hence `Course.join_tracks`.
-/

namespace SigilExpr

variable {α β : Type} {keep : Event → Bool} {cuts : Prop}

/-! ### Some of the events -/

/-- The turn with only some of its events. -/
def Turn.filter (keep : Event → Bool) (turn : Turn) : Turn :=
  { turn with events := turn.events.filter keep }

/-- The timeline with only some of its events. -/
def Timeline.filter (keep : Event → Bool) (line : Timeline α) : Timeline α :=
  { line with trace := line.trace.filter fun entry => keep entry.2 }

namespace Turn

@[simp] theorem filter_start (keep : Event → Bool) : start.filter keep = start := rfl

@[simp] theorem filter_absorb (turn part : Turn) :
    (turn.absorb part).filter keep = (turn.filter keep).absorb (part.filter keep) :=
  ext (by simp [filter]) rfl

@[simp] theorem filter_wake (turn : Turn) : turn.wake.filter keep = (turn.filter keep).wake := rfl

@[simp] theorem filter_noteAll (turn : Turn) (events : List Event) :
    (turn.noteAll events).filter keep = (turn.filter keep).noteAll (events.filter keep) :=
  ext (by simp [filter, noteAll, List.reverseAux_eq, List.filter_reverse]) rfl

theorem woken_of_filter {s t : Turn} (h : s.filter keep = t.filter keep) : s.woken = t.woken := by
  have hwoken : (s.filter keep).woken = (t.filter keep).woken := congrArg Turn.woken h
  exact hwoken

/-- What is absorbed may be anything that comes to the same in the events to keep. -/
theorem filter_absorb_congr {s t part part' : Turn} (h : s.filter keep = t.filter keep)
    (hpart : part.filter keep = part'.filter keep) :
    (s.absorb part).filter keep = (t.absorb part').filter keep := by
  rw [filter_absorb, filter_absorb, h, hpart]

@[simp] theorem filter_all (turn : Turn) : turn.filter (fun _ => true) = turn :=
  ext (by simp [filter]) rfl

end Turn

namespace Timeline

@[simp] theorem filter_all (line : Timeline α) : line.filter (fun _ => true) = line := by
  simp [filter]

/-- How a timeline ends, and when, can be told from some of its events. -/
theorem end_of_filter {line line' : Timeline α} (h : line.filter keep = line'.filter keep) :
    line.settledAt = line'.settledAt ∧ line.verdict = line'.verdict := by
  have hsettled : (line.filter keep).settledAt = (line'.filter keep).settledAt :=
    congrArg Timeline.settledAt h
  have hverdict : (line.filter keep).verdict = (line'.filter keep).verdict :=
    congrArg Timeline.verdict h
  exact ⟨hsettled, hverdict⟩

/-- A turn and what comes after it agree on the events to keep if each of the two does. -/
theorem filter_after_turn {line line' : Timeline α} {s t : Turn}
    (hturn : s.filter keep = t.filter keep) (h : line.filter keep = line'.filter keep) (now : Nat) :
    (line.after (s.events.map (now, ·)).reverse).filter keep =
      (line'.after (t.events.map (now, ·)).reverse).filter keep := by
  have hevents : s.events.filter keep = t.events.filter keep := congrArg Turn.events hturn
  have hdated : ∀ events : List Event,
      (events.map fun event => (now, event)).filter (fun entry => keep entry.2) =
        (events.filter keep).map fun event => (now, event) := fun events => by
    rw [List.filter_map]
    rfl
  obtain ⟨trace, settledAt, verdict⟩ := line
  obtain ⟨trace', settledAt', verdict'⟩ := line'
  simp only [filter, after, mk.injEq] at h ⊢
  refine ⟨?_, h.2⟩
  rw [List.filter_append, List.filter_append, h.1, List.filter_reverse, List.filter_reverse,
    hdated, hdated, hevents]

end Timeline

/-! ### Single courses -/

/-- The same turn by turn, as far as some events go, up to where the first course breaks off. -/
inductive Course.Tracks (keep : Event → Bool) (cuts : Prop) : Course α → Course α → Prop
  | cut (h : cuts) (turn : Turn) (course : Course α) :
    Tracks keep cuts (.ends turn (.error .exhausted)) course
  | ends {s t : Turn} (h : s.filter keep = t.filter keep) (verdict : Except Halt α) :
    Tracks keep cuts (.ends s verdict) (.ends t verdict)
  | waits {s t : Turn} (h : s.filter keep = t.filter keep) (time age : Nat)
    {rest rest' : Unit → Course α} (hrest : Tracks keep cuts (rest ()) (rest' ())) :
    Tracks keep cuts (.waits s time age rest) (.waits t time age rest')

namespace Course

/-- A course that does not break off is not cut short. -/
theorem Tracks.timeline {c d : Course α} (h : c.Tracks keep cuts d) {now : Nat}
    (hend : cuts → (c.timeline now).verdict ≠ .error .exhausted) :
    (c.timeline now).filter keep = (d.timeline now).filter keep := by
  induction h generalizing now with
  | cut hcuts turn course => exact absurd (by simp) (hend hcuts)
  | ends hturn verdict =>
    have hempty : (⟨[], now, verdict⟩ : Timeline α).filter keep =
      (⟨[], now, verdict⟩ : Timeline α).filter keep := rfl
    simpa [Timeline.after] using Timeline.filter_after_turn hturn hempty now
  | waits hturn time age _ ih =>
    rw [timeline_waits] at hend
    rw [timeline_waits, timeline_waits]
    exact Timeline.filter_after_turn hturn (ih hend) now

theorem Tracks.bind {c d : Course α} {now : Nat} {f g : Nat → Turn → α → Course β}
    (h : c.Tracks keep cuts d)
    (hnext : ∀ time s t a, s.filter keep = t.filter keep → (c.ending now 0).verdict = .ok a →
      (f time s a).Tracks keep cuts (g time t a)) :
    (c.bind now f).Tracks keep cuts (d.bind now g) := by
  induction h generalizing now with
  | cut hcuts turn course => exact .cut hcuts turn _
  | @ends s t hturn verdict =>
    cases verdict with
    | ok a => exact hnext now s t a hturn rfl
    | error why => exact .ends hturn (.error why)
  | waits hturn time age _ ih =>
    refine .waits hturn time age (ih fun later s t a hst hv => hnext later s t a hst ?_)
    rw [ending_waits, verdict_ending _ _ _ 0, hv]

theorem Tracks.within {c d : Course α} (h : c.Tracks keep cuts d) (id : String) :
    (c.within id).Tracks keep cuts (d.within id) := by
  induction h with
  | cut hcuts turn course => exact .cut hcuts turn _
  | ends hturn verdict => exact .ends hturn _
  | waits hturn time age _ ih => exact .waits hturn time age ih

/-- Where no course is cut short, each goes the way of the other. -/
theorem Tracks.symm {c d : Course α} (h : c.Tracks keep False d) : d.Tracks keep False c := by
  induction h with
  | cut hcuts turn course => exact hcuts.elim
  | ends hturn verdict => exact .ends hturn.symm verdict
  | waits hturn time age _ ih => exact .waits hturn.symm time age ih

theorem Tracks.trans {c d e : Course α} (h : c.Tracks keep False d) (h' : d.Tracks keep False e) :
    c.Tracks keep False e := by
  induction h generalizing e with
  | cut hcuts turn course => exact hcuts.elim
  | ends hturn verdict =>
    cases h' with
    | cut hcuts turn course => exact hcuts.elim
    | ends hturn' verdict => exact .ends (hturn.trans hturn') verdict
  | waits hturn time age _ ih =>
    cases h' with
    | waits hturn' time age hrest => exact .waits (hturn.trans hturn') time age (ih hrest)

end Course

/-! ### Groups that are watched together -/

/-- Siblings that wait for the same alarm and go the same way then. -/
structure Sleeper.Tracks (keep : Event → Bool) (cuts : Prop) (s t : Sleeper α) : Prop where
  alarm : s.alarm = t.alarm
  turns : s.turns = t.turns
  rest : (s.rest ()).Tracks keep cuts (t.rest ())

/-- Members with the same value, or that wait for the same alarm. -/
inductive Member.Tracks (keep : Event → Bool) (cuts : Prop) : Member α → Member α → Prop
  | settled (a : α) : Tracks keep cuts (.settled a) (.settled a)
  | pending {s t : Sleeper α} (h : s.Tracks keep cuts t) :
    Tracks keep cuts (.pending s) (.pending t)

namespace Course

/-- What rounds come to that go the same way. -/
inductive RoundTracks (keep : Event → Bool) (cuts : Prop) :
    Turn × Except Halt (List (Member α)) → Turn × Except Halt (List (Member α)) → Prop
  | cut (h : cuts) (turn : Turn) (out : Turn × Except Halt (List (Member α))) :
    RoundTracks keep cuts (turn, .error .exhausted) out
  | halted {s t : Turn} (h : s.filter keep = t.filter keep) (why : Halt) :
    RoundTracks keep cuts (s, .error why) (t, .error why)
  | passed {s t : Turn} (h : s.filter keep = t.filter keep) {ms ns : List (Member α)}
    (hms : List.Forall₂ (Member.Tracks keep cuts) ms ns) :
    RoundTracks keep cuts (s, .ok ms) (t, .ok ns)

/-- Ways to start that go the same way whenever the turns they are part of do. -/
def StartTracks (keep : Event → Bool) (cuts : Prop) (start start' : Turn → Course α) : Prop :=
  ∀ s t, s.filter keep = t.filter keep → (start s).Tracks keep cuts (start' t)

theorem firstRound_tracks {starts starts' : List (Turn → Course α)}
    (h : List.Forall₂ (StartTracks keep cuts) starts starts') {s t : Turn}
    (hst : s.filter keep = t.filter keep) {before before' : List (Member α)}
    (hb : List.Forall₂ (Member.Tracks keep cuts) before before') :
    RoundTracks keep cuts (firstRound starts s before) (firstRound starts' t before') := by
  induction h generalizing s t before before' with
  | nil => exact .passed hst (List.rel_reverse hb)
  | @cons start start' starts starts' hstart _ ih =>
    rw [firstRound, firstRound]
    -- what the two starts come to is all that matters from here on
    have hturn := hstart s t hst
    generalize start s = c at hturn
    generalize start' t = d at hturn
    cases hturn with
    | cut hcuts part course => exact .cut hcuts part _
    | ends hpart verdict =>
      cases verdict with
      | ok a => exact ih hpart (.cons (.settled a) hb)
      | error why => exact .halted hpart why
    | waits hpart time age hrest => exact ih hpart (.cons (.pending ⟨rfl, rfl, hrest⟩) hb)

theorem round_tracks {now count : Nat} {ms ns : List (Member α)}
    (h : List.Forall₂ (Member.Tracks keep cuts) ms ns) {s t : Turn}
    (hst : s.filter keep = t.filter keep) {before before' : List (Member α)}
    (hb : List.Forall₂ (Member.Tracks keep cuts) before before') :
    RoundTracks keep cuts (round now count ms s before) (round now count ns t before') := by
  induction h generalizing s t before before' with
  | nil => exact .passed hst (List.rel_reverse hb)
  | @cons member member' ms ns hm _ ih =>
    cases hm with
    | settled a => exact ih hst (.cons (.settled a) hb)
    | @pending sleeper sleeper' hs =>
      rw [round, round]
      -- both siblings wait for the same alarm, so both are asked now or neither is
      have hdue : sleeper.due now = sleeper'.due now := by rw [Sleeper.due, Sleeper.due, hs.alarm]
      rw [hdue]
      split
      · have hrest := hs.rest
        generalize sleeper.rest () = c at hrest
        generalize sleeper'.rest () = d at hrest
        cases hrest with
        | cut hcuts part course => exact .cut hcuts _ _
        | ends hpart verdict =>
          cases verdict with
          | ok a => exact ih (Turn.filter_absorb_congr hst hpart) (.cons (.settled a) hb)
          | error why => exact .halted (Turn.filter_absorb_congr hst hpart) why
        | waits hpart time age hrest =>
          refine ih (Turn.filter_absorb_congr hst hpart) (.cons (.pending ⟨?_, ?_, hrest⟩) hb)
          · rw [Sleeper.after, Sleeper.after, hs.turns]
          · rw [Sleeper.after, Sleeper.after, hs.turns]
      · exact ih hst (.cons (.pending hs) hb)

private theorem filterMap_alarm? {ms ns : List (Member α)}
    (h : List.Forall₂ (Member.Tracks keep cuts) ms ns) :
    ms.filterMap Member.alarm? = ns.filterMap Member.alarm? := by
  induction h with
  | nil => rfl
  | cons hm _ ih =>
    cases hm with
    | settled a => rwa [List.filterMap_cons_none rfl, List.filterMap_cons_none rfl]
    | pending hs => simp [Member.alarm?, hs.alarm, ih]

private theorem filterMap_value? {ms ns : List (Member α)}
    (h : List.Forall₂ (Member.Tracks keep cuts) ms ns) :
    ms.filterMap Member.value? = ns.filterMap Member.value? := by
  induction h with
  | nil => rfl
  | cons hm _ ih =>
    cases hm with
    | settled a => simp [Member.value?, ih]
    | pending hs => rwa [List.filterMap_cons_none rfl, List.filterMap_cons_none rfl]

theorem watch_tracks {ms ns : List (Member α)}
    (h : List.Forall₂ (Member.Tracks keep cuts) ms ns) (count : Nat) {s t : Turn}
    (hst : s.filter keep = t.filter keep) :
    (watch ms count s).Tracks keep cuts (watch ns count t) := by
  fun_induction watch ms count s generalizing ns t with
  | case1 ms count s hs =>
    rw [watch_eq, ← filterMap_alarm? h, hs, filterMap_value? h]
    exact .ends hst _
  | case2 ms count s alarm hs ih =>
    -- both groups wait for the same alarm
    rw [watch_eq ns, ← filterMap_alarm? h, hs]
    refine .waits hst alarm.time _ ?_
    have hround : RoundTracks keep cuts (round alarm.time (count + 1) ms .start [])
      (round alarm.time (count + 1) ns .start []) := round_tracks h rfl .nil
    split
    · rename_i turn after hr
      rw [hr] at hround
      generalize round alarm.time (count + 1) ns .start [] = out at hround
      cases hround with
      | passed hturn hafter => exact ih turn after hr hafter hturn
    · rename_i turn why hr
      rw [hr] at hround
      generalize round alarm.time (count + 1) ns .start [] = out at hround
      cases hround with
      | cut hcuts turn out => exact .cut hcuts turn _
      | halted hturn why => exact .ends hturn _

theorem narrow_tracks {starts starts' : List (Turn → Course α)}
    (h : List.Forall₂ (StartTracks keep cuts) starts starts') {s t : Turn}
    (hst : s.filter keep = t.filter keep) :
    (narrow starts s).Tracks keep cuts (narrow starts' t) := by
  have hround := firstRound_tracks h hst .nil
  unfold narrow
  generalize firstRound starts s [] = out at hround
  generalize firstRound starts' t [] = out' at hround
  cases hround with
  | cut hcuts turn out => exact .cut hcuts turn _
  | halted hturn why => exact .ends hturn _
  | passed hturn hafter => exact watch_tracks hafter 0 hturn

end Course

/-! ### Groups that are served from a queue -/

/-- Siblings at one position that wait for the same alarm and go the same way then. -/
structure Strand.Tracks (keep : Event → Bool) (cuts : Prop) (s t : Strand α) : Prop
    extends s.toSleeper.Tracks keep cuts t.toSleeper where
  position : s.position = t.position

namespace Crowd

/-- The same group but for the further courses of its members, which go the same way. -/
def Tracks (keep : Event → Bool) (cuts : Prop) (c d : Crowd α) : Prop :=
  ∃ ready asleep, d = { c with ready, asleep } ∧
    List.Forall₂ (Strand.Tracks keep cuts) c.ready ready ∧
    List.Forall₂ (Strand.Tracks keep cuts) c.asleep asleep

/-- What services come to that go the same way. -/
inductive ServiceTracks (keep : Event → Bool) (cuts : Prop) :
    Turn × Service α → Turn × Service α → Prop
  | cut (h : cuts) (turn : Turn) (out : Turn × Service α) :
    ServiceTracks keep cuts (turn, .over .exhausted) out
  | halted {s t : Turn} (h : s.filter keep = t.filter keep) (why : Halt) :
    ServiceTracks keep cuts (s, .over why) (t, .over why)
  | settled {s t : Turn} (h : s.filter keep = t.filter keep) {c d : Crowd α}
    (hc : c.Tracks keep cuts d) : ServiceTracks keep cuts (s, .settled c) (t, .settled d)
  | pending {s t : Turn} (h : s.filter keep = t.filter keep) {c d : Crowd α}
    (hc : c.Tracks keep cuts d) : ServiceTracks keep cuts (s, .pending c) (t, .pending d)

/-- What comes of an end has nothing to do with those who are still there. -/
theorem settle_of_strands (crowd : Crowd α) (ready asleep : List (Strand α)) (position : Nat)
    (verdict : Except Halt α) :
    settle { crowd with ready, asleep } position verdict =
      (fun after => { after with ready, asleep }) <$> crowd.settle position verdict := by
  unfold settle
  split
  · rfl
  · simp only
    split <;> rfl

theorem fallAsleep_tracks {s t : Strand α} (h : s.Tracks keep cuts t) {ss ts : List (Strand α)}
    (hall : List.Forall₂ (Strand.Tracks keep cuts) ss ts) :
    List.Forall₂ (Strand.Tracks keep cuts) (fallAsleep s ss) (fallAsleep t ts) := by
  induction hall with
  | nil => exact .cons h .nil
  | @cons first first' ss ts hfirst hothers ih =>
    rw [fallAsleep, fallAsleep, h.alarm, hfirst.alarm]
    split
    · exact .cons h (.cons hfirst hothers)
    · exact .cons hfirst ih

theorem serve_tracks {c d : Crowd α} (h : c.Tracks keep cuts d) {strand strand' : Strand α}
    (hs : strand.Tracks keep cuts strand') (now : Nat) {s t : Turn}
    (hst : s.filter keep = t.filter keep) :
    ServiceTracks keep cuts (serve c strand now s) (serve d strand' now t) := by
  obtain ⟨ready, asleep, rfl, hready, hasleep⟩ := h
  have hdue : strand.due now = strand'.due now := by rw [Sleeper.due, Sleeper.due, hs.alarm]
  rw [serve, serve, hdue]
  split
  · have hrest := hs.rest
    generalize strand.rest () = course at hrest
    generalize strand'.rest () = course' at hrest
    cases hrest with
    | cut hcuts part course => exact .cut hcuts _ _
    | ends hpart verdict =>
      have hturn := Turn.filter_absorb_congr hst hpart
      rw [← hs.position]
      -- what the end does to the group is the same whoever is left in it
      have hsettle := settle_of_strands { c with served := c.served + 1 } ready asleep
        strand.position verdict
      cases hc : settle { c with served := c.served + 1 } strand.position verdict with
      | error why =>
        rw [hc] at hsettle
        simp only [hc, hsettle]
        exact .halted hturn why
      | ok after =>
        rw [hc] at hsettle
        obtain ⟨hr, ha⟩ := strands_of_settle hc
        simp only [hc, hsettle]
        exact .settled hturn ⟨ready, asleep, rfl, by rwa [hr], by rwa [ha]⟩
    | waits hpart time age hrest =>
      have hturn := Turn.filter_absorb_congr hst hpart
      -- whoever has asked to be looked after goes to the end of the queue, in both groups
      have hwoken := Turn.woken_of_filter hpart
      have hnext : Strand.Tracks keep cuts
          ⟨.after (c.served :: strand.turns) time age _, strand.position⟩
          ⟨.after (c.served :: strand'.turns) time age _, strand'.position⟩ :=
        ⟨⟨by rw [Sleeper.after, Sleeper.after, hs.turns],
          by rw [Sleeper.after, Sleeper.after, hs.turns], hrest⟩, hs.position⟩
      simp only [hwoken]
      split
      · exact .pending hturn ⟨_, _, rfl, List.rel_append hready (.cons hnext .nil), hasleep⟩
      · exact .pending hturn ⟨_, _, rfl, hready, fallAsleep_tracks hnext hasleep⟩
  · exact .pending hst ⟨_, _, rfl, hready, fallAsleep_tracks hs hasleep⟩

private theorem map_alarm {ss ts : List (Strand α)}
    (h : List.Forall₂ (Strand.Tracks keep cuts) ss ts) :
    ss.map (·.alarm) = ts.map (·.alarm) := by
  induction h with
  | nil => rfl
  | cons hs _ ih => rw [List.map_cons, List.map_cons, hs.alarm, ih]

private theorem ring_tracks {c : Crowd α} {asleep : List (Strand α)}
    (h : List.Forall₂ (Strand.Tracks keep cuts) c.asleep asleep) (now : Nat) :
    (c.ring now).openTurn.Tracks keep cuts
      (Crowd.ring { c with ready := [], asleep } now).openTurn := by
  have hsame : ∀ ⦃s t : Strand α⦄, s.Tracks keep cuts t → s.due now = t.due now :=
    fun s t hs => by rw [Sleeper.due, Sleeper.due, hs.alarm]
  have hdue : ∀ ⦃s t : Strand α⦄, s.Tracks keep cuts t → (s.due now = true ↔ t.due now = true) :=
    fun s t hs => by rw [hsame hs]
  have hnotdue : ∀ ⦃s t : Strand α⦄, s.Tracks keep cuts t →
      ((!s.due now) = true ↔ (!t.due now) = true) := fun s t hs => by rw [hsame hs]
  exact ⟨_, _, rfl, List.rel_reverse (List.rel_filter hdue h), List.rel_filter hnotdue h⟩

private theorem isTired_tracks {c d : Crowd α} (h : c.Tracks keep cuts d) :
    c.isTired = d.isTired := by
  obtain ⟨_, _, rfl, _, _⟩ := h
  rfl

private theorem openTurn_tracks {c d : Crowd α} (h : c.Tracks keep cuts d) :
    c.openTurn.Tracks keep cuts d.openTurn := by
  obtain ⟨ready, asleep, rfl, hr, ha⟩ := h
  exact ⟨ready, asleep, rfl, hr, ha⟩

/-- Whoever is the next in the queue is the next in the other group too. -/
private theorem attend_head {c d : Crowd α} (h : c.Tracks keep cuts d) {strand : Strand α}
    {ready : List (Strand α)} (hready : c.ready = strand :: ready) (now : Nat) {s t : Turn}
    (hst : s.filter keep = t.filter keep) :
    ∃ strand' ready', d.ready = strand' :: ready' ∧
      ServiceTracks keep cuts (serve { c with ready } strand now s)
        (serve { d with ready := ready' } strand' now t) := by
  obtain ⟨ready', asleep', rfl, hr, ha⟩ := h
  -- the queues are related item by item
  rw [hready] at hr
  obtain ⟨strand', others, hs, hothers, rfl⟩ := List.forall₂_cons_left_iff.1 hr
  have hleft :
      Tracks keep cuts { c with ready } { c with ready := others, asleep := asleep' } :=
    ⟨others, asleep', rfl, hothers, ha⟩
  exact ⟨strand', others, rfl, serve_tracks hleft hs now hst⟩

theorem attend_tracks {c d : Crowd α} (h : c.Tracks keep cuts d) (now : Nat) {s t : Turn}
    (hst : s.filter keep = t.filter keep) :
    (c.attend now s).Tracks keep cuts (d.attend now t) := by
  -- the induction follows the first group; the other takes the same steps, until it is cut short
  fun_induction attend c now s generalizing d t with
  | case1 c now s hready hs =>
    obtain ⟨ready, asleep, rfl, hr, ha⟩ := h
    rw [hready] at hr
    obtain rfl := List.forall₂_nil_left_iff.1 hr
    rw [attend_nil rfl, ← map_alarm ha, hs]
    exact .ends hst _
  | case2 c now s hready alarm hs ih =>
    obtain ⟨ready, asleep, rfl, hr, ha⟩ := h
    rw [hready] at hr
    obtain rfl := List.forall₂_nil_left_iff.1 hr
    rw [attend_nil (rfl : Crowd.ready { c with ready := [], asleep } = []), ← map_alarm ha, hs]
    exact .waits hst alarm.time _ (ih (ring_tracks ha alarm.time) rfl)
  | case3 c now s strand ready hready turn why hs =>
    obtain ⟨strand', ready', hready', hserve⟩ := attend_head h hready now hst
    rw [attend_cons hready']
    rw [hs] at hserve
    generalize serve _ strand' now t = out at hserve
    cases hserve with
    | cut hcuts turn out => exact .cut hcuts turn _
    | halted hturn why => exact .ends hturn _
  | case4 c now s strand ready hready turn after hs ih =>
    obtain ⟨strand', ready', hready', hserve⟩ := attend_head h hready now hst
    rw [attend_cons hready']
    rw [hs] at hserve
    generalize serve _ strand' now t = out at hserve
    cases hserve with
    | settled hturn hafter => exact ih hafter hturn
  | case5 c now s strand ready hready turn after hs htired ih =>
    obtain ⟨strand', ready', hready', hserve⟩ := attend_head h hready now hst
    rw [attend_cons hready']
    rw [hs] at hserve
    generalize serve _ strand' now t = out at hserve
    cases hserve with
    | pending hturn hafter =>
      rw [isTired_tracks hafter] at htired
      simp only [htired, if_true]
      refine .waits ?_ now 0 (ih (openTurn_tracks hafter) rfl)
      rw [Turn.filter_wake, Turn.filter_wake, hturn]
  | case6 c now s strand ready hready turn after hs htired ih =>
    obtain ⟨strand', ready', hready', hserve⟩ := attend_head h hready now hst
    rw [attend_cons hready']
    rw [hs] at hserve
    generalize serve _ strand' now t = out at hserve
    cases hserve with
    | pending hturn hafter =>
      rw [isTired_tracks hafter] at htired
      simp only [htired, Bool.false_eq_true, if_false]
      exact ih hafter hturn

end Crowd

private theorem zipIdx_tracks {starts starts' : List (Unit → Course α)}
    (h : List.Forall₂ (fun start start' => (start ()).Tracks keep cuts (start' ())) starts starts')
    {now : Nat} (k : Nat) :
    List.Forall₂ (Strand.Tracks keep cuts)
      ((starts.zipIdx k).map fun (start, position) => ⟨.called now start, position⟩)
      ((starts'.zipIdx k).map fun (start, position) => ⟨.called now start, position⟩) := by
  induction h generalizing k with
  | nil => exact .nil
  | cons hstart _ ih => exact .cons ⟨⟨rfl, rfl, hstart⟩, rfl⟩ (ih (k + 1))

theorem Course.wide_tracks {starts starts' : List (Unit → Course α)}
    (h : List.Forall₂ (fun start start' => (start ()).Tracks keep cuts (start' ())) starts starts')
    (now : Nat) {s t : Turn} (hst : s.filter keep = t.filter keep) :
    (wide starts now s).Tracks keep cuts (wide starts' now t) := by
  refine Crowd.attend_tracks ⟨(Crowd.ofStarts now starts').ready, [], ?_, ?_, .nil⟩ now hst
  · simp [Crowd.ofStarts, h.length_eq]
  · exact zipIdx_tracks h 0

/-! ### Joins -/

/-- **A join tracks another** if its members do. It is cut short only where one of them is. -/
theorem Course.join_tracks {starts starts' : List (Turn → Course α)}
    (h : List.Forall₂ (StartTracks keep cuts) starts starts') (now : Nat) {s t : Turn}
    (hst : s.filter keep = t.filter keep) :
    (join starts now s).Tracks keep cuts (join starts' now t) := by
  unfold join
  rw [h.length_eq]
  split
  · exact narrow_tracks h hst
  · refine wide_tracks ?_ now hst
    rw [List.forall₂_map_left_iff, List.forall₂_map_right_iff]
    exact h.imp fun start start' hstart => hstart .start .start rfl

end SigilExpr
