import SigilExpr.Proofs.Course.Join

/-!
# What happens in joins

A group adds no events of its own: whatever is true of all events in the courses of its members, and
of those before it in the turn, is true of all events in the course of the group
(`Course.join_every`). The further turns of whoever has not ended carry the property along.
-/

namespace SigilExpr

variable {α : Type} {P : Event → Prop}

/-! ### Groups that are watched together -/

/-- Every event in the turns to come has a property. -/
def Sleeper.Every (P : Event → Prop) (sleeper : Sleeper α) : Prop := (sleeper.rest ()).Every P

/-- Every event in the turns to come has a property. -/
def Member.Every (P : Event → Prop) : Member α → Prop
  | settled _ => True
  | pending sleeper => sleeper.Every P

/-- What a round comes to has only events with a property, and so have all turns to come. -/
def Course.RoundEvery (P : Event → Prop) (out : Turn × Except Halt (List (Member α))) : Prop :=
  (∀ event ∈ out.1.events, P event) ∧ ∀ after, out.2 = .ok after → ∀ member ∈ after, member.Every P

namespace Course

theorem forall_absorb {turn part : Turn} (ht : ∀ event ∈ turn.events, P event)
    (hp : ∀ event ∈ part.events, P event) : ∀ event ∈ (turn.absorb part).events, P event := by
  intro event he
  rw [Turn.events_absorb, List.mem_append] at he
  exact he.elim (hp event) (ht event)

private theorem forall_reverse {Q : α → Prop} {xs : List α} (h : ∀ x ∈ xs, Q x) :
    ∀ x ∈ xs.reverse, Q x := fun x hx => h x (List.mem_reverse.1 hx)

theorem firstRound_every {starts : List (Turn → Course α)} {turn : Turn}
    {before : List (Member α)} (h : ∀ start ∈ starts, Extends start ∧ (start .start).Every P)
    (ht : ∀ event ∈ turn.events, P event) (hb : ∀ member ∈ before, member.Every P) :
    RoundEvery P (firstRound starts turn before) := by
  induction starts generalizing turn before with
  | nil =>
    refine ⟨ht, fun after ha => ?_⟩
    obtain rfl : before.reverse = after := by simpa [firstRound] using ha
    exact forall_reverse hb
  | cons start starts ih =>
    obtain ⟨hextends, hstart⟩ := h start List.mem_cons_self
    -- the events of the first turn come on top of those that the turn has already
    have hrest := fun start hs => h start (List.mem_cons_of_mem _ hs)
    rw [firstRound, hextends turn]
    cases hc : start .start with
    | ends part verdict =>
      rw [hc] at hstart
      have hpart := forall_absorb ht hstart
      cases verdict with
      | ok a => exact ih hrest hpart (List.forall_mem_cons.2 ⟨trivial, hb⟩)
      | error why => exact ⟨hpart, by simp [onto]⟩
    | waits part time age rest =>
      rw [hc] at hstart
      exact ih hrest (forall_absorb ht hstart.1) (List.forall_mem_cons.2 ⟨hstart.2, hb⟩)

theorem round_every {now count : Nat} {members : List (Member α)} {turn : Turn}
    {before : List (Member α)} (h : ∀ member ∈ members, member.Every P)
    (ht : ∀ event ∈ turn.events, P event) (hb : ∀ member ∈ before, member.Every P) :
    RoundEvery P (round now count members turn before) := by
  induction members generalizing turn before with
  | nil =>
    refine ⟨ht, fun after ha => ?_⟩
    obtain rfl : before.reverse = after := by simpa [round] using ha
    exact forall_reverse hb
  | cons member members ih =>
    obtain ⟨hmember, hrest⟩ := List.forall_mem_cons.1 h
    cases member with
    | settled a => exact ih hrest ht (List.forall_mem_cons.2 ⟨trivial, hb⟩)
    | pending sleeper =>
      rw [round]
      split
      · have hturns : (sleeper.rest ()).Every P := hmember
        cases hc : sleeper.rest () with
        | ends part verdict =>
          rw [hc] at hturns
          have hpart := forall_absorb ht hturns
          cases verdict with
          | ok a => exact ih hrest hpart (List.forall_mem_cons.2 ⟨trivial, hb⟩)
          | error why => exact ⟨hpart, by simp⟩
        | waits part time age rest =>
          rw [hc] at hturns
          exact ih hrest (forall_absorb ht hturns.1) (List.forall_mem_cons.2 ⟨hturns.2, hb⟩)
      · exact ih hrest ht (List.forall_mem_cons.2 ⟨hmember, hb⟩)

theorem watch_every {members : List (Member α)} (h : ∀ member ∈ members, member.Every P)
    (count : Nat) {turn : Turn} (ht : ∀ event ∈ turn.events, P event) :
    (watch members count turn).Every P := by
  fun_induction watch members count turn with
  | case1 members count turn hs => exact ht
  | case2 members count turn alarm hs ih =>
    -- the next round starts with an empty turn
    have hround : RoundEvery P (round alarm.time (count + 1) members .start []) :=
      round_every h (by simp [Turn.start]) (by simp)
    obtain ⟨hevents, hafter⟩ := hround
    refine ⟨ht, ?_⟩
    split
    · rename_i turn' after hr
      rw [hr] at hevents hafter
      exact ih turn' after hr (hafter after rfl) hevents
    · rename_i turn' why hr
      rw [hr] at hevents
      exact hevents

theorem narrow_every {starts : List (Turn → Course α)}
    (h : ∀ start ∈ starts, Extends start ∧ (start .start).Every P) {turn : Turn}
    (ht : ∀ event ∈ turn.events, P event) : (narrow starts turn).Every P := by
  have hround : RoundEvery P (firstRound starts turn []) := firstRound_every h ht (by simp)
  obtain ⟨hevents, hafter⟩ := hround
  unfold narrow
  split
  · rename_i turn' members hr
    rw [hr] at hevents hafter
    exact watch_every (hafter members rfl) 0 hevents
  · rename_i turn' why hr
    rw [hr] at hevents
    exact hevents

end Course

/-! ### Groups that are served from a queue -/

/-- Every event in the turns of the members to come has a property. -/
def Crowd.Every (P : Event → Prop) (crowd : Crowd α) : Prop :=
  ∀ strand ∈ crowd.ready ++ crowd.asleep, strand.Every P

namespace Crowd

/-- What comes of a service has only events with a property. -/
def ServeEvery (P : Event → Prop) (out : Turn × Service α) : Prop :=
  (∀ event ∈ out.1.events, P event) ∧
    match out.2 with
    | .over _ => True
    | .settled after => after.Every P
    | .pending after => after.Every P

theorem serve_every {crowd : Crowd α} {strand : Strand α} {ready : List (Strand α)} {turn : Turn}
    (hready : crowd.ready = strand :: ready) (h : crowd.Every P) (now : Nat)
    (ht : ∀ event ∈ turn.events, P event) :
    ServeEvery P (serve { crowd with ready } strand now turn) := by
  have hstrand : (strand.rest ()).Every P := h strand (by simp [hready])
  have hothers : ∀ other ∈ ready ++ crowd.asleep, other.Every P := fun other hm =>
    h other (by rw [hready]; exact List.mem_cons_of_mem _ hm)
  -- whoever falls asleep is one more of those who are there
  have hasleep : ∀ next : Strand α, next.Every P →
      ∀ other ∈ ready ++ fallAsleep next crowd.asleep, other.Every P := by
    intro next hnext other hm
    rw [List.mem_append, (perm_fallAsleep next crowd.asleep).mem_iff, List.mem_cons] at hm
    rcases hm with hm | rfl | hm
    · exact hothers other (List.mem_append_left _ hm)
    · exact hnext
    · exact hothers other (List.mem_append_right _ hm)
  unfold serve
  split
  · cases hrest : strand.rest () with
    | ends part verdict =>
      rw [hrest] at hstrand
      have hpart := Course.forall_absorb ht hstrand
      simp only
      split
      · rename_i after hs
        obtain ⟨hr, ha⟩ := strands_of_settle hs
        refine ⟨hpart, ?_⟩
        show ∀ other ∈ after.ready ++ after.asleep, other.Every P
        rw [hr, ha]
        exact hothers
      · exact ⟨hpart, trivial⟩
    | waits part time age rest =>
      rw [hrest] at hstrand
      have hpart := Course.forall_absorb ht hstrand.1
      simp only
      split
      · refine ⟨hpart, ?_⟩
        intro other hm
        simp only [List.mem_append, List.mem_singleton] at hm
        rcases hm with (hm | rfl) | hm
        · exact hothers other (List.mem_append_left _ hm)
        · exact hstrand.2
        · exact hothers other (List.mem_append_right _ hm)
      · exact ⟨hpart, hasleep _ hstrand.2⟩
  · exact ⟨ht, hasleep strand hstrand⟩

/-- **A group that is served from a queue** adds no events of its own. -/
theorem attend_every {crowd : Crowd α} {now : Nat} {turn : Turn} (h : crowd.Every P)
    (ht : ∀ event ∈ turn.events, P event) : (crowd.attend now turn).Every P := by
  fun_induction attend crowd now turn with
  | case1 crowd now turn hready hs => exact ht
  | case2 crowd now turn hready alarm hs ih =>
    refine ⟨ht, ih ?_ (by simp [Turn.start])⟩
    -- whoever is woken or sleeps on was asleep before
    intro strand hm
    refine h strand (List.mem_append_right _ ?_)
    simp only [openTurn, ring, List.mem_append, List.mem_reverse, List.mem_filter] at hm
    exact hm.elim And.left And.left
  | case3 crowd now turn strand ready hready turn' why hs =>
    have hserve := serve_every hready h now ht
    rw [hs] at hserve
    exact hserve.1
  | case4 crowd now turn strand ready hready turn' after hs ih =>
    have hserve := serve_every hready h now ht
    rw [hs] at hserve
    exact ih hserve.2 hserve.1
  | case5 crowd now turn strand ready hready turn' after hs htired ih =>
    have hserve := serve_every hready h now ht
    rw [hs] at hserve
    exact ⟨hserve.1, ih hserve.2 (by simp [Turn.start])⟩
  | case6 crowd now turn strand ready hready turn' after hs htired ih =>
    have hserve := serve_every hready h now ht
    rw [hs] at hserve
    exact ih hserve.2 hserve.1

end Crowd

theorem Course.wide_every {starts : List (Unit → Course α)}
    (h : ∀ start ∈ starts, (start ()).Every P) (now : Nat) {turn : Turn}
    (ht : ∀ event ∈ turn.events, P event) : (wide starts now turn).Every P := by
  refine Crowd.attend_every (fun strand hs => ?_) ht
  rw [Crowd.ofStarts, List.append_nil, List.mem_map] at hs
  obtain ⟨⟨start, position⟩, hm, rfl⟩ := hs
  exact h start (List.fst_mem_of_mem_zipIdx hm)

/-! ### Joins -/

/-- **A join adds no events of its own.** -/
theorem Course.join_every {starts : List (Turn → Course α)}
    (h : ∀ start ∈ starts, Extends start ∧ (start .start).Every P) (now : Nat) {turn : Turn}
    (ht : ∀ event ∈ turn.events, P event) : (join starts now turn).Every P := by
  unfold join
  split
  · exact narrow_every h ht
  · refine wide_every (fun start hs => ?_) now ht
    obtain ⟨start, hm, rfl⟩ := List.mem_map.1 hs
    exact (h start hm).2

end SigilExpr
