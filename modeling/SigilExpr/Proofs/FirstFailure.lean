import SigilExpr.Proofs.Agreement
import SigilExpr.Proofs.Course.Join
import SigilExpr.Stock.Items

/-!
# Which failure a join fails with

A join is meant to fail with the first failure among its calls, at the time of that failure, and
where several fail at one time with the one at the lowest position (`Ending.Earliest`). It does not
always do so, and how it fails depends on the number of calls (`Ending.Joins`):

* up to `Course.narrowLimit` calls the time is right, but of several failures at that time the one
  counts that takes the fewest turns;
* with more calls the failure at the lowest position counts, whenever that is, and only when
  everything before it is there.

`Plan.failsAs_earliest_iff` says exactly when a join fails as it is meant to. With many calls this
is so if and only if everything before the first failure has ended by then.
-/

/-- Where a list is divided before two of its items, these are the same or one comes after the
other. -/
theorem List.append_cons_cases {α : Type} {front back front' back' : List α} {a a' : α}
    (h : front ++ a :: back = front' ++ a' :: back') :
    (front = front' ∧ a = a') ∨ (a ∈ front' ∧ a' ∈ back) ∨ (a' ∈ front ∧ a ∈ back') := by
  rcases List.append_eq_append_iff.1 h with ⟨xs, rfl, hxs⟩ | ⟨xs, rfl, hxs⟩
  · cases xs with
    | nil => exact .inl ⟨(List.append_nil _).symm, (List.cons.inj hxs).1⟩
    | cons x xs =>
      obtain ⟨rfl, rfl⟩ := List.cons.inj hxs
      exact .inr (.inl ⟨by simp, by simp⟩)
  · cases xs with
    | nil => exact .inl ⟨List.append_nil _, (List.cons.inj hxs).1.symm⟩
    | cons x xs =>
      obtain ⟨rfl, rfl⟩ := List.cons.inj hxs
      exact .inr (.inr ⟨by simp, by simp⟩)

namespace SigilExpr

variable {α β : Type}

namespace Ending

/-! ### The first failure in time -/

/-- It ends with an error. -/
def Errs (e : Ending α) : Prop := ∃ err, e.verdict = .error (.failed err)

theorem Errs.failed {e : Ending α} (h : e.Errs) : e.Failed := by
  obtain ⟨err, he⟩ := h
  exact ⟨.failed err, he⟩

/-- The ending at a position is the first of those that end with an error: the earliest in time, and
of several at one time that at the lowest position. -/
structure Earliest (endings : List (Ending α)) (position : Nat) (e : Ending α) : Prop where
  /-- It is the ending at the position. -/
  at_position : endings[position]? = some e
  /-- It ends with an error. -/
  errs : e.Errs
  /-- It is before all others. -/
  first : ∀ (i : Nat) (f : Ending α), endings[i]? = some f → f.Errs →
    e.time < f.time ∨ (e.time = f.time ∧ position ≤ i)

/-- Somebody at the lowest position ends with an error, and nobody earlier. -/
theorem Earliest.head {endings : List (Ending α)} {d : Ending α} (hd : d.Errs)
    (h : ∀ f ∈ endings, f.Errs → d.time ≤ f.time) : Earliest (d :: endings) 0 d where
  at_position := rfl
  errs := hd
  first := by
    intro i f hf hferrs
    cases i with
    | zero =>
      obtain rfl := Option.some.inj hf
      exact .inr ⟨rfl, Nat.le_refl _⟩
    | succ i =>
      rcases Nat.lt_or_eq_of_le (h f (List.mem_of_getElem? hf) hferrs) with hlt | heq
      · exact .inl hlt
      · exact .inr ⟨heq, Nat.zero_le _⟩

/-- The first stays the first if somebody comes before it who ends with an error later, or with
none. -/
theorem Earliest.cons {endings : List (Ending α)} {position : Nat} {d e : Ending α}
    (h : Earliest endings position e) (hd : d.Errs → e.time < d.time) :
    Earliest (d :: endings) (position + 1) e where
  at_position := h.at_position
  errs := h.errs
  first := by
    intro i f hf hferrs
    cases i with
    | zero =>
      obtain rfl := Option.some.inj hf
      exact .inl (hd hferrs)
    | succ i =>
      rcases h.first i f hf hferrs with hlt | ⟨heq, hle⟩
      · exact .inl hlt
      · exact .inr ⟨heq, Nat.succ_le_succ hle⟩

/-- Nobody ends with an error earlier than the first. -/
theorem Earliest.time_le {endings : List (Ending α)} {position : Nat} {e f : Ending α}
    (h : Earliest endings position e) (hf : f ∈ endings) (herrs : f.Errs) : e.time ≤ f.time := by
  obtain ⟨i, hi⟩ := List.mem_iff_getElem?.1 hf
  rcases h.first i f hi herrs with hlt | ⟨heq, -⟩
  · exact Nat.le_of_lt hlt
  · exact Nat.le_of_eq heq

/-- Where somebody ends with an error there is a first. -/
theorem exists_earliest {endings : List (Ending α)} (h : ∃ f ∈ endings, f.Errs) :
    ∃ position e, Earliest endings position e := by
  induction endings with
  | nil => simp at h
  | cons d endings ih =>
    by_cases hrest : ∃ f ∈ endings, f.Errs
    · obtain ⟨position, e, he⟩ := ih hrest
      -- the one in front takes its place if it ends with an error as early
      by_cases hd : d.Errs ∧ d.time ≤ e.time
      · exact ⟨0, d, .head hd.1 fun f hf hferrs => Nat.le_trans hd.2 (he.time_le hf hferrs)⟩
      · exact ⟨position + 1, e, he.cons fun hderrs => Nat.lt_of_not_le fun hle => hd ⟨hderrs, hle⟩⟩
    · -- the one in front is the only one
      obtain ⟨f, hf, hferrs⟩ := h
      rcases List.mem_cons.1 hf with rfl | hf
      · exact ⟨0, f, .head hferrs fun g hg hgerrs => absurd ⟨g, hg, hgerrs⟩ hrest⟩
      · exact absurd ⟨f, hf, hferrs⟩ hrest

/-! ### When a group fails with it -/

/-- The error and the time are those of an ending. -/
def FailsAs (time : Nat) (verdict : Except Halt β) (e : Ending α) : Prop :=
  time = e.time ∧ ∃ why, e.verdict = .error why ∧ verdict = .error why

theorem failsAs_error {time : Nat} {why : Halt} {e : Ending α} :
    FailsAs time (.error why : Except Halt β) e ↔ time = e.time ∧ e.verdict = .error why := by
  constructor
  · rintro ⟨htime, why', hev, heq⟩
    obtain rfl := Except.error.inj heq
    exact ⟨htime, hev⟩
  · rintro ⟨htime, hev⟩
    exact ⟨htime, why, hev, rfl⟩

/-- An error that is tagged already passes a further tag as it is. -/
theorem FailsAs.within {time : Nat} {verdict : Except Halt β} {e : Ending α} {err : EvalError}
    {inner : String} (h : FailsAs time verdict e)
    (he : e.verdict = .error (.failed (err.within inner))) (outer : String) :
    FailsAs time (verdict.mapError (Halt.within outer)) e := by
  obtain ⟨htime, why, hwhy, rfl⟩ := h
  obtain rfl := Except.error.inj (hwhy.symm.trans he)
  exact ⟨htime, _, hwhy, congrArg Except.error (Halt.within_within inner outer (.failed err))⟩

/-- What a group has to be like to fail with the first failure. In a group that is watched together
whoever fails then with the fewest turns has the same error; in a group that is served from a queue
everybody at a lower position has ended by then. -/
def InTime (endings : List (Ending α)) (position : Nat) (e : Ending α) : Prop :=
  if endings.length ≤ Course.narrowLimit then ∃ w, FirstFailed endings w ∧ w.verdict = e.verdict
  else ∀ (i : Nat) (f : Ending α), i < position → endings[i]? = some f → f.time ≤ e.time

variable {endings : List (Ending α)} {now : Nat} {out : Ending (List α)} {position : Nat}
  {e : Ending α}

theorem Earliest.mem (h : Earliest endings position e) : e ∈ endings :=
  List.mem_of_getElem? h.at_position

/-- A group has at most one first failure. -/
theorem FirstFailed.unique {w w' : Ending α} (h : FirstFailed endings w)
    (h' : FirstFailed endings w') : w = w' := by
  obtain ⟨hw, front, back, rfl, hfront, hback⟩ := h
  obtain ⟨hw', front', back', heq, hfront', hback'⟩ := h'
  -- of two, the one further back would have to be before the other, and must not be
  rcases List.append_cons_cases heq with ⟨-, hww'⟩ | ⟨hf, hb⟩ | ⟨hf, hb⟩
  · exact hww'
  · exact absurd (hfront' w hf hw) (hback w' hb hw')
  · exact absurd (hfront w' hf hw') (hback' w hb hw)

theorem FirstFailed.mem {w : Ending α} (h : FirstFailed endings w) : w ∈ endings := by
  obtain ⟨-, front, back, rfl, -⟩ := h
  simp

/-- Nobody fails earlier than the first failure. -/
theorem FirstFailed.time_le {w f : Ending α} (h : FirstFailed endings w) (hf : f ∈ endings)
    (hfailed : f.Failed) : w.time ≤ f.time := by
  obtain ⟨-, front, back, rfl, hfront, hback⟩ := h
  rcases List.mem_append.1 hf with hf | hf
  · rcases hfront f hf hfailed with hlt | ⟨heq, -⟩
    · exact Nat.le_of_lt hlt
    · exact Nat.le_of_eq heq
  · rcases List.mem_cons.1 hf with rfl | hf
    · exact Nat.le_refl _
    · exact Nat.not_lt.1 fun hlt => hback f hf hfailed (.inl hlt)

theorem errs_of_verdict {f : Ending α} {why : Halt} (h : f.verdict = .error why)
    (hne : why ≠ .exhausted) : f.Errs := by
  cases why with
  | failed err => exact ⟨err, h⟩
  | exhausted => exact absurd rfl hne

/-- A group that is watched together ends at the time of the first failure, with the error of
whoever takes the fewest turns then. -/
theorem Settles.failsAs_iff (h : Settles endings now out) (hout : out.verdict ≠ .error .exhausted)
    (he : Earliest endings position e) :
    FailsAs out.time out.verdict e ↔ ∃ w, FirstFailed endings w ∧ w.verdict = e.verdict := by
  rcases h with ⟨vs, -, hd⟩ | ⟨w, why, hw, hwv, hov, htime⟩
  · -- the first failure would have a value
    obtain ⟨v, -, hev⟩ := hd.values.flip.exists_left_of_mem he.mem
    exact absurd he.errs.failed (not_failed_of_ok hev)
  · constructor
    · rintro ⟨-, why', hev, hov'⟩
      obtain rfl : why = why' := by simpa [hov] using hov'
      exact ⟨w, hw, hwv.trans hev.symm⟩
    · rintro ⟨w', hw', hwe⟩
      obtain rfl := hw'.unique hw
      have hwerrs : w'.Errs := errs_of_verdict hwv (by rintro rfl; exact hout hov)
      refine ⟨?_, why, by rw [← hwe, hwv], hov⟩
      rw [htime]
      exact Nat.le_antisymm (hw.time_le he.mem he.errs.failed) (he.time_le hw.mem hwerrs)

/-- The failure at the lowest position by its position: all before it have values, and its time is
that of the last of them or its own. -/
theorem LowestFailed.exists_position {w : Ending α} {time : Nat} (h : LowestFailed endings w time) :
    ∃ k, endings[k]? = some w ∧
      (∀ (i : Nat) (f : Ending α), i < k → endings[i]? = some f → ∃ v, f.verdict = .ok v) ∧
      (∀ (i : Nat) (f : Ending α), i ≤ k → endings[i]? = some f → f.time ≤ time) ∧
      ∃ (i : Nat) (f : Ending α), i ≤ k ∧ endings[i]? = some f ∧ f.time = time := by
  obtain ⟨-, front, back, rfl, hvalues, hle, f, hf, hft⟩ := h
  have hlast : front ++ w :: back = (front ++ [w]) ++ back := by simp
  refine ⟨front.length, by simp, fun i g hi hg => ?_, fun i g hi hg => ?_, ?_⟩
  · rw [List.getElem?_append_left hi] at hg
    exact hvalues g (List.mem_of_getElem? hg)
  · have hi : i < (front ++ [w]).length := by simpa using Nat.lt_succ_of_le hi
    rw [hlast, List.getElem?_append_left hi] at hg
    exact hle g (List.mem_of_getElem? hg)
  · obtain ⟨i, hi, hfi⟩ := List.mem_iff_getElem.1 hf
    refine ⟨i, f, Nat.le_of_lt_succ (by simpa using hi), ?_, hft⟩
    rw [hlast, List.getElem?_append_left hi, List.getElem?_eq_getElem hi, hfi]

/-- A group that is served from a queue fails as it is meant to if everybody before the first
failure has ended by then. -/
theorem SettlesInOrder.failsAs_iff (h : SettlesInOrder endings now out)
    (hout : out.verdict ≠ .error .exhausted) (he : Earliest endings position e) :
    FailsAs out.time out.verdict e ↔
      ∀ (i : Nat) (f : Ending α), i < position → endings[i]? = some f → f.time ≤ e.time := by
  rcases h with ⟨vs, -, hd⟩ | ⟨w, why, hw, hwv, hov⟩ | ⟨hov, -⟩
  · obtain ⟨v, -, hev⟩ := hd.values.flip.exists_left_of_mem he.mem
    exact absurd he.errs.failed (not_failed_of_ok hev)
  · have hwerrs : w.Errs := errs_of_verdict hwv (by rintro rfl; exact hout hov)
    obtain ⟨k, hat, hvalues, hle, last, f, hlast, hf, hft⟩ := hw.exists_position
    have hfirst := he.first k w hat hwerrs
    constructor
    · rintro ⟨htime, -⟩ i g hi hg
      -- the group waits for the lowest failure, so the first is not before that
      have hwe : w.time ≤ e.time := htime ▸ hle k w (Nat.le_refl _) hat
      rcases hfirst with hlt | ⟨-, hp⟩
      · exact absurd hwe (Nat.not_le.2 hlt)
      · exact htime ▸ hle i g (Nat.le_trans (Nat.le_of_lt hi) hp) hg
    · intro hbefore
      have hkp : k = position := by
        rcases Nat.lt_trichotomy k position with hlt | heq | hgt
        · -- the lowest failure would have ended by then, and be the first
          have hwe := hbefore k w hlt hat
          rcases hfirst with hlt' | ⟨-, hp⟩
          · exact absurd hwe (Nat.not_le.2 hlt')
          · exact absurd hp (Nat.not_le.2 hlt)
        · exact heq
        · -- the first failure would have a value
          obtain ⟨v, hv⟩ := hvalues position e hgt he.at_position
          exact absurd he.errs.failed (not_failed_of_ok hv)
      obtain rfl : w = e := Option.some.inj (hat.symm.trans (hkp ▸ he.at_position))
      refine ⟨Nat.le_antisymm ?_ (hle k w (Nat.le_refl _) hat), why, hwv, hov⟩
      rw [← hft]
      rcases Nat.lt_or_eq_of_le hlast with hlt | rfl
      · exact hbefore last f (hkp ▸ hlt) hf
      · exact Nat.le_of_eq (congrArg Ending.time (Option.some.inj (hf.symm.trans hat)))
  · exact absurd hov hout

/-- There is at most one failure that has only values before it. -/
theorem LowestFailed.unique {w w' : Ending α} {time time' : Nat}
    (h : LowestFailed endings w time) (h' : LowestFailed endings w' time') :
    w = w' ∧ time = time' := by
  obtain ⟨hw, front, back, rfl, hfront, hle, f, hf, hft⟩ := h
  obtain ⟨hw', front', back', heq, hfront', hle', f', hf', hft'⟩ := h'
  rcases List.append_cons_cases heq with ⟨rfl, rfl⟩ | ⟨hf, -⟩ | ⟨hf, -⟩
  · -- both times are that of the last of the same endings
    exact ⟨rfl, Nat.le_antisymm (hft ▸ hle' f hf) (hft' ▸ hle f' hf')⟩
  · obtain ⟨v, hv⟩ := hfront' w hf
    exact absurd hw (not_failed_of_ok hv)
  · obtain ⟨v, hv⟩ := hfront w' hf
    exact absurd hw' (not_failed_of_ok hv)

/-- A group that is served from a queue ends with the failure at the lowest position. -/
theorem SettlesInOrder.of_lowest {w : Ending α} {time : Nat} (h : SettlesInOrder endings now out)
    (hout : out.verdict ≠ .error .exhausted) (hw : LowestFailed endings w time) :
    out.time = time ∧ ∃ why, w.verdict = .error why ∧ out.verdict = .error why := by
  rcases h with ⟨vs, -, hd⟩ | ⟨w', why, hw', hv, hov⟩ | ⟨hov, -⟩
  · obtain ⟨hfailed, front, back, rfl, -⟩ := hw
    obtain ⟨v, -, hev⟩ := hd.values.flip.exists_left_of_mem (show w ∈ front ++ w :: back by simp)
    exact absurd hfailed (not_failed_of_ok hev)
  · obtain ⟨rfl, rfl⟩ := hw'.unique hw
    exact ⟨rfl, why, hv, hov⟩
  · exact absurd hov hout

/-- **A group of any size** fails with the first failure if and only if its members are in time. -/
theorem Joins.failsAs_iff (h : Joins endings now out) (hout : out.verdict ≠ .error .exhausted)
    (he : Earliest endings position e) :
    FailsAs out.time out.verdict e ↔ InTime endings position e := by
  unfold Joins at h
  unfold InTime
  split at h
  · rename_i hn
    rw [if_pos hn]
    exact h.failsAs_iff hout he
  · rename_i hn
    rw [if_neg hn]
    exact h.failsAs_iff hout he

end Ending

/-! ### Joins of a plan -/

namespace Plan

open Ending

/-- The calls of a join as they end if the join is launched at `time`. -/
def endings (calls : List Call) (time : Nat) : List (Ending Json) :=
  calls.map fun call => call.ending time

/-- Calls come to an end within the budget where each of them does. -/
theorem verdict_launchAll_ne_exhausted {calls : List Call} {time : Nat}
    (hall : ∀ e ∈ endings calls time, e.verdict ≠ .error .exhausted) :
    (launchAll calls time).verdict ≠ .error .exhausted := by
  intro hv
  rcases (joins_joinEnding calls time).delivers_or_error with
    ⟨vs, hvs, -⟩ | ⟨e, he, why, hwhy, hout⟩
  · rw [verdict_joinEnding, hv] at hvs
    exact absurd hvs (by simp)
  · rw [verdict_joinEnding, hv] at hout
    obtain rfl := Except.error.inj hout
    exact hall e he hwhy

/-- **When a join fails with the first failure.** Some call of a join fails on a clock, and the join
comes to its end within the budget. Then there is a first failure, and the join fails with its error
and at its time if and only if the calls are in time.

All joins are of this form: of parameters (`Declaration.plan`), of the arguments of a raw handler
(`Handler.plan`), and of the parts of a container (`TypeSpec.resolve`). -/
theorem failsAs_earliest_iff (calls : List Call) (rest : List Json → Plan) (time : Nat)
    (hfail : ∃ call ∈ calls, ∃ err, (call.body.launch time).verdict = .error (.failed err))
    (hend : ((join calls rest).launch time).verdict ≠ .error .exhausted) :
    (∃ position e, Earliest (endings calls time) position e) ∧
      ∀ position e, Earliest (endings calls time) position e →
        (FailsAs ((join calls rest).launch time).settledAt
            ((join calls rest).launch time).verdict e ↔
          InTime (endings calls time) position e) := by
  obtain ⟨call, hcall, err, herr⟩ := hfail
  have herrs : ∃ f ∈ endings calls time, f.Errs :=
    ⟨call.ending time, List.mem_map_of_mem hcall, err, by rw [Call.verdict_ending, herr]⟩
  refine ⟨exists_earliest herrs, fun position e he => ?_⟩
  -- the join is over when the calls are, so it is enough to look at those
  have hnone : ∀ v, (call.body.launch time).verdict ≠ .ok v := fun v hv => by simp [herr] at hv
  obtain ⟨why, hv⟩ := verdict_launchAll_of_missing hcall hnone
  rw [launch_join_of_error hv] at hend ⊢
  have hout : (joinEnding calls time).verdict ≠ .error .exhausted := by
    rw [verdict_joinEnding, hv]
    exact fun h => hend (by rw [Except.error.inj h])
  have hiff := (joins_joinEnding calls time).failsAs_iff hout he
  rw [time_joinEnding, verdict_joinEnding, hv, failsAs_error] at hiff
  exact failsAs_error.trans hiff

/-- A join of many calls fails as the call at the lowest position that fails, when that and all
calls before it have ended. -/
theorem launch_join_of_lowest {calls : List Call} {time last : Nat} {w : Ending Json}
    (hmany : Course.narrowLimit < calls.length)
    (hall : ∀ e ∈ endings calls time, e.verdict ≠ .error .exhausted)
    (hw : LowestFailed (endings calls time) w last) (rest : List Json → Plan) :
    ((join calls rest).launch time).settledAt = last ∧
      ∃ why, w.verdict = .error why ∧ ((join calls rest).launch time).verdict = .error why := by
  have hjoins := joins_joinEnding calls time
  rw [Joins, List.length_map, if_neg (Nat.not_le.2 hmany)] at hjoins
  have hout : (joinEnding calls time).verdict ≠ .error .exhausted := by
    rw [verdict_joinEnding]
    exact verdict_launchAll_ne_exhausted hall
  obtain ⟨htime, why, hwhy, hv⟩ := hjoins.of_lowest hout hw
  rw [time_joinEnding] at htime
  rw [verdict_joinEnding] at hv
  rw [launch_join_of_error hv]
  exact ⟨htime, why, hwhy, rfl⟩

end Plan

/-! ### A race between two failures -/

namespace Stock

open Ending

/-- The core interpreters with a handler that collects values, a routine that waits before it goes
on, and two handlers that fail. -/
def racingBuilder : Builder :=
  (Core.builder .production).registerAll
    [("$all", .raw params),
      ("$then", .pair (some (.written delayEvaluated)) (some (.written delayEvaluated))),
      ("$bad", .raw (failure (.stated "bad" .handler))),
      ("$worse", .raw (failure (.stated "worse" .handler)))]

/-- Arguments of which the first fails at time ten and the second at once. The others do not
fail. -/
def racers (others : Nat) : List Json :=
  .arr [.str "$then", .ofInt 10, .arr [.str "$worse"]] :: .arr [.str "$bad"] ::
    List.replicate others .null

/-- How the first argument ends. -/
def lateFailure : Ending Json :=
  ⟨10, 0, .error (.failed ((EvalError.stated "worse" .handler).within "$worse"))⟩

/-- How the second argument ends. -/
def earlyFailure : Ending Json :=
  ⟨0, 0, .error (.failed ((EvalError.stated "bad" .handler).within "$bad"))⟩

/-- The endings of a race. -/
def raceEndings (others : Nat) : List (Ending Json) :=
  lateFailure :: earlyFailure :: List.replicate others ⟨0, 0, .ok .null⟩

/-- What a race of any size is: a join whose calls have these endings, whatever the budget. -/
theorem exists_race (others : Nat) :
    ∃ registry, racingBuilder.build = .ok registry ∧ ∀ budget, ∃ calls events rest,
      calls = (racers others).map (registry.evaluator (budget + 2) .async (.root .null)) ∧
      Plan.endings calls 0 = raceEndings others ∧
      registry.planWithin (budget + 3) .async (.root .null) (.arr (.str "$all" :: racers others)) =
        .emitAll events ((Plan.join calls rest).within "$all") := by
  refine ⟨_, rfl, fun budget => ⟨_, _, _, rfl, ?_, rfl⟩⟩
  simp only [Plan.endings, racers, raceEndings, List.map_cons, List.map_replicate]
  with_unfolding_all rfl

/-- The second argument fails first. -/
theorem earliest_race (others : Nat) : Earliest (raceEndings others) 1 earlyFailure where
  at_position := rfl
  errs := ⟨_, rfl⟩
  first i f hf herrs := by
    match i, hf with
    | 0, hf =>
      obtain rfl : lateFailure = f := Option.some.inj hf
      exact .inl (Nat.succ_pos 9)
    | 1, hf =>
      obtain rfl : earlyFailure = f := Option.some.inj hf
      exact .inr ⟨rfl, Nat.le_refl _⟩
    | i + 2, hf =>
      obtain ⟨-, rfl⟩ : i < others ∧ (⟨0, 0, .ok .null⟩ : Ending Json) = f := by
        simpa [raceEndings, List.getElem?_replicate] using hf
      exact absurd herrs.failed (not_failed_of_ok rfl)

theorem race_ne_exhausted (others : Nat) :
    ∀ e ∈ raceEndings others, e.verdict ≠ .error .exhausted := by
  simp [raceEndings, lateFailure, earlyFailure, List.mem_replicate]

/-- With few calls a race ends when the second argument fails, and with its error. -/
theorem launch_fails_early :
    ∃ registry, racingBuilder.build = .ok registry ∧ ∀ budget,
      FailsAs
        ((registry.planWithin (budget + 3) .async (.root .null)
          (.arr (.str "$all" :: racers 1))).launch 0).settledAt
        ((registry.planWithin (budget + 3) .async (.root .null)
          (.arr (.str "$all" :: racers 1))).launch 0).verdict earlyFailure := by
  obtain ⟨registry, hbuild, hrace⟩ := exists_race 1
  refine ⟨registry, hbuild, fun budget => ?_⟩
  obtain ⟨calls, events, rest, -, hendings, hplan⟩ := hrace budget
  rw [hplan, Plan.launch_emitAll, Plan.launch_within]
  -- the second argument is a call that fails
  have hmem : earlyFailure ∈ Plan.endings calls 0 := by simp [hendings, raceEndings]
  obtain ⟨call, hcall, hending⟩ := List.mem_map.1 hmem
  have herr : (call.body.launch 0).verdict = earlyFailure.verdict := by
    rw [← Call.verdict_ending, hending]
  -- so the join fails too
  have hnone : ∀ v, (call.body.launch 0).verdict ≠ .ok v := fun v hv => by
    simp [herr, earlyFailure] at hv
  obtain ⟨why, hv⟩ := Plan.verdict_launchAll_of_missing hcall hnone
  have hne := Plan.verdict_launchAll_ne_exhausted (hendings ▸ race_ne_exhausted 1)
  have hend : ((Plan.join calls rest).launch 0).verdict ≠ .error .exhausted := by
    rw [Plan.launch_join_of_error hv]
    exact fun h => hne (hv.trans (by rw [Except.error.inj h]))
  -- and nobody fails before the second argument
  refine FailsAs.within (((Plan.failsAs_earliest_iff calls rest 0 ⟨call, hcall, _, herr⟩ hend).2 1
    earlyFailure (hendings ▸ earliest_race 1)).2 ?_) rfl "$all"
  rw [hendings]
  refine ⟨earlyFailure, ⟨⟨_, rfl⟩, [lateFailure], [⟨0, 0, .ok .null⟩], rfl, ?_, ?_⟩, rfl⟩
  · simp [before, lateFailure, earlyFailure]
  · simp [Failed]

/-- With many calls it only ends when the first argument fails, ten ticks after the first
failure. -/
theorem launch_fails_late :
    ∃ registry, racingBuilder.build = .ok registry ∧ ∀ budget,
      Earliest (Plan.endings
        ((racers 29).map (registry.evaluator (budget + 2) .async (.root .null))) 0) 1 earlyFailure ∧
      ((registry.planWithin (budget + 3) .async (.root .null)
        (.arr (.str "$all" :: racers 29))).launch 0).settledAt = 10 ∧
      ((registry.planWithin (budget + 3) .async (.root .null)
        (.arr (.str "$all" :: racers 29))).launch 0).verdict =
          .error (.failed ((EvalError.stated "worse" .handler).within "$worse")) := by
  obtain ⟨registry, hbuild, hrace⟩ := exists_race 29
  refine ⟨registry, hbuild, fun budget => ?_⟩
  obtain ⟨calls, events, rest, hcalls, hendings, hplan⟩ := hrace budget
  rw [← hcalls, hplan, Plan.launch_emitAll, Plan.launch_within]
  refine ⟨hendings ▸ earliest_race 29, ?_⟩
  have hlength : calls.length = 31 := by simp [hcalls, racers]
  have hlowest : LowestFailed (Plan.endings calls 0) lateFailure 10 := by
    rw [hendings]
    exact ⟨⟨_, rfl⟩, [], _, rfl, by simp, by simp [lateFailure], by simp [lateFailure]⟩
  obtain ⟨htime, why, hwhy, hv⟩ := Plan.launch_join_of_lowest (by rw [hlength]; decide)
    (hendings ▸ race_ne_exhausted 29) hlowest rest
  refine ⟨htime, ?_⟩
  -- the error is tagged already when it leaves the join
  have hverdict : ((Plan.join calls rest).launch 0).verdict = lateFailure.verdict :=
    hv.trans hwhy.symm
  exact congrArg (Except.mapError (Halt.within "$all")) hverdict

end Stock

end SigilExpr
