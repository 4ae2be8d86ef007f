import SigilExpr.Proofs.Course.AtOnce
import SigilExpr.Proofs.Diagnostics

/-!
# What can be seen of an evaluation from outside

Two nodes can have evaluations that differ in the nodes they visit and in the handlers they call,
and still nobody outside can tell them apart: they come to the same result, they write the same
entries to the log and warn about the same identifiers, and on a clock all this happens at the same
times. `Plan.LooksLike` is that relation between plans.

It holds of plans that go the same way as far as entries and warnings go (`Event.isSeen`,
`Plan.LooksLike.of_tracks`). The case that comes up wherever arguments are written down rather than
worked out is a join of calls each of which has its value at once: it is over at once, and nothing
is left of it but its events (`Plan.join_atOnce_tracks`).
-/

namespace SigilExpr

variable {α : Type} {keep : Event → Bool}

/-! ### Plans that look alike -/

/-- The event can be seen from outside. -/
def Event.isSeen : Event → Bool
  | logged _ => true
  | warned _ => true
  | _ => false

/-- The plans come to the same with the same log and the same warnings, on the spot and on a
clock. -/
structure Plan.LooksLike (p q : Plan) : Prop extends p.SameResults q where
  warnings : p.run.warnings = q.run.warnings
  warningsAt : ∀ time, (p.launch time).warnings = (q.launch time).warnings

/-- What is warned about can be told from some of the events if no warning is left out. -/
theorem Run.warnings_filter (hwarned : ∀ id, keep (.warned id) = true) (run : Run α) :
    (run.filter keep).warnings = run.warnings := by
  rw [warnings, warnings, filter, List.filterMap_filter]
  refine List.filterMap_congr fun event _ => ?_
  cases event <;> simp [Event.warned?, hwarned]

theorem Timeline.warnings_filter (hwarned : ∀ id, keep (.warned id) = true) (line : Timeline α) :
    (line.filter keep).warnings = line.warnings := by
  rw [warnings, warnings, filter, List.filterMap_filter]
  refine List.filterMap_congr fun entry _ => ?_
  obtain ⟨time, event⟩ := entry
  cases event <;> simp [Event.warned?, hwarned]

/-- **Plans look alike** if they go the same way as far as the events go that are seen. -/
theorem Plan.LooksLike.of_tracks {p q : Plan} (h : p.Tracks Event.isSeen False q) :
    p.LooksLike q where
  toSameResults := .of_tracks_logged (fun _ => rfl) h
  warnings := by
    have hrun : p.run.filter Event.isSeen = q.run.filter Event.isSeen := h.run nofun
    have hwarned : ∀ id, Event.isSeen (.warned id) = true := fun _ => rfl
    rw [← Run.warnings_filter hwarned p.run, hrun, Run.warnings_filter hwarned]
  warningsAt time := by
    have hlaunch : (p.launch time).filter Event.isSeen = (q.launch time).filter Event.isSeen :=
      h.launch nofun
    have hwarned : ∀ id, Event.isSeen (.warned id) = true := fun _ => rfl
    rw [← Timeline.warnings_filter hwarned (p.launch time), hlaunch,
      Timeline.warnings_filter hwarned]

/-! ### Calls that are over at once -/

/-- The call that lets some events happen once it is waited for, and has its value then. -/
def Call.atOnce (events : List Event) (v : Json) : Call := .ofPlan (.emitAll events (.done v))

namespace Plan

/-- What has its value at once, as part of any turn. -/
private theorem course_atOnce (events : List Event) (v : Json) (now : Nat) :
    Course.AtOnce ((Call.atOnce events v).body.course now) ⟨events, .ok v⟩ := by
  intro turn
  rw [Call.atOnce, Call.ofPlan, course_emitAll, course_done]

private theorem sequence_atOnce (xs : List (List Event × Json)) :
    Run.sequence (xs.map fun x => (⟨x.1, .ok x.2⟩ : Run Json)) =
      ⟨xs.flatMap Prod.fst, .ok (xs.map Prod.snd)⟩ := by
  induction xs with
  | nil => rfl
  | cons x xs ih =>
    rw [List.map_cons, Run.sequence_cons_of_ok rfl, ih]
    rfl

private theorem runAll_atOnce (xs : List (List Event × Json)) :
    runAll (xs.map fun x => .atOnce x.1 x.2) = ⟨xs.flatMap Prod.fst, .ok (xs.map Prod.snd)⟩ := by
  have hrun : ∀ x : List Event × Json,
      (Call.atOnce x.1 x.2).body.run.after (Call.atOnce x.1 x.2).opening = ⟨x.1, .ok x.2⟩ := by
    intro x
    rw [Call.atOnce, Call.ofPlan, run_emitAll, run_done, Run.after_nil, Run.after, Run.done,
      List.append_nil]
  rw [runAll_eq_sequence, List.map_map, ← sequence_atOnce]
  exact congrArg Run.sequence (List.map_congr_left fun x _ => hrun x)

/-- **A join of calls that are over at once** goes on at once. -/
theorem join_map_atOnce_tracks {cuts : Prop} (xs : List (List Event × Json))
    (rest : List Json → Plan) :
    (join (xs.map fun x => .atOnce x.1 x.2) rest).Tracks keep cuts
      (emitAll (xs.flatMap Prod.fst) (rest (xs.map Prod.snd))) := by
  have hopening : (xs.map fun x => Call.atOnce x.1 x.2).flatMap Call.opening = [] := by
    rw [List.flatMap_map]
    exact List.flatMap_eq_nil_iff.2 fun _ _ => rfl
  have hmembers : ∀ now, List.Forall₂ Course.AtOnce
      (starts (xs.map fun x => .atOnce x.1 x.2) now) (xs.map fun x => ⟨x.1, .ok x.2⟩) := by
    intro now
    rw [starts_eq_map, List.forall₂_map_left_iff, List.forall₂_map_left_iff,
      List.forall₂_map_right_iff]
    exact List.forall₂_same.2 fun x _ => course_atOnce x.1 x.2 now
  -- once the group is over, both plans are the one that goes on with its values
  have hself : (emitAll (xs.flatMap Prod.fst) (rest (xs.map Prod.snd))).Tracks keep cuts
      (emitAll (xs.flatMap Prod.fst) (rest (xs.map Prod.snd))) := tracks_self _
  refine ⟨?_, fun now s t hst => ?_⟩
  · rw [run_join, runAll_atOnce, run_emitAll]
    exact .refl _
  · have hgroup := Course.join_atOnce (hmembers now) now s
    rw [sequence_atOnce] at hgroup
    rw [course_join, hopening, Turn.noteAll_nil, hgroup]
    have hrest := hself.course now s t hst
    rwa [course_emitAll] at hrest

/-- So does a join of calls that cannot be told from such calls. -/
theorem join_tracks_of_atOnce {calls : List Call} {xs : List (List Event × Json)}
    (h : List.Forall₂ (fun call x => call.Tracks keep False (.atOnce x.1 x.2)) calls xs)
    (rest : List Json → Plan) :
    (join calls rest).Tracks keep False
      (emitAll (xs.flatMap Prod.fst) (rest (xs.map Prod.snd))) := by
  have hcalls : List.Forall₂ (Call.Tracks keep False) calls (xs.map fun x => .atOnce x.1 x.2) := by
    rwa [List.forall₂_map_right_iff]
  -- first the calls are replaced in the join, then the join goes
  exact (join_tracks hcalls fun vs _ => tracks_self (rest vs)).trans
    (join_map_atOnce_tracks xs rest)

end Plan

end SigilExpr
