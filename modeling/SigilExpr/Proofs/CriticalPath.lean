import SigilExpr.Proofs.Boundary
import SigilExpr.Proofs.Course.Gather
import SigilExpr.Proofs.Timing

/-!
# How long an evaluation takes

An evaluation on a clock that comes to a value takes as long as its longest path. A `Span` says how
long something takes, and when in that time handlers are called; spans follow one another
(`Span.next`) or lie side by side (`Span.beside`), where the longest one counts.

`Registry.span` is the span of a node, by recursion on what stands in it: nothing for what is not
evaluated, the ticks of a hand-written executable and what it goes on with, and for a handler the
longest of its parameters, then the call, then what it goes on with. The main result,
`Registry.launch_takes_span`, is that the evaluation of the node takes this span from whatever time
it is launched, and that handlers are called at these times and at no others.

Values enter the recursion, since it takes a value to know what comes next. They are the values on
the spot, which are those on the clock (`Plan.verdict_launch_eq_ok_iff`).
-/

namespace SigilExpr

variable {α β : Type}

/-! ### Spans -/

/-- How long something takes, and the calls of handlers in that time, with the ticks since its
beginning. -/
structure Span where
  ticks : Nat
  calls : Multiset (Nat × Invocation)

namespace Span

/-- No time, and no handler. -/
def zero : Span := ⟨0, 0⟩

/-- The call of a handler. -/
def call (invocation : Invocation) : Span := ⟨0, {(0, invocation)}⟩

/-- What happens on the spot takes no time. -/
def onTheSpot (events : List Event) : Span :=
  ⟨0, (events.filterMap Event.invoked?).map (0, ·)⟩

/-- Calls that are made later. -/
def shift (ticks : Nat) (calls : Multiset (Nat × Invocation)) : Multiset (Nat × Invocation) :=
  calls.map fun entry => (ticks + entry.1, entry.2)

/-- One span after another. -/
def next (a b : Span) : Span := ⟨a.ticks + b.ticks, a.calls + shift a.ticks b.calls⟩

/-- Spans side by side. -/
def beside : List Span → Span
  | [] => zero
  | s :: spans => ⟨max s.ticks (beside spans).ticks, s.calls + (beside spans).calls⟩

/-- Goes on with a value, if there is one. -/
def andThen (s : Span) (verdict : Except Halt α) (rest : α → Span) : Span :=
  match verdict with
  | .ok a => s.next (rest a)
  | .error _ => s

@[simp] theorem shift_add (ticks : Nat) (a b : Multiset (Nat × Invocation)) :
    shift ticks (a + b) = shift ticks a + shift ticks b :=
  Multiset.map_add _ a b

@[simp] theorem shift_zero (ticks : Nat) : shift ticks 0 = 0 := rfl

theorem shift_shift (m n : Nat) (calls : Multiset (Nat × Invocation)) :
    shift m (shift n calls) = shift (m + n) calls := by
  rw [shift, shift, shift, Multiset.map_map]
  simp only [Function.comp_def, Nat.add_assoc]

@[simp] theorem zero_next (s : Span) : next .zero s = s := by
  simp [next, zero, shift]

theorem onTheSpot_eq_zero {events : List Event} (h : events.filterMap Event.invoked? = []) :
    onTheSpot events = .zero := by
  rw [onTheSpot, h]
  rfl

theorem ticks_le_beside {s : Span} {spans : List Span} (h : s ∈ spans) :
    s.ticks ≤ (beside spans).ticks := by
  induction spans with
  | nil => simp at h
  | cons first spans ih =>
    rw [beside]
    rcases List.mem_cons.1 h with rfl | h
    · exact Nat.le_max_left _ _
    · exact Nat.le_trans (ih h) (Nat.le_max_right _ _)

theorem exists_ticks_eq_beside (spans : List Span) :
    (beside spans).ticks = 0 ∨ ∃ s ∈ spans, s.ticks = (beside spans).ticks := by
  induction spans with
  | nil => exact .inl rfl
  | cons first spans ih =>
    rw [beside]
    -- the longest is the first one, or whichever is the longest of the others
    rcases Nat.le_total first.ticks (beside spans).ticks with h | h
    · rw [Nat.max_eq_right h]
      exact ih.imp_right fun ⟨s, hs, ht⟩ => ⟨s, List.mem_cons_of_mem _ hs, ht⟩
    · exact .inr ⟨first, List.mem_cons_self, (Nat.max_eq_left h).symm⟩

@[simp] theorem next_zero (s : Span) : s.next .zero = s := by
  simp [next, zero]

@[simp] theorem andThen_zero (s : Span) (verdict : Except Halt α) :
    (s.andThen verdict fun _ => .zero) = s := by
  cases verdict <;> simp [andThen]

end Span

/-! ### Plans and their spans -/

/-- The dated calls of handlers. -/
def Timeline.calls (line : Timeline α) : Multiset (Nat × Invocation) :=
  line.trace.filterMap fun entry => entry.2.invoked?.map fun call => (entry.1, call)

/-- The timeline of something that begins at `start` and takes a span. -/
structure Timeline.Takes (line : Timeline α) (start : Nat) (s : Span) : Prop where
  settledAt : line.settledAt = start + s.ticks
  calls : line.calls = Span.shift start s.calls

/-- Whenever the plan is launched, it takes a span if it comes to a value. -/
def Plan.Takes (p : Plan) (s : Span) : Prop :=
  ∀ start v, (p.launch start).verdict = .ok v → (p.launch start).Takes start s

/-- No handler is called at once, and the body takes a span. -/
def Call.Takes (call : Call) (s : Span) : Prop :=
  call.opening.filterMap Event.invoked? = [] ∧ call.body.Takes s

namespace Timeline

theorem calls_after (events : List (Nat × Event)) (line : Timeline α) :
    (line.after events).calls =
      (events.filterMap fun entry => entry.2.invoked?.map fun call => (entry.1, call)) +
        line.calls := by
  rw [calls, after, List.filterMap_append, ← Multiset.coe_add]
  rfl

/-- What happens on the spot is part of the span at its beginning. -/
theorem Takes.after {line : Timeline α} {start : Nat} {s : Span} (h : line.Takes start s)
    (events : List Event) :
    (line.after (events.map (start, ·))).Takes start ((Span.onTheSpot events).next s) where
  settledAt := by
    show line.settledAt = start + (0 + s.ticks)
    rw [h.settledAt, Nat.zero_add]
  calls := by
    -- the dates are the same for all of these events, so they can be put on afterwards
    have hevents : ((events.map (start, ·)).filterMap fun entry =>
        entry.2.invoked?.map fun call => (entry.1, call)) =
          (events.filterMap Event.invoked?).map (start, ·) := by
      rw [List.filterMap_map, List.map_filterMap]
      rfl
    rw [calls_after, hevents, h.calls, Span.next, Span.shift_add, Span.shift_shift]
    simp [Span.onTheSpot, Span.shift, Function.comp_def]

theorem Takes.bind {line : Timeline α} {start : Nat} {s t : Span} {a : α}
    {next : Nat → α → Timeline β} (h : line.Takes start s) (ha : line.verdict = .ok a)
    (hnext : (next line.settledAt a).Takes line.settledAt t) :
    (line.bind next).Takes start (s.next t) := by
  have hbind : line.bind next = (next line.settledAt a).after line.trace := by
    rw [Timeline.bind, ha]
  rw [hbind]
  constructor
  · show (next line.settledAt a).settledAt = start + (s.ticks + t.ticks)
    rw [hnext.settledAt, h.settledAt, Nat.add_assoc]
  · -- what comes after begins when the first has come to its end
    have hfirst : ((line.trace.filterMap fun entry =>
        entry.2.invoked?.map fun call => (entry.1, call) : List _) : Multiset _) =
          Span.shift start s.calls := h.calls
    rw [calls_after, hfirst, hnext.calls, h.settledAt, Span.next, Span.shift_add,
      Span.shift_shift]

end Timeline

namespace Plan

theorem takes_done (v : Json) : (done v).Takes .zero := fun _ _ _ => ⟨rfl, rfl⟩

theorem takes_halt (why : Halt) (s : Span) : (halt why).Takes s := fun _ _ h => by simp at h

theorem takes_ofResult (result : Except EvalError Json) : (ofResult result).Takes .zero := by
  cases result with
  | ok v => exact takes_done v
  | error e => exact takes_halt _ _

theorem Takes.emitAll {p : Plan} {s : Span} (h : p.Takes s) (events : List Event) :
    (Plan.emitAll events p).Takes ((Span.onTheSpot events).next s) := by
  intro start v hv
  rw [launch_emitAll] at hv ⊢
  exact (h start v hv).after events

theorem Takes.wait {p : Plan} {s : Span} (h : p.Takes s) (ticks : Nat) :
    (Plan.wait ticks p).Takes (Span.next ⟨ticks, 0⟩ s) := by
  intro start v hv
  rw [launch_wait] at hv ⊢
  -- to wait is to be launched later
  obtain ⟨htime, hcalls⟩ := h (start + ticks) v hv
  refine ⟨by rw [htime, Span.next, Nat.add_assoc], ?_⟩
  rw [hcalls, Span.next, zero_add, Span.shift_shift]

/-- A tag is of no account where there is a value. -/
theorem Takes.within {p : Plan} {s : Span} (h : p.Takes s) (id : String) :
    (p.within id).Takes s := by
  intro start v hv
  rw [launch_within] at hv ⊢
  have htakes := h start v (Timeline.verdict_within_eq_ok_iff.1 hv)
  exact ⟨htakes.settledAt, htakes.calls⟩

theorem Takes.bind {p : Plan} {next : Json → Plan} {s : Span} {rest : Json → Span}
    (h : p.Takes s) (hnext : ∀ v, (next v).Takes (rest v)) :
    (p.bind next).Takes (s.andThen p.run.verdict rest) := by
  intro start w hw
  rw [launch_bind] at hw ⊢
  obtain ⟨v, hv, hlater⟩ := Timeline.verdict_bind_eq_ok_iff.1 hw
  -- the value is the one on the spot
  have hspot : p.run.verdict = .ok v := (verdict_launch_eq_ok_iff p start v).1 hv
  rw [hspot, Span.andThen]
  exact (h start v hv).bind hv (hnext v _ w hlater)

theorem Takes.ask {question : Plan} {resume : Except EvalError Json → Plan}
    {rest : Except EvalError Json → Span} (h : ∀ answer, (resume answer).Takes (rest answer)) :
    (Plan.ask question resume).Takes
      ((Span.onTheSpot question.run.trace).next <|
        match question.run.verdict with
        | .ok v => rest (.ok v)
        | .error (.failed e) => rest (.error e)
        | .error .exhausted => .zero) := by
  intro start w hw
  rw [launch_ask] at hw ⊢
  -- the question is answered on the spot, whatever it takes elsewhere; the third case has no value
  split <;> rename_i hv <;> simp only [hv] at hw ⊢
  · exact (h _ start w hw).after _
  · exact (h _ start w hw).after _
  · simp at hw

/-! ### Joins take as long as the longest call -/

theorem le_settledAt_launchAll (calls : List Call) (time : Nat) :
    time ≤ (launchAll calls time).settledAt := by
  rw [← time_joinEnding]
  exact (Course.le_ending (Course.join_settles (starts_endings calls time) _).1 0).1

private theorem sum_map_coe {γ : Type} (xs : List α) (f : α → List γ) :
    (xs.map fun x => (f x : Multiset γ)).sum = xs.flatMap f := by
  induction xs with
  | nil => rfl
  | cons x xs ih => rw [List.map_cons, List.sum_cons, ih, List.flatMap_cons, Multiset.coe_add]

/-- All that happens to calls which come to values happens when they are made side by side, and
nothing else does. -/
theorem trace_launchAll {calls : List Call} {time : Nat} {vs : List Json}
    (h : (launchAll calls time).verdict = .ok vs) :
    (launchAll calls time).trace.Perm ((calls.flatMap Call.opening).map (time, ·) ++
      calls.flatMap fun call => (call.body.launch time).trace) := by
  have hgathers := Course.join_gathers (starts_endings calls time)
    (Turn.start.noteAll (calls.flatMap Call.opening)) h
  -- a call that is started on its own does what it does when it is launched
  have hparts : ((starts calls time).map fun start => (start .start).dated time) =
      calls.map fun call => ((call.body.launch time).trace : Multiset (Nat × Event)) := by
    rw [starts_eq_map, List.map_map]
    rfl
  rw [Turn.dated_noteAll, Turn.dated_start, zero_add, hparts, sum_map_coe, Multiset.coe_add]
    at hgathers
  exact Multiset.coe_eq_coe.1 hgathers

section

variable {calls : List Call} {spans : List Span}
  (h : List.Forall₂ (fun call s => call.Takes s) calls spans) {time : Nat} {vs : List Json}
  (hv : (launchAll calls time).verdict = .ok vs)

include h hv

/-- Each of the calls takes its span. -/
private theorem takes_of_launchAll :
    List.Forall₂ (fun call s => call.opening.filterMap Event.invoked? = [] ∧
      (call.body.launch time).Takes time s) calls spans := by
  have hvalues := verdict_launchAll_eq_ok_iff.1 hv
  have hcalls : ∀ call ∈ calls, ∃ v, (call.body.launch time).verdict = .ok v := by
    intro call hm
    obtain ⟨v, -, hcall⟩ := hvalues.flip.exists_left_of_mem hm
    exact ⟨v, hcall⟩
  refine ((List.forall₂_and_left _ _).2 ⟨hcalls, h⟩).imp fun call s hcall => ?_
  obtain ⟨⟨v, hv⟩, hopening, hbody⟩ := hcall
  exact ⟨hopening, hbody time v hv⟩

private theorem settledAt_launchAll :
    (launchAll calls time).settledAt = time + (Span.beside spans).ticks := by
  have htakes := takes_of_launchAll h hv
  have hstart := le_settledAt_launchAll calls time
  -- all calls have ended by then, and one of them ends then
  obtain ⟨hle, hat⟩ : (∀ call ∈ calls, (call.body.launch time).settledAt ≤
        (launchAll calls time).settledAt) ∧
      ((launchAll calls time).settledAt = time ∨
        ∃ call ∈ calls, (call.body.launch time).settledAt = (launchAll calls time).settledAt) := by
    -- a join delivers or fails, and this one has values
    rcases (joins_joinEnding calls time).delivers_or_error with
      ⟨ws, -, hd⟩ | ⟨e, -, why, -, hout⟩
    · rw [time_joinEnding] at hd
      have hmem : ∀ call ∈ calls, (call.body.launch time).settledAt ≤
          (launchAll calls time).settledAt := by
        intro call hm
        rw [← call.time_ending time]
        exact hd.le_time _ (List.mem_map_of_mem hm)
      refine ⟨hmem, hd.attained.imp_right ?_⟩
      rintro ⟨e, he, ht⟩
      obtain ⟨call, hm, rfl⟩ := List.mem_map.1 he
      exact ⟨call, hm, (call.time_ending time).symm.trans ht⟩
    · rw [verdict_joinEnding, hv] at hout
      exact nomatch hout
  refine Nat.le_antisymm ?_ ?_
  · -- the call that ends last takes no longer than the longest span
    rcases hat with ht | ⟨call, hm, ht⟩
    · omega
    · obtain ⟨s, hs, -, hcall⟩ := htakes.flip.exists_left_of_mem hm
      have hlong := Span.ticks_le_beside hs
      calc (launchAll calls time).settledAt
        _ = time + s.ticks := ht ▸ hcall.settledAt
        _ ≤ time + (Span.beside spans).ticks := Nat.add_le_add_left hlong time
  · -- and the call with the longest span has ended, too
    rcases Span.exists_ticks_eq_beside spans with hzero | ⟨s, hs, ht⟩
    · omega
    · obtain ⟨call, hm, -, hcall⟩ := htakes.exists_left_of_mem hs
      calc time + (Span.beside spans).ticks
        _ = (call.body.launch time).settledAt := by rw [hcall.settledAt, ht]
        _ ≤ (launchAll calls time).settledAt := hle call hm

private theorem calls_launchAll :
    (launchAll calls time).calls = Span.shift time (Span.beside spans).calls := by
  have htakes := takes_of_launchAll h hv
  have htrace := (trace_launchAll hv).filterMap fun entry =>
    entry.2.invoked?.map fun call => (entry.1, call)
  rw [List.filterMap_append, List.filterMap_flatMap] at htrace
  -- no handler is called at the moment of a call, so the bodies account for all calls of handlers
  have hopening : ((calls.flatMap Call.opening).map (time, ·)).filterMap (fun entry =>
      entry.2.invoked?.map fun call => (entry.1, call)) = [] := by
    rw [List.filterMap_eq_nil_iff]
    intro entry hm
    obtain ⟨event, hevent, rfl⟩ := List.mem_map.1 hm
    obtain ⟨call, hcall, hevent⟩ := List.mem_flatMap.1 hevent
    obtain ⟨s, -, hnone, -⟩ := htakes.flip.exists_left_of_mem hcall
    rw [List.filterMap_eq_nil_iff.1 hnone event hevent]
    rfl
  rw [hopening, List.nil_append] at htrace
  rw [Timeline.calls, Multiset.coe_eq_coe.2 htrace]
  -- what is left is about the list of bodies alone, and the induction must not carry the rest
  clear htrace hopening hv h
  induction htakes with
  | nil => rfl
  | @cons call s calls spans hcall _ ih =>
    rw [List.flatMap_cons, ← Multiset.coe_add, ih, Span.beside, Span.shift_add, ← hcall.2.calls]
    rfl

theorem Takes.launchAll : (launchAll calls time).Takes time (.beside spans) :=
  ⟨settledAt_launchAll h hv, calls_launchAll h hv⟩

end

theorem Takes.join {calls : List Call} {spans : List Span} {rest : List Json → Plan}
    {f : List Json → Span} (h : List.Forall₂ (fun call s => call.Takes s) calls spans)
    (hrest : ∀ vs, (rest vs).Takes (f vs)) :
    (Plan.join calls rest).Takes ((Span.beside spans).andThen (runAll calls).verdict f) := by
  intro start w hw
  rw [launch_join] at hw ⊢
  obtain ⟨vs, hvs, hlater⟩ := Timeline.verdict_bind_eq_ok_iff.1 hw
  -- spans look at the values on the spot, which are those on the clock
  rw [verdict_runAll_of_launchAll hvs, Span.andThen]
  exact (Takes.launchAll h hvs).bind hvs (hrest vs _ w hlater)

end Plan

namespace Call

theorem Takes.ofPlan {p : Plan} {s : Span} (h : p.Takes s) : (Call.ofPlan p).Takes s := ⟨rfl, h⟩

theorem Takes.plan {call : Call} {s : Span} (h : call.Takes s) : call.plan.Takes s := by
  have hplan := h.2.emitAll call.opening
  rwa [Span.onTheSpot_eq_zero h.1, Span.zero_next] at hplan

theorem Takes.within {call : Call} {s : Span} (h : call.Takes s) (id : String) :
    (call.within id).Takes s :=
  ⟨h.1, h.2.within id⟩

theorem Takes.after {call : Call} {s : Span} (h : call.Takes s) {events : List Event}
    (he : events.filterMap Event.invoked? = []) : (call.after events).Takes s :=
  ⟨by rw [Call.after, List.filterMap_append, he, h.1]; rfl, h.2⟩

end Call

/-! ### The spans of arguments -/

namespace TypeSpec

mutual

/-- The span of resolving an argument to a shape, with the spans of evaluating nodes. A delayed
argument is there already. A container takes its own evaluation, then the longest of its parts. -/
def span (eval : Json → Call) (spans : Json → Span) : TypeSpec → Json → Span
  | .any true, _ => .zero
  | .any false, raw => spans raw
  | .tuple items, raw =>
    (spans raw).andThen (eval raw).plan.run.verdict fun v =>
      match v with
      | .arr vs =>
        if vs.length = items.length then .beside (spanEach eval spans items vs) else .zero
      | _ => .zero
  | .sequenceOf item, raw =>
    (spans raw).andThen (eval raw).plan.run.verdict fun v =>
      match v with
      | .arr vs => .beside (vs.map fun w => item.span eval spans w)
      | _ => .zero
  | .record fields, raw =>
    (spans raw).andThen (eval raw).plan.run.verdict fun v =>
      match v with
      | .obj object => .beside (spanFields eval spans fields object)
      | _ => .zero
  | .recordOf item, raw =>
    (spans raw).andThen (eval raw).plan.run.verdict fun v =>
      match v with
      | .obj object => .beside (object.map fun entry => item.span eval spans entry.2)
      | _ => .zero
  | .single _, raw => spans raw
  | .oneOf _, raw => spans raw
  | .oneValueOf _, raw => spans raw

/-- The spans of resolving arguments to shapes, pair by pair. -/
def spanEach (eval : Json → Call) (spans : Json → Span) : List TypeSpec → List Json → List Span
  | t :: ts, raw :: raws => t.span eval spans raw :: spanEach eval spans ts raws
  | _, _ => []

/-- The spans of resolving the declared fields of an object. -/
def spanFields (eval : Json → Call) (spans : Json → Span) :
    List (String × TypeSpec) → Fields Json → List Span
  | [], _ => []
  | (key, t) :: ts, object =>
    t.span eval spans (Fields.getD key .null object) :: spanFields eval spans ts object

end

section

variable {eval : Json → Call} {spans : Json → Span}

theorem takes_checked (t : TypeSpec) (v : Json) : (checked t v).Takes .zero :=
  Plan.takes_ofResult _

private theorem takes_then (h : ∀ node, (eval node).Takes (spans node)) (t : TypeSpec)
    (raw : Json) :
    (Call.ofPlan ((eval raw).plan.bind (checked t))).Takes (spans raw) := by
  -- a check takes no time, so the span is that of the argument
  have hchecked : ∀ v, (checked t v).Takes .zero := takes_checked t
  have hbind := (h raw).plan.bind hchecked
  rw [Span.andThen_zero] at hbind
  exact .ofPlan hbind

/-- A container takes as long as the longest of its parts. -/
private theorem takes_parts {calls : List Call} {parts : List Span}
    (h : List.Forall₂ (fun call s => call.Takes s) calls parts) (t : TypeSpec)
    (whole : List Json → Json) :
    (Plan.join calls fun ws => checked t (whole ws)).Takes (.beside parts) := by
  have hchecked : ∀ ws, (checked t (whole ws)).Takes .zero := fun ws => takes_checked t _
  have hjoin := Plan.Takes.join h hchecked
  rwa [Span.andThen_zero] at hjoin

mutual

/-- **To resolve an argument** takes its span, if evaluating nodes does. -/
theorem takes_resolve (h : ∀ node, (eval node).Takes (spans node)) : (t : TypeSpec) →
    (raw : Json) → (t.resolve .async eval raw).Takes (t.span eval spans raw)
  | .any true, raw => .ofPlan (Plan.takes_done raw)
  | .any false, raw => h raw
  | .single t, raw => takes_then h _ raw
  | .oneOf ts, raw => takes_then h _ raw
  | .oneValueOf options, raw => takes_then h _ raw
  | .tuple items, raw => by
    rw [resolve, span]
    refine .ofPlan ((h raw).plan.bind fun v => ?_)
    cases v with
    | arr vs =>
      simp only
      -- an array of another length is refused, and has no value whose time could count
      split
      · exact takes_parts (takes_resolveEach h items vs) _ _
      · exact Plan.takes_halt _ _
    | _ => exact Plan.takes_halt _ _
  | .sequenceOf item, raw => by
    rw [resolve, span]
    refine .ofPlan ((h raw).plan.bind fun v => ?_)
    cases v with
    | arr vs =>
      refine takes_parts ?_ _ _
      rw [List.forall₂_map_left_iff, List.forall₂_map_right_iff]
      exact List.forall₂_same.2 fun w _ => takes_resolve h item w
    | _ => exact Plan.takes_halt _ _
  | .record fields, raw => by
    rw [resolve, span]
    refine .ofPlan ((h raw).plan.bind fun v => ?_)
    cases v with
    | obj object => exact takes_parts (takes_resolveFields h fields object) _ _
    | _ => exact Plan.takes_halt _ _
  | .recordOf item, raw => by
    rw [resolve, span]
    refine .ofPlan ((h raw).plan.bind fun v => ?_)
    cases v with
    | obj object =>
      refine takes_parts ?_ _ _
      rw [List.forall₂_map_left_iff, List.forall₂_map_right_iff]
      exact List.forall₂_same.2 fun entry _ => takes_resolve h item entry.2
    | _ => exact Plan.takes_halt _ _

theorem takes_resolveEach (h : ∀ node, (eval node).Takes (spans node)) : (ts : List TypeSpec) →
    (raws : List Json) → List.Forall₂ (fun call s => call.Takes s)
      (resolveEach .async eval ts raws) (spanEach eval spans ts raws)
  | [], _ => .nil
  | _ :: _, [] => .nil
  | t :: ts, raw :: raws => .cons (takes_resolve h t raw) (takes_resolveEach h ts raws)

theorem takes_resolveFields (h : ∀ node, (eval node).Takes (spans node)) :
    (ts : List (String × TypeSpec)) → (object : Fields Json) →
    List.Forall₂ (fun call s => call.Takes s) (resolveFields .async eval ts object)
      (spanFields eval spans ts object)
  | [], _ => .nil
  | (_, t) :: ts, object => .cons (takes_resolve h t _) (takes_resolveFields h ts object)

end

end

end TypeSpec

/-! ### The spans of calls -/

/-- The span of an action. Questions are answered on the spot. -/
def Action.span (eval : Evaluator) (spans : Scope → Json → Span) : Action → Span
  | .finish (.value _) => .zero
  | .finish (.evaluate scope node) => spans scope node
  | .fail _ => .zero
  | .log _ next => next.span eval spans
  | .evaluate scope node resume =>
    (Span.onTheSpot (eval .sync scope node).plan.run.trace).next <|
      match (eval .sync scope node).plan.run.verdict with
      | .ok v => (resume (.ok v)).span eval spans
      | .error (.failed e) => (resume (.error e)).span eval spans
      | .error .exhausted => .zero

/-- The span of the call of a routine: the longest of its parameters; then its handler is called,
once; then what the handler goes on with. A hand-written executable waits, then goes on. -/
def Routine.span (eval : Evaluator) (spans : Scope → Json → Span) (ctx : Context)
    (routine : Routine) (args : List Json) : Span :=
  match routine with
  | .declared d =>
    (Span.beside (TypeSpec.spanEach (eval .async ctx.scope) (spans ctx.scope) d.signature.specs
        (d.signature.supply .async args))).andThen
      (Plan.runAll (Declaration.paramCalls eval .async ctx d.signature args)).verdict
      fun params => (Span.call ⟨some d.signature, ctx.scope, args, params⟩).next
        ((d.handler params ctx).span eval spans)
  | .raw handler =>
    (Span.beside (args.map (spans ctx.scope))).andThen
      (Plan.runAll (args.map (eval .async ctx.scope))).verdict
      fun params => (Span.call ⟨none, ctx.scope, args, params⟩).next
        ((handler params ctx).span eval spans)
  | .written perform =>
    Span.next ⟨(perform args ctx).ticks, 0⟩ ((perform args ctx).action.span eval spans)

namespace Registry

/-- The span of evaluating a node, with the spans of the nodes it leads to. What is no call takes no
time. -/
def spanWith (registry : Registry) (eval : Evaluator) (spans : Scope → Json → Span)
    (scope : Scope) (node : Json) : Span :=
  match registry.call? node with
  | none => .zero
  | some (_, interpreter, args) =>
    match interpreter.async with
    | .supported routine => routine.span eval spans (registry.context scope) args
    | .unsupported _ => .zero

/-- The span of evaluating a node within a budget. -/
def span (registry : Registry) : Nat → Scope → Json → Span
  | 0 => fun _ _ => .zero
  | budget + 1 => registry.spanWith (registry.evaluator budget) (registry.span budget)

end Registry

section

variable {eval : Evaluator} {spans : Scope → Json → Span}
  (h : ∀ scope node, (eval .async scope node).Takes (spans scope node))

include h

theorem Action.takes_span (action : Action) :
    (action.plan eval .async).Takes (action.span eval spans) := by
  induction action with
  | finish outcome =>
    cases outcome with
    | value v => exact Plan.takes_done v
    | evaluate scope node => exact (h scope node).plan
  | fail e => exact Plan.takes_halt _ _
  | log v next ih =>
    have hemit := ih.emitAll [.logged v]
    rwa [Span.onTheSpot_eq_zero rfl, Span.zero_next] at hemit
  | evaluate scope node resume ih =>
    -- `ih` is there for every answer, also where the question failed
    rw [Action.plan, Action.span]
    exact .ask ih

/-- The call of a handler is the first thing to happen when the parameters are there. -/
private theorem takes_invoked (call : Invocation) (action : Action) :
    (Plan.emit (.invoked call) (action.plan eval .async)).Takes
      ((Span.call call).next (action.span eval spans)) :=
  (Action.takes_span h action).emitAll [.invoked call]

theorem Routine.takes_span (ctx : Context) (routine : Routine) (args : List Json) :
    (routine.call eval .async ctx args).Takes (routine.span eval spans ctx args) := by
  cases routine with
  | declared d =>
    refine .ofPlan (.join ?_ fun params => takes_invoked h _ _)
    exact TypeSpec.takes_resolveEach (h ctx.scope) _ _
  | raw handler =>
    refine .ofPlan (.join ?_ fun params => takes_invoked h _ _)
    rw [List.forall₂_map_left_iff, List.forall₂_map_right_iff]
    exact List.forall₂_same.2 fun arg _ => h ctx.scope arg
  | written perform =>
    refine ⟨?_, (Action.takes_span h (perform args ctx).action).wait _⟩
    simp [Routine.call, Performance.call, List.filterMap_map, Function.comp_def, Event.invoked?]

end

namespace Registry

theorem evaluateWith_takes (registry : Registry) {eval : Evaluator} {spans : Scope → Json → Span}
    (h : ∀ scope node, (eval .async scope node).Takes (spans scope node)) (scope : Scope)
    (node : Json) :
    (registry.evaluateWith eval .async scope node).Takes
      (registry.spanWith eval spans scope node) := by
  -- a node arrives with a visit and a warning at most
  have harrival : (registry.arrival node).filterMap Event.invoked? = [] := by
    simp [arrival, Event.invoked?]
  refine Call.Takes.after ?_ harrival
  rw [spanWith]
  cases registry.call? node with
  | none => exact .ofPlan (Plan.takes_done node)
  | some found =>
    obtain ⟨id, interpreter, args⟩ := found
    simp only [Interpreter.side]
    cases interpreter.async with
    | unsupported name => exact .within (.ofPlan (Plan.takes_halt _ _)) id
    | supported routine => exact (Routine.takes_span h _ routine args).within id

/-- **Evaluations take their spans,** one nested in another. -/
theorem evaluator_takes (registry : Registry) (budget : Nat) (scope : Scope) (node : Json) :
    (registry.evaluator budget .async scope node).Takes (registry.span budget scope node) := by
  induction budget generalizing scope node with
  | zero =>
    -- the node is visited, and no handler is called before its evaluation breaks off
    have hnothing : ∀ scope node, ((fun _ _ _ => .ofPlan .exhausted : Evaluator) .async scope
        node).Takes ((fun _ _ => .zero : Scope → Json → Span) scope node) :=
      fun _ _ => .ofPlan (Plan.takes_halt _ _)
    exact ⟨(registry.evaluateWith_takes hnothing scope node).1, Plan.takes_halt _ _⟩
  | succ budget ih => exact registry.evaluateWith_takes ih scope node

/-- **The time of a successful evaluation is its longest path.** If the evaluation of a node on a
clock comes to a value, whenever it is launched, then it takes exactly the span of the node, and
handlers are called exactly when the span says so. -/
theorem launch_takes_span (registry : Registry) (budget : Nat) (scope : Scope) (node : Json)
    (start : Nat) {v : Json}
    (h : ((registry.planWithin budget .async scope node).launch start).verdict = .ok v) :
    let line := (registry.planWithin budget .async scope node).launch start
    let span := registry.span budget scope node
    line.settledAt = start + span.ticks ∧
      line.calls = span.calls.map fun entry => (start + entry.1, entry.2) := by
  intro line span
  have htakes := (registry.evaluator_takes budget scope node).plan start v h
  exact ⟨htakes.settledAt, htakes.calls⟩

end Registry

/-- The handlers of `Stock.slowBuilder` side by side: the first takes four ticks and then five,
while the second takes two. -/
theorem Stock.launch_takes_longest :
    ∃ registry, Stock.slowBuilder.build = .ok registry ∧
      ((registry.planWithin 5 .async (.root .null)
        (.arr [.str "$all",
          .arr [.str "$then", .num (.whole 4),
            .arr [.str "$all", .arr [.str "$then", .num (.whole 5), .str "x"]]],
          .arr [.str "$then", .num (.whole 2), .str "y"]])).launch 3).settledAt = 3 + 9 := by
  refine ⟨_, rfl, ?_⟩
  have hvalue : ∀ registry, Stock.slowBuilder.build = .ok registry →
      (registry.planWithin 5 .async (.root .null)
        (.arr [.str "$all",
          .arr [.str "$then", .num (.whole 4),
            .arr [.str "$all", .arr [.str "$then", .num (.whole 5), .str "x"]]],
          .arr [.str "$then", .num (.whole 2), .str "y"]])).run.verdict =
        .ok (.arr [.arr [.str "x"], .str "y"]) := by
    rintro _ ⟨⟩
    rfl
  exact (Registry.launch_takes_span _ 5 (.root .null) _ 3
    ((Plan.verdict_launch_eq_ok_iff _ 3 _).2 (hvalue _ rfl))).1

end SigilExpr
