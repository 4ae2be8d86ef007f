import SigilExpr.Proofs.Agreement
import SigilExpr.Proofs.Boundary
import SigilExpr.Proofs.Build
import SigilExpr.Proofs.Tracking

/-!
# Warnings are all that diagnostics add

In development there is a warning whenever a node looks like a call of something that is not
registered. Otherwise the two runtime modes cannot be told apart, unless a handler asks for the mode
itself (`Registry.IgnoresMode`): the same comes of every node, at the same time and with the same
log. This is `Registry.results_inMode`, the main result.

The evaluations of the two modes are compared with warnings left out (`Event.isQuiet`): what is then
left of the one is what is left of the other (`Simulation.quiet`), step by step and so within every
budget (`Registry.IgnoresMode.evaluators`). What is warned about is a property of single events
(`Registry.Suspect`).
-/

namespace SigilExpr

/-! ### Runtime modes -/

/-- The registry in a runtime mode. -/
def Registry.inMode (registry : Registry) (runtimeMode : RuntimeMode) : Registry :=
  { registry with runtimeMode }

/-- What is built in another mode is the same registry in that mode. -/
theorem Builder.build_withMode (builder : Builder) (runtimeMode : RuntimeMode) :
    (builder.withMode runtimeMode).build = (builder.build).map (·.inMode runtimeMode) := by
  have hdefaults : (builder.withMode runtimeMode).checkDefaults = builder.checkDefaults := rfl
  have hdefinitions : (builder.withMode runtimeMode).definitions = builder.definitions := rfl
  rw [build, build, hdefaults, hdefinitions]
  -- neither the check of defaults nor compiling reads the runtime mode
  cases builder.checkDefaults with
  | error e => rfl
  | ok u => cases compileAll builder.definitions <;> rfl

/-- The handler does the same in either runtime mode. -/
def Handler.IgnoresMode (handler : Handler) : Prop :=
  ∀ params scope ids m m', handler params ⟨scope, ids, m⟩ = handler params ⟨scope, ids, m'⟩

/-- The routine does the same in either runtime mode, as far as it is up to its own code. -/
def Routine.IgnoresMode : Routine → Prop
  | .declared d => d.handler.IgnoresMode
  | .raw handler => handler.IgnoresMode
  | .written perform =>
    ∀ args scope ids m m', perform args ⟨scope, ids, m⟩ = perform args ⟨scope, ids, m'⟩

/-- None of the routines of the registry reads the runtime mode. -/
def Registry.IgnoresMode (registry : Registry) : Prop :=
  ∀ id interpreter, registry.get? id = some interpreter →
    ∀ mode routine, interpreter.side mode = .supported routine → routine.IgnoresMode

/-- Calls of a routine that does not read the runtime mode are the same calls in either. -/
theorem Routine.IgnoresMode.call_eq {routine : Routine} (h : routine.IgnoresMode)
    (eval : Evaluator) (mode : Mode) (scope : Scope) (ids : List String)
    (m m' : RuntimeMode) (args : List Json) :
    routine.call eval mode ⟨scope, ids, m⟩ args = routine.call eval mode ⟨scope, ids, m'⟩ args := by
  cases routine with
  | declared d =>
    have hhandler : ∀ params,
        d.handler params ⟨scope, ids, m⟩ = d.handler params ⟨scope, ids, m'⟩ :=
      fun params => h params scope ids m m'
    simp only [call, Declaration.plan, hhandler]
  | raw handler =>
    have hhandler : ∀ params, handler params ⟨scope, ids, m⟩ = handler params ⟨scope, ids, m'⟩ :=
      fun params => h params scope ids m m'
    simp only [call, Handler.plan, hhandler]
  | written perform =>
    have hperform : perform args ⟨scope, ids, m⟩ = perform args ⟨scope, ids, m'⟩ :=
      h args scope ids m m'
    simp only [call, hperform]

/-! ### Evaluations without their warnings -/

/-- The event is no warning. -/
def Event.isQuiet : Event → Bool
  | warned _ => false
  | _ => true

/-- Plans are related that are the same but for their warnings. -/
def Simulation.quiet : Simulation := tracking Event.isQuiet False

instance Simulation.quiet_fits (registry : Registry) : quiet.Fits registry :=
  tracking_fits Event.isQuiet False registry

namespace Registry

variable {registry : Registry}

/-- A node is visited in any runtime mode, and what else happens on its arrival are warnings. -/
theorem filter_arrival (registry : Registry) (node : Json) :
    (registry.arrival node).filter Event.isQuiet = [.visited node] := by
  have hwarnings : ((registry.warnings node).map Event.warned).filter Event.isQuiet = [] := by
    simp [Event.isQuiet]
  rw [arrival, List.filter_cons_of_pos rfl, hwarnings]

namespace IgnoresMode

variable (h : registry.IgnoresMode) (m m' : RuntimeMode)

include h

/-- Given one way to evaluate further nodes, what follows the arrival of a node is the same in
either runtime mode. -/
theorem evaluateWith (eval : Evaluator) (mode : Mode) (scope : Scope) (node : Json) :
    let c := (registry.inMode m).evaluateWith eval mode scope node
    let d := (registry.inMode m').evaluateWith eval mode scope node
    c.opening.filter Event.isQuiet = d.opening.filter Event.isQuiet ∧ c.body = d.body := by
  -- which call a node is does not depend on the runtime mode, its warnings may
  have hcall : (registry.inMode m').call? node = (registry.inMode m).call? node := rfl
  simp only [Registry.evaluateWith, hcall]
  cases hnode : (registry.inMode m).call? node with
  | none => simp [Call.after, filter_arrival]
  | some found =>
    obtain ⟨id, interpreter, args⟩ := found
    have hget : registry.get? id = some interpreter := get?_of_call? hnode
    -- the call behind the arrival is the same call
    have hsame : (interpreter.side mode).call eval mode ((registry.inMode m).context scope) args =
        (interpreter.side mode).call eval mode ((registry.inMode m').context scope) args := by
      cases hside : interpreter.side mode with
      | unsupported id => rfl
      | supported routine =>
        exact (h id interpreter hget mode routine hside).call_eq eval mode scope
          registry.ids m m' args
    simp only [Call.after, List.filter_append, filter_arrival, Call.opening_within,
      Call.body_within, hsame, and_self]

/-- **Evaluations in the two runtime modes are the same but for their warnings.** -/
theorem evaluators (budget : Nat) (mode : Mode) :
    Simulation.quiet.Evaluators mode mode ((registry.inMode m).evaluator budget)
      ((registry.inMode m').evaluator budget) := by
  suffices hcalls : ∀ mode scope node, Simulation.quiet.call
      ((registry.inMode m).evaluator budget mode scope node)
      ((registry.inMode m').evaluator budget mode scope node) from
    ⟨hcalls mode, fun scope node => Simulation.quiet.made (hcalls .sync scope node)⟩
  induction budget with
  | zero =>
    -- what is visited and warned about happens even where there is no budget
    intro mode scope node
    have hspent := h.evaluateWith m m' (fun _ _ _ => .ofPlan .exhausted) mode scope node
    exact ⟨hspent.1, Plan.halt_tracks _⟩
  | succ budget ih =>
    intro mode scope node
    have hprior : Simulation.quiet.Evaluators mode mode ((registry.inMode m).evaluator budget)
        ((registry.inMode m').evaluator budget) :=
      ⟨ih mode, fun scope node => Simulation.quiet.made (ih .sync scope node)⟩
    -- first the further nodes are evaluated in the other runtime mode, then the node itself
    have hnodes : Call.Tracks Event.isQuiet False
        ((registry.inMode m).evaluator (budget + 1) mode scope node)
        ((registry.inMode m).evaluateWith ((registry.inMode m').evaluator budget) mode scope
          node) :=
      hprior.evaluateWith (.within budget)
        (Simulation.quiet.interpreters_same (fun _ => rfl) mode (registry.inMode m)) scope node
    obtain ⟨hopening, hbody⟩ :=
      h.evaluateWith m m' ((registry.inMode m').evaluator budget) mode scope node
    exact ⟨hnodes.opening.trans hopening, hbody ▸ hnodes.body⟩

end IgnoresMode

end Registry

/-! ### What comes of plans -/

/-- The plans come to the same with the same log, on the spot and on a clock. -/
structure Plan.SameResults (p q : Plan) : Prop where
  verdict : p.run.verdict = q.run.verdict
  log : p.run.log = q.run.log
  verdictAt : ∀ time, (p.launch time).verdict = (q.launch time).verdict
  logAt : ∀ time, (p.launch time).log = (q.launch time).log
  settledAt : ∀ time, (p.launch time).settledAt = (q.launch time).settledAt

/-- The log can be told from some of the events if no entry is left out. -/
theorem Run.log_filter {α : Type} {keep : Event → Bool} (hlogged : ∀ v, keep (.logged v) = true)
    (run : Run α) : (run.filter keep).log = run.log := by
  rw [log, log, filter, List.filterMap_filter]
  refine List.filterMap_congr fun event _ => ?_
  cases event <;> simp [Event.logged?, hlogged]

theorem Timeline.log_filter {α : Type} {keep : Event → Bool}
    (hlogged : ∀ v, keep (.logged v) = true) (line : Timeline α) :
    (line.filter keep).log = line.log := by
  rw [log, log, filter, List.filterMap_filter]
  refine List.filterMap_congr fun entry _ => ?_
  obtain ⟨time, event⟩ := entry
  cases event <;> simp [Event.logged?, hlogged]

/-- Plans that go the same way as far as the log goes come to the same. -/
theorem Plan.SameResults.of_tracks_logged {p q : Plan} {keep : Event → Bool}
    (hlogged : ∀ v, keep (.logged v) = true) (h : p.Tracks keep False q) : p.SameResults q := by
  have hrun : p.run.filter keep = q.run.filter keep := h.run nofun
  have hlaunch : ∀ time, (p.launch time).filter keep = (q.launch time).filter keep :=
    fun time => h.launch nofun
  have hlog : p.run.log = q.run.log := by
    rw [← Run.log_filter hlogged p.run, hrun, Run.log_filter hlogged]
  have hlogAt : ∀ time, (p.launch time).log = (q.launch time).log := fun time => by
    rw [← Timeline.log_filter hlogged (p.launch time), hlaunch, Timeline.log_filter hlogged]
  exact ⟨Run.verdict_of_filter hrun, hlog, fun time => (Timeline.end_of_filter (hlaunch time)).2,
    hlogAt, fun time => (Timeline.end_of_filter (hlaunch time)).1⟩

/-- Plans that are the same but for their warnings come to the same. -/
theorem Plan.SameResults.of_tracks {p q : Plan} (h : p.Tracks Event.isQuiet False q) :
    p.SameResults q := .of_tracks_logged (fun _ => rfl) h

/-! ### What is warned about -/

/-- The identifier looks like that of a call and is not registered, and the registry says so. -/
def Registry.Suspect (registry : Registry) (id : String) : Prop :=
  registry.runtimeMode = .development ∧ startsWithSigil id = true ∧ registry.contains id = false

/-- Whatever the plan warns about is of a kind, on the spot and on a clock. -/
structure Plan.WarnsOnly (p : Plan) (kind : String → Prop) : Prop where
  run : ∀ id ∈ p.run.warnings, kind id
  launch : ∀ time, ∀ id ∈ (p.launch time).warnings, kind id

theorem Plan.WarnsOnly.mono {p : Plan} {kind kind' : String → Prop} (h : p.WarnsOnly kind)
    (hkind : ∀ id, kind id → kind' id) : p.WarnsOnly kind' where
  run id hid := hkind id (h.run id hid)
  launch time id hid := hkind id (h.launch time id hid)

namespace Registry

variable {registry : Registry}

theorem suspect_of_mem_warnings {node : Json} {id : String} (h : id ∈ registry.warnings node) :
    registry.Suspect id := by
  unfold warnings at h
  split at h
  · rename_i hmode
    split at h
    · rename_i head _
      by_cases hhead : (startsWithSigil head && !registry.contains head) = true
      · rw [if_pos hhead, List.mem_singleton] at h
        subst h
        have hid : startsWithSigil id = true ∧ registry.contains id = false := by simpa using hhead
        refine ⟨?_, hid⟩
        cases hm : registry.runtimeMode with
        | production => simp [hm, RuntimeMode.diagnostics] at hmode
        | development => rfl
      · rw [if_neg hhead] at h
        exact absurd h List.not_mem_nil
    · exact absurd h List.not_mem_nil
  · exact absurd h List.not_mem_nil

/-- The event is no warning but of something suspect. -/
def Founded (registry : Registry) (event : Event) : Prop :=
  ∀ id, event = .warned id → registry.Suspect id

/-- A plan whose warnings are of something suspect warns about nothing else. -/
theorem warnsOnly_of_every {p : Plan} (h : p.Every registry.Founded) :
    p.WarnsOnly registry.Suspect := by
  -- a warning in the list of warnings is one in the trace
  have hid : ∀ {event : Event} {id : String}, event.warned? = some id → event = .warned id := by
    intro event id he
    cases event with
    | warned found => rw [Option.some.inj he]
    | visited node => simp [Event.warned?] at he
    | invoked call => simp [Event.warned?] at he
    | logged v => simp [Event.warned?] at he
  refine ⟨fun id hm => ?_, fun time id hm => ?_⟩
  · obtain ⟨event, hevent, he⟩ := List.mem_filterMap.1 hm
    exact h.run event hevent id (hid he)
  · obtain ⟨⟨at', event⟩, hevent, he⟩ := List.mem_filterMap.1 hm
    exact h.launch time _ hevent id (hid he)

/-- All that a registry ever warns about is suspect. -/
theorem eachPlan_warnsOnly (registry : Registry) (budget : Nat) (mode : Mode) (scope : Scope) :
    registry.EachPlan budget mode scope fun p => p.WarnsOnly registry.Suspect := by
  have hwarned : ∀ node, ∀ id ∈ registry.warnings node, registry.Founded (.warned id) := by
    intro node id hid other he
    exact Event.warned.inj he ▸ suspect_of_mem_warnings hid
  have hlogged : ∀ v, registry.Founded (.logged v) := fun _ => nofun
  have hfits : (Simulation.every registry.Founded hlogged).Fits registry :=
    Simulation.every_fits (fun _ => nofun) hwarned fun _ _ => nofun
  exact (eachPlan_every hfits budget mode scope).mono fun _ hp => warnsOnly_of_every hp

/-- **Diagnostics only add warnings.** Take a registry whose routines do not read the runtime mode,
in the runtime mode of production and in that of development. Within any budget, in any scope and in
either mode of evaluation,

* a node comes to the same value or the same error in both, with the same entries in the log, on the
  spot and on a clock, where it ends at the same time and the entries are written at the same times;
* so does a node whose value is checked;
* in production there are no warnings;
* in development whatever is warned about starts with the sigil and is not registered. -/
theorem results_inMode (h : registry.IgnoresMode) (budget : Nat) (mode : Mode) (scope : Scope) :
    let production := registry.inMode .production
    let development := registry.inMode .development
    (∀ node, (production.planWithin budget mode scope node).SameResults
      (development.planWithin budget mode scope node)) ∧
    (∀ t node, (production.planTypedWithin budget t mode scope node).SameResults
      (development.planTypedWithin budget t mode scope node)) ∧
    (production.EachPlan budget mode scope fun p => p.WarnsOnly fun _ => False) ∧
    (development.EachPlan budget mode scope fun p => p.WarnsOnly fun id =>
      startsWithSigil id = true ∧ registry.contains id = false) := by
  intro production development
  have hquiet : Simulation.quiet.Evaluators mode mode (production.evaluator budget)
      (development.evaluator budget) := h.evaluators .production .development budget mode
  refine ⟨fun node => ?_, fun t node => ?_, ?_, ?_⟩
  · exact Plan.SameResults.of_tracks (hquiet.planWithin scope node)
  · exact Plan.SameResults.of_tracks (hquiet.planTypedWithin scope t node)
  · -- nothing is suspect outside development
    have hnone : ∀ id, production.Suspect id → False := fun id hid => nomatch hid.1
    exact (eachPlan_warnsOnly production budget mode scope).mono fun _ hp => hp.mono hnone
  · exact (eachPlan_warnsOnly development budget mode scope).mono fun _ hp =>
      hp.mono fun id hid => hid.2

end Registry

namespace Stock

/-- None of the handlers in `Stock.builder` reads the runtime mode. -/
theorem ignoresMode_builder {registry : Registry} (hbuild : Stock.builder.build = .ok registry) :
    registry.IgnoresMode := by
  have hentries : Stock.builder.definitions.map Prod.snd =
      [.raw params, .declared Core.evaluate, .declared Core.literal,
        .pair (some (.raw log)) (some (.raw log)), .declared Core.value] := rfl
  intro id interpreter hget mode routine hside
  obtain ⟨definition, hm, hgives⟩ := Builder.exists_gives_of_build hbuild hget hside
  have hmem : definition ∈ Stock.builder.definitions.map Prod.snd := List.mem_map_of_mem hm
  rw [hentries] at hmem
  simp only [List.mem_cons, List.not_mem_nil, or_false] at hmem
  have hdeclared : ∀ {d : Declaration}, d.handler.IgnoresMode →
      (Definition.declared d).Gives mode routine → routine.IgnoresMode := by
    intro d hd hgives
    cases hgives with
    | declared valid hvalid =>
      subst hvalid
      exact hd
  rcases hmem with rfl | rfl | rfl | rfl | rfl
  · cases hgives
    exact fun _ _ _ _ _ => rfl
  · exact hdeclared (fun _ _ _ _ _ => rfl) hgives
  · exact hdeclared (fun _ _ _ _ _ => rfl) hgives
  · cases hgives <;> exact fun _ _ _ _ _ => rfl
  · exact hdeclared (fun _ _ _ _ _ => rfl) hgives

/-- A slip in an identifier: development warns about it, and nothing else tells the two runtime
modes apart. -/
theorem results_inMode_slip :
    ∃ registry, Stock.builder.build = .ok registry ∧
      let node : Json :=
        .arr [.str "$all", .arr [.str "$lgo", .str "x"], .arr [.str "$log", .str "y"]]
      let production := (registry.inMode .production).planWithin 3 .async (.root .null) node
      let development := (registry.inMode .development).planWithin 3 .async (.root .null) node
      (development.launch 7).warnings = ["$lgo"] ∧ (production.launch 7).warnings = [] ∧
        (production.launch 7).log = [(7, .str "y")] := by
  refine ⟨_, rfl, by decide +kernel, ?_⟩
  have h := Registry.results_inMode (ignoresMode_builder rfl) 3 .async (.root .null)
  refine ⟨List.eq_nil_iff_forall_not_mem.2 ((h.2.2.1.node _).launch 7), ?_⟩
  rw [(h.1 _).logAt 7]
  with_unfolding_all rfl

end Stock

end SigilExpr
