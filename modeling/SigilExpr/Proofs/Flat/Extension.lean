import SigilExpr.Proofs.Budget
import SigilExpr.Proofs.Flat.Written
import SigilExpr.Stock.Items

/-!
# More interpreters change nothing for old expressions

A flat registry may be extended by any definitions under new identifiers. A node in which no array
is headed by one of the new identifiers comes to the same in the extension, at the same time and
with the same events, whatever the data look like that it is evaluated about
(`Builder.alike_registerAll`).

What carries this is that the two registries never disagree about a node that is evaluated. A flat
registry leads from a node to what was written in it, to null and to the expression for the current
value, and the last only where its identifier is an old one (`Registry.Closed`). So an array that is
headed by a new identifier may come up in values, but it is never handed to the evaluator.
-/

namespace SigilExpr

/-! ### Values without some identifiers -/

/-- No array in the value, at any depth, is headed by one of these identifiers. -/
def Json.Avoids (ids : List String) (v : Json) : Prop :=
  ∀ u : Json, u.PartOf v → ∀ id ∈ ids, u.headId? ≠ some id

namespace Json.Avoids

variable {ids : List String}

theorem item {vs : List Json} (h : (Json.arr vs).Avoids ids) {v : Json} (hm : v ∈ vs) :
    v.Avoids ids := fun u hu => h u (hu.trans (.item hm (.refl v)))

theorem null (ids : List String) : Json.null.Avoids ids := by
  intro u hu id _
  cases hu
  exact nofun

theorem str (ids : List String) (s : String) : (Json.str s).Avoids ids := by
  intro u hu id _
  cases hu
  exact nofun

/-- An array has two ways to mention an identifier: at its head and in its items. -/
theorem arr {vs : List Json} (hhead : ∀ id ∈ ids, (Json.arr vs).headId? ≠ some id)
    (h : ∀ v ∈ vs, v.Avoids ids) : (Json.arr vs).Avoids ids := by
  intro u hu
  cases hu with
  | refl => exact hhead
  | item hm hu => exact h _ hm u hu

/-- The expression for the current value mentions no other identifier than its own. -/
theorem currentValue (h : Core.valueId ∉ ids) : Core.currentValue.Avoids ids := by
  refine .arr (fun id hid hhead => ?_) ?_
  · obtain rfl : Core.valueId = id := Option.some.inj hhead
    exact h hid
  · simpa using ⟨str ids _, null ids⟩

end Json.Avoids

/-! ### Registries that lead nowhere else -/

/-- The handler does not read which identifiers are registered. -/
def Handler.IgnoresIds (handler : Handler) : Prop :=
  ∀ params scope ids ids' m, handler params ⟨scope, ids, m⟩ = handler params ⟨scope, ids', m⟩

/-- A declaration or a raw handler that does not read which identifiers are registered. -/
def Definition.IgnoresIds : Definition → Prop
  | .declared d => d.handler.IgnoresIds
  | .raw handler => handler.IgnoresIds
  | .pair _ _ => False

/-- A declaration or a raw handler that does not read which identifiers are registered. -/
def Routine.IgnoresIds : Routine → Prop
  | .declared d => d.handler.IgnoresIds
  | .raw handler => handler.IgnoresIds
  | .written _ => False

/-- A flat registry in which no handler reads which identifiers are registered, and where a
parameter takes the current value by default only if there is an interpreter to read it. -/
structure Registry.Closed (registry : Registry) : Prop where
  flat : registry.Flat
  ignoresIds : ∀ id interpreter, registry.get? id = some interpreter →
    ∀ mode routine, interpreter.side mode = .supported routine → routine.IgnoresIds
  defaults : ∀ id interpreter, registry.get? id = some interpreter →
    ∀ mode d, interpreter.side mode = .supported (.declared d) → d.signature.fallback ≠ none →
      registry.get? Core.valueId ≠ none

theorem Definition.Gives.ignoresIds {definition : Definition} {mode : Mode} {routine : Routine}
    (h : definition.Gives mode routine) (hids : definition.IgnoresIds) : routine.IgnoresIds := by
  cases h with
  | declared valid hvalid =>
    subst hvalid
    exact hids
  | raw handler => exact hids
  | onTheSpot => exact hids.elim
  | inTime => exact hids.elim

/-- The other registry has these identifiers in addition, and nothing else is different. -/
structure Registry.ExtendedBy (registry : Registry) (ids : List String) (registry' : Registry) :
    Prop where
  runtimeMode : registry'.runtimeMode = registry.runtimeMode
  fresh : ∀ id ∈ ids, registry.get? id = none
  same : ∀ id, id ∉ ids → registry'.get? id = registry.get? id

/-! ### One step -/

/-- Calls that go the same way, on the spot and on a clock. -/
abbrev Call.Same (c d : Call) : Prop := c.Tracks (fun _ => true) False d

/-- Plans that go the same way, on the spot and on a clock. -/
abbrev Plan.Same (p q : Plan) : Prop := p.Tracks (fun _ => true) False q

theorem Plan.Same.alike {p q : Plan} (h : p.Same q) : p.Alike q := by
  refine ⟨?_, fun time => ?_⟩
  · have hrun := Plan.Tracks.run h False.elim
    rwa [Run.filter_all, Run.filter_all] at hrun
  · have hlaunch : (p.launch time).filter (fun _ => true) = (q.launch time).filter fun _ => true :=
      Plan.Tracks.launch h False.elim
    rwa [Timeline.filter_all, Timeline.filter_all] at hlaunch

namespace Simulation

/-- Plans are related that go the same way in all. -/
abbrev same : Simulation := tracking (fun _ => true) False

variable {mode : Mode}

/-- A flat argument leads to no other evaluation than its own. -/
theorem same_resolve {e e' : Json → Call} {t : TypeSpec} (ht : t.isFlat = true) {raw : Json}
    (hraw : (e raw).Same (e' raw)) :
    (t.resolve mode e raw).Same (t.resolve mode e' raw) := by
  have hchecked : ∀ t : TypeSpec, (Call.ofPlan ((e raw).plan.bind t.checked)).Same
      (Call.ofPlan ((e' raw).plan.bind t.checked)) := fun t =>
    same.ofPlan (same.bind (same.made hraw) fun v => same.ofResult _)
  cases t with
  | any delayed =>
    cases delayed with
    -- a delayed argument is not evaluated at all
    | true => exact same.ofPlan (same.done raw)
    | false => exact hraw
  | single type => exact hchecked _
  | oneOf types => exact hchecked _
  | oneValueOf options => exact hchecked _
  | tuple items => exact nomatch ht
  | sequenceOf item => exact nomatch ht
  | record fields => exact nomatch ht
  | recordOf item => exact nomatch ht

theorem same_resolveEach {e e' : Json → Call} {ts : List TypeSpec}
    (hts : ∀ t ∈ ts, t.isFlat = true) {raws : List Json}
    (hraws : ∀ raw ∈ raws, (e raw).Same (e' raw)) :
    List.Forall₂ Call.Same (TypeSpec.resolveEach mode e ts raws)
      (TypeSpec.resolveEach mode e' ts raws) := by
  induction ts generalizing raws with
  | nil => exact .nil
  | cons t ts ih =>
    cases raws with
    | nil => exact .nil
    | cons raw raws =>
      rw [List.forall_mem_cons] at hts hraws
      exact .cons (same_resolve hts.1 hraws.1) (ih hts.2 hraws.2)

end Simulation

section

variable {eval eval' : Evaluator} {mode : Mode}

/-- A flat handler goes on in the same way if the nodes do that it may have evaluated. -/
theorem Action.Forwards.plan_same {action : Action} {nodes : List Json}
    (h : action.Forwards nodes)
    (hnodes : ∀ node ∈ nodes, ∀ scope, (eval mode scope node).Same (eval' mode scope node)) :
    (action.plan eval mode).Same (action.plan eval' mode) := by
  induction h with
  | value v => exact Simulation.same.done v
  | evaluate scope hm => exact Simulation.same.made (hnodes _ hm scope)
  | fail e => exact Simulation.same.halt _
  | log v _ ih => exact Simulation.same.emit trivial ih

/-- A flat routine that does not read the identifiers does the same if its arguments do. -/
theorem Routine.Flat.call_same {routine : Routine} (h : routine.Flat) (hids : routine.IgnoresIds)
    {args : List Json}
    (hraws : ∀ raw ∈ routine.supplied args, ∀ scope,
      (eval mode scope raw).Same (eval' mode scope raw))
    (scope : Scope) (ids ids' : List String) (m : RuntimeMode) :
    (routine.call eval mode ⟨scope, ids, m⟩ args).Same
      (routine.call eval' mode ⟨scope, ids', m⟩ args) := by
  cases routine with
  | declared d =>
    have harguments : ∀ raw ∈ d.signature.supply mode args,
        (eval mode scope raw).Same (eval' mode scope raw) := by
      rw [Signature.supply_eq]
      exact fun raw hm => hraws raw hm scope
    refine Simulation.same.ofPlan (Simulation.same.join
      (Simulation.same_resolveEach h.specs harguments) fun params hparams => ?_)
    -- the handler does the same in both registries, and what it may have evaluated was supplied
    have hforwards := Declaration.Flat.forwards_arguments h ⟨scope, ids', m⟩ hparams
    have hhandler : d.handler params ⟨scope, ids, m⟩ = d.handler params ⟨scope, ids', m⟩ :=
      hids params scope ids ids' m
    refine Simulation.same.emit trivial ?_
    rw [hhandler]
    exact hforwards.plan_same hraws
  | raw handler =>
    refine Simulation.same.ofPlan (Simulation.same.join ?_ fun params _ => ?_)
    · rw [List.forall₂_map_left_iff, List.forall₂_map_right_iff]
      exact List.forall₂_same.2 fun raw hm => hraws raw hm scope
    · refine Simulation.same.emit trivial ?_
      rw [hids params scope ids ids' m]
      exact (h params ⟨scope, ids', m⟩).plan_same fun node hm => nomatch hm
  | written perform => exact h.elim

end

/-- None of the core interpreters reads the identifiers. -/
theorem Core.definitions_ignoreIds : ∀ entry ∈ definitions, entry.2.IgnoresIds := by
  simp only [definitions, List.forall_mem_cons]
  exact ⟨fun _ _ _ _ _ => rfl, fun _ _ _ _ _ => rfl, fun _ _ _ _ _ => rfl,
    List.forall_mem_nil _⟩

/-! ### Evaluations in two registries -/

namespace Registry

variable {registry registry' : Registry} {ids : List String}

namespace ExtendedBy

variable (h : registry.ExtendedBy ids registry') {node : Json} (hnode : node.Avoids ids)

include h hnode

/-- What stands behind the head of a node that avoids the new identifiers is an old matter. -/
theorem get?_headId {id : String} (hhead : node.headId? = some id) :
    registry'.get? id = registry.get? id :=
  h.same id fun hid => hnode node (.refl node) id hid hhead

/-- The registries agree about which call a node is. -/
theorem call?_eq : registry'.call? node = registry.call? node := by
  unfold call?
  split
  · rw [h.get?_headId hnode rfl]
  · rfl

/-- They agree about what happens on its arrival. -/
theorem arrival_eq : registry'.arrival node = registry.arrival node := by
  have hwarnings : registry'.warnings node = registry.warnings node := by
    unfold warnings
    rw [h.runtimeMode]
    -- a warning is about the head of the node, which is not a new identifier
    cases hhead : node.headId? with
    | none => rfl
    | some id =>
      have hcontains : registry'.contains id = registry.contains id :=
        congrArg Option.isSome (h.get?_headId hnode hhead)
      simp only [hcontains]
  rw [arrival, arrival, hwarnings]

end ExtendedBy

namespace Closed

variable (hclosed : registry.Closed) (hext : registry.ExtendedBy ids registry')

include hclosed hext

/-- Nothing new is supplied to a call in which nothing new is written. -/
theorem avoids_of_mem_supplied {id : String} {interpreter : Interpreter} {args : List Json}
    {mode : Mode} {routine : Routine} (hget : registry.get? id = some interpreter)
    (hside : interpreter.side mode = .supported routine)
    (hnode : (Json.arr (.str id :: args)).Avoids ids) {raw : Json}
    (hm : raw ∈ routine.supplied args) : raw.Avoids ids := by
  rcases Routine.mem_supplied hm with hm | rfl | ⟨rfl, d, k, rfl, hfallback, -⟩
  · exact hnode.item (List.mem_cons_of_mem _ hm)
  · exact .null ids
  · -- somebody takes the current value by default, so it was read by an old interpreter
    have hvalue := hclosed.defaults id interpreter hget mode d hside (by simp [hfallback])
    exact .currentValue fun hnew => hvalue (hext.fresh _ hnew)

/-- A node goes the same way in both registries if all does that it leads to. -/
theorem evaluateWith_same {eval eval' : Evaluator} {mode : Mode}
    (heval : ∀ node, node.Avoids ids → ∀ scope, (eval mode scope node).Same (eval' mode scope node))
    {node : Json} (hnode : node.Avoids ids) (scope : Scope) :
    (registry.evaluateWith eval mode scope node).Same
      (registry'.evaluateWith eval' mode scope node) := by
  unfold evaluateWith
  rw [hext.arrival_eq hnode, hext.call?_eq hnode]
  have hfits := Simulation.tracking_fits (fun _ => true) False registry
  refine hfits.arrival node ?_
  cases hcall : registry.call? node with
  | none => exact Simulation.same.ofPlan (Simulation.same.done node)
  | some found =>
    obtain ⟨id, interpreter, args⟩ := found
    have hget := get?_of_call? hcall
    obtain ⟨routine, hside, hflat⟩ := hclosed.flat id interpreter hget mode
    obtain rfl := node_of_call? hcall
    have hids := hclosed.ignoresIds id interpreter hget mode routine hside
    simp only [hside, Executable.call, context, directory, hext.runtimeMode]
    -- the routine is the same one, and tagged with the same identifier
    refine Simulation.same.within id (hflat.call_same hids (fun raw hm => ?_) scope _ _ _)
    exact heval raw (hclosed.avoids_of_mem_supplied hext hget hside hnode hm)

/-- **A node in which nothing new is written goes the same way in both registries,** within every
budget. -/
theorem evaluator_same (budget : Nat) (mode : Mode) {node : Json} (hnode : node.Avoids ids)
    (scope : Scope) :
    (registry.evaluator budget mode scope node).Same
      (registry'.evaluator budget mode scope node) := by
  -- the induction is on the budget; the nodes that a node leads to have nothing new in them either
  induction budget generalizing node scope with
  | zero =>
    refine Simulation.same.breakOff (hclosed.evaluateWith_same hext (fun _ _ _ => ?_) hnode scope)
    exact Simulation.same.ofPlan (Simulation.same.halt _)
  | succ budget ih =>
    exact hclosed.evaluateWith_same hext (fun node hn scope => ih hn scope) hnode scope

end Closed

end Registry

/-! ### Building an extension -/

namespace Builder

variable {builder : Builder} {registry registry' : Registry}

/-- A registry is closed that is built of flat definitions whose handlers do not read the
identifiers. -/
theorem closed_of_build {definitions : String → Option Definition}
    (hholds : builder.Holds definitions) (hbuild : builder.build = .ok registry)
    (hflat : ∀ id definition, definitions id = some definition →
      definition.Flat ∧ definition.IgnoresIds) : registry.Closed where
  flat := flat_of_build hbuild fun entry hm =>
    (hflat entry.1 entry.2 (hholds.mem_iff.1 hm)).1
  ignoresIds id interpreter hget mode routine hside := by
    obtain ⟨definition, hm, hgives⟩ := exists_gives_of_build hbuild hget hside
    exact hgives.ignoresIds (hflat id definition (hholds.mem_iff.1 hm)).2
  defaults id interpreter hget mode d hside hfallback := by
    obtain ⟨definition, hm, hgives⟩ := exists_gives_of_build hbuild hget hside
    have hd := hholds.mem_iff.1 hm
    -- either there is an interpreter for the current value or no declaration leaves one to default
    rcases (hholds.wellFormed hbuild).currentValue with ⟨value, hvalue⟩ | hnone
    · obtain ⟨reader, -, hreader⟩ := hholds.exists_get?_of_build hbuild hvalue
      simp [hreader]
    · cases hgives with
      | declared valid hvalid =>
        subst hvalid
        exact absurd (hnone hd) hfallback
      | onTheSpot => exact (hflat id _ hd).1.elim
      | inTime => exact (hflat id _ hd).1.elim

/-- Definitions that are added under new identifiers make an extension. -/
theorem extendedBy_registerAll (hbuild : builder.build = .ok registry)
    {more : List (String × Definition)}
    (hnew : ∀ id ∈ Fields.keys more, registry.contains id = false)
    (hbuild' : (builder.registerAll more).build = .ok registry') :
    registry.ExtendedBy (Fields.keys more) registry' := by
  obtain ⟨-, hall, hmode⟩ := build_eq_ok hbuild
  obtain ⟨-, hall', hmode'⟩ := build_eq_ok hbuild'
  refine ⟨?_, fun id hid => ?_, fun id hid => ?_⟩
  · rw [hmode', hmode, runtimeMode_registerAll]
  · exact Option.not_isSome_iff_eq_none.1 (Bool.eq_false_iff.1 (hnew id hid))
  · -- the new definitions have nothing under an old identifier
    have hnone : Fields.get? id more.reverse = none := by
      rw [Fields.get?_eq_none_iff, Fields.keys, List.map_reverse, List.mem_reverse]
      exact hid
    rw [Registry.get?, Registry.get?, get?_of_compileAll hall', get?_of_compileAll hall,
      get?_registerAll, hnone, Option.none_or]

/-- **Adding interpreters is a conservative extension.** Let a registry be built after some calls on
an empty builder, where the definitions that come last under their identifiers are flat and their
handlers do not read which identifiers are registered. Let another one be built after any further
definitions under new identifiers. In every scope, a node in which no array at any depth is headed
by one of the new identifiers comes to the same in both registries, on the spot and on a clock, with
the same log, the same warnings and the same events altogether, and so it does within every
budget. -/
theorem alike_registerAll (runtimeMode : RuntimeMode) (steps : List Step)
    (hflat : ∀ id definition, Step.last? steps id = some definition →
      definition.Flat ∧ definition.IgnoresIds)
    (hbuild : ((empty runtimeMode).afterSteps steps).build = .ok registry)
    {more : List (String × Definition)}
    (hnew : ∀ id ∈ Fields.keys more, registry.contains id = false)
    (hbuild' : (((empty runtimeMode).afterSteps steps).registerAll more).build = .ok registry')
    (scope : Scope) {node : Json} (hnode : node.Avoids (Fields.keys more)) :
    registry.evaluate scope node = registry'.evaluate scope node ∧
      registry.launch scope node = registry'.launch scope node ∧
      ∀ budget mode, (registry.planWithin budget mode scope node).Alike
        (registry'.planWithin budget mode scope node) := by
  have hclosed := closed_of_build (holds_afterSteps runtimeMode steps) hbuild hflat
  have hext := extendedBy_registerAll hbuild hnew hbuild'
  have halike : ∀ budget mode, (registry.planWithin budget mode scope node).Alike
      (registry'.planWithin budget mode scope node) := fun budget mode =>
    Plan.Same.alike (Simulation.same.made (hclosed.evaluator_same hext budget mode hnode scope))
  exact ⟨(halike _ .sync).1, (halike _ .async).2 0, halike⟩

end Builder

namespace Stock

/-- The core interpreters and a raw handler. -/
def oldSteps : List Builder.Step :=
  [.registerAll Core.definitions, .register "$all" (.raw params)]

/-- An interpreter that reads the identifiers, and one that does nothing on the spot. -/
def newDefinitions : List (String × Definition) :=
  [("$ids", .raw fun _ ctx => .value (.arr (ctx.directory.ids.map .str))),
    ("$later", .pair none (some (.written delay)))]

/-- Data that look like a call of a new interpreter are data in both registries. -/
theorem alike_newDefinitions :
    ∃ registry registry',
      ((Builder.empty .development).afterSteps oldSteps).build = .ok registry ∧
      (((Builder.empty .development).afterSteps oldSteps).registerAll newDefinitions).build =
        .ok registry' ∧
      registry'.contains "$ids" = true ∧
      let scope := Scope.root (.arr [.str "$ids"])
      let node := Json.arr [.str "$all", Core.currentValue]
      (registry.planWithin 3 .async scope node).Alike
        (registry'.planWithin 3 .async scope node) ∧
      (registry'.planWithin 3 .async scope node).run.verdict =
        .ok (.arr [.arr [.str "$ids"]]) := by
  have hflat : ∀ id definition, Builder.Step.last? oldSteps id = some definition →
      definition.Flat ∧ definition.IgnoresIds := by
    intro id definition h
    have hm := Builder.Step.mem_of_last? h
    simp only [oldSteps, List.flatMap_cons, Builder.Step.entries, List.flatMap_nil,
      List.append_nil, List.mem_append, List.mem_singleton] at hm
    rcases hm with hm | heq
    · exact ⟨Core.definitions_flat _ hm, Core.definitions_ignoreIds _ hm⟩
    · obtain ⟨-, rfl⟩ := Prod.mk.inj heq
      exact ⟨fun _ _ => .value _, fun _ _ _ _ _ => rfl⟩
  have hbuild' : (((Builder.empty .development).afterSteps oldSteps).registerAll
      newDefinitions).build = .ok _ := rfl
  refine ⟨_, _, rfl, hbuild', rfl, ?_, rfl⟩
  have hvalue : Core.currentValue.Avoids (Fields.keys newDefinitions) :=
    .currentValue (by decide)
  refine (Builder.alike_registerAll .development oldSteps hflat rfl (by decide) hbuild' _
    (.arr (fun id hid hhead => ?_) (by simpa using ⟨.str _ _, hvalue⟩))).2.2 3 .async
  obtain rfl : "$all" = id := Option.some.inj hhead
  exact absurd hid (by decide)

end Stock

end SigilExpr
