import SigilExpr.Command
import SigilExpr.Proofs.Boundary
import SigilExpr.Proofs.Build

/-!
# Flat registries

In a flat registry (`Definition.Flat`) parameters are taken as they are written, or evaluated and
checked as a whole, and handlers end with a value or have one of the delayed parameters evaluated,
as it is written. The interpreters of the core and of the command are flat.

Then everything that is ever evaluated was written, in the node or in the expression for the current
value (`Json.WrittenIn`), whatever the values look like that come from scopes and handlers. This is
`Registry.Flat.evaluator_every`. What carries it is that a node leads only to the arguments as they
are supplied (`Registry.supplied`): those of the call itself, null, and the expression for the
current value.
-/

namespace SigilExpr

/-! ### What is written -/

/-- The value is the other or stands in it, at any depth. -/
inductive Json.PartOf : Json → Json → Prop where
  | refl (v : Json) : PartOf v v
  | item {v w : Json} {vs : List Json} (hm : w ∈ vs) (h : PartOf v w) : PartOf v (.arr vs)
  | field {v w : Json} {key : String} {fields : Fields Json} (hm : (key, w) ∈ fields)
    (h : PartOf v w) : PartOf v (.obj fields)

/-- The value stands in a node or in the expression for the current value. -/
def Json.WrittenIn (v node : Json) : Prop := v.PartOf node ∨ v.PartOf Core.currentValue

theorem Json.PartOf.trans {u v w : Json} (h : u.PartOf v) (h' : v.PartOf w) : u.PartOf w := by
  induction h' with
  | refl => exact h
  | item hm _ ih => exact .item hm ih
  | field hm _ ih => exact .field hm ih

namespace Json.WrittenIn

variable {node : Json}

theorem self (node : Json) : node.WrittenIn node := .inl (.refl node)

theorem currentValue (node : Json) : Core.currentValue.WrittenIn node := .inr (.refl _)

theorem null (node : Json) : Json.null.WrittenIn node := by
  have hm : Json.null ∈ [.str Core.valueId, .null] := by simp
  exact .inr (.item hm (.refl _))

theorem item {vs : List Json} (h : (Json.arr vs).WrittenIn node) {v : Json} (hm : v ∈ vs) :
    v.WrittenIn node := by
  have hpart : v.PartOf (.arr vs) := .item hm (.refl v)
  exact h.imp hpart.trans hpart.trans

end Json.WrittenIn

/-! ### Flat definitions -/

/-- The parameter is taken as it is written. -/
def TypeSpec.isDelayed : TypeSpec → Bool
  | .any delayed => delayed
  | _ => false

/-- The shape is no container. -/
def TypeSpec.isFlat : TypeSpec → Bool
  | .any _ => true
  | .single _ => true
  | .oneOf _ => true
  | .oneValueOf _ => true
  | _ => false

/-- Those of the parameters that are taken as they are written. -/
def Signature.delayed (signature : Signature) (params : List Json) : List Json :=
  ((signature.specs.zip params).filter fun entry => entry.1.isDelayed).map Prod.snd

/-- The action ends with a value, fails, or has one of these nodes evaluated in the end, in any
scope. -/
inductive Action.Forwards (nodes : List Json) : Action → Prop where
  | value (v : Json) : Forwards nodes (.finish (.value v))
  | evaluate (scope : Scope) {node : Json} (hm : node ∈ nodes) :
    Forwards nodes (.finish (.evaluate scope node))
  | fail (e : EvalError) : Forwards nodes (.fail e)
  | log (v : Json) {next : Action} (h : Forwards nodes next) : Forwards nodes (.log v next)

theorem Action.Forwards.mono {action : Action} {nodes nodes' : List Json}
    (h : action.Forwards nodes) (hsub : ∀ node ∈ nodes, node ∈ nodes') :
    action.Forwards nodes' := by
  induction h with
  | value v => exact .value v
  | evaluate scope hm => exact .evaluate scope (hsub _ hm)
  | fail e => exact .fail e
  | log v _ ih => exact .log v ih

/-- A declaration without containers, whose handler has nothing evaluated but what it was given as
it is written. -/
structure Declaration.Flat (d : Declaration) : Prop where
  specs : ∀ t ∈ d.signature.specs, t.isFlat = true
  forwards : ∀ params ctx,
    List.Forall₂ (fun t v => t.accepts v = true) d.signature.specs params →
      (d.handler params ctx).Forwards (d.signature.delayed params)

/-- A handler that has nothing evaluated. -/
def Handler.Flat (handler : Handler) : Prop :=
  ∀ params ctx, (handler params ctx).Forwards []

/-- A flat declaration or a flat raw handler, for both modes. -/
def Definition.Flat : Definition → Prop
  | .declared d => d.Flat
  | .raw handler => handler.Flat
  | .pair _ _ => False

/-- A flat declaration or a flat raw handler. -/
def Routine.Flat : Routine → Prop
  | .declared d => d.toDeclaration.Flat
  | .raw handler => handler.Flat
  | .written _ => False

/-- Flat routines behind every identifier. -/
def Registry.Flat (registry : Registry) : Prop :=
  ∀ id interpreter, registry.get? id = some interpreter →
    ∀ mode, ∃ routine, interpreter.side mode = .supported routine ∧ routine.Flat

theorem Builder.flat_of_build {builder : Builder} {registry : Registry}
    (hbuild : builder.build = .ok registry) (h : ∀ entry ∈ builder.definitions, entry.2.Flat) :
    registry.Flat := by
  intro id interpreter hget mode
  obtain ⟨definition, hm, hc⟩ := exists_definition_of_build hbuild hget
  have hflat : definition.Flat := h _ hm
  cases definition with
  | declared d =>
    obtain ⟨valid, rfl, hside⟩ := Definition.side_of_compile hc
    exact ⟨.declared valid, hside mode, hflat⟩
  | raw handler =>
    obtain rfl := Except.ok.inj hc
    exact ⟨.raw handler, by cases mode <;> rfl, hflat⟩
  | pair sync async => exact hflat.elim

/-! ### The core interpreters are flat -/

/-- Where a delayed parameter is read, one of the delayed parameters is had. -/
theorem Signature.param_mem_delayed {signature : Signature} {params : List Json}
    (hparams : List.Forall₂ (fun t v => t.accepts v = true) signature.specs params) {k : Nat}
    (hk : signature.specs[k]? = some .delayed) :
    Core.param params k ∈ signature.delayed params := by
  -- there is a parameter for each spec
  obtain ⟨hspecs, hspec⟩ := List.getElem?_eq_some_iff.1 hk
  have hlt : k < params.length := hparams.length_eq ▸ hspecs
  rw [Core.param, List.getElem?_eq_getElem hlt, Option.getD_some]
  have hzip : (.delayed, params[k]) ∈ signature.specs.zip params := by
    refine List.mem_iff_getElem?.2 ⟨k, ?_⟩
    rw [List.getElem?_zip_eq_some]
    exact ⟨hk, List.getElem?_eq_getElem hlt⟩
  exact List.mem_map.2 ⟨_, List.mem_filter.2 ⟨hzip, rfl⟩, rfl⟩

namespace Core

theorem value_flat : value.Flat where
  specs := by decide
  forwards params ctx hparams := by
    change (readValue params ctx).Forwards _
    unfold readValue
    -- on a hit there is nothing to evaluate, on a miss the delayed parameter is
    split
    · exact .value _
    · exact .evaluate ctx.scope (Signature.param_mem_delayed hparams rfl)

theorem literal_flat : literal.Flat where
  specs := by decide
  forwards params _ _ := .value (param params 0)

theorem evaluate_flat : evaluate.Flat where
  specs := by decide
  forwards params ctx hparams :=
    .evaluate (ctx.scope.withValue (param params 1)) (Signature.param_mem_delayed hparams rfl)

/-- The core interpreters are flat. -/
theorem definitions_flat : ∀ entry ∈ definitions, entry.2.Flat := by
  simp only [definitions, List.forall_mem_cons]
  exact ⟨value_flat, literal_flat, evaluate_flat, List.forall_mem_nil _⟩

end Core

namespace Command

/-- So are the ones of the command. -/
theorem definitions_flat : ∀ entry ∈ definitions, entry.2.Flat := by
  have hsum : Declaration.Flat (.ofSpecs sum [.number, .number]) :=
    ⟨by decide, fun _ _ _ => .value _⟩
  have hproduct : Declaration.Flat (.ofSpecs product [.number, .number]) :=
    ⟨by decide, fun _ _ _ => .value _⟩
  have hgreater : Declaration.Flat (.ofSpecs greater [.number, .number]) :=
    ⟨by decide, fun _ _ _ => .value _⟩
  have hif : Declaration.Flat
      ((Declaration.ofSpecs Stock.choose [.boolean, .delayed, .delayed]).withFallback none) := by
    refine ⟨by decide, fun params ctx hparams => ?_⟩
    change (Stock.choose params ctx).Forwards _
    unfold Stock.choose
    split
    · exact .evaluate ctx.scope (Signature.param_mem_delayed hparams rfl)
    · exact .evaluate ctx.scope (Signature.param_mem_delayed hparams rfl)
  simp only [definitions, List.forall_mem_cons]
  exact ⟨hsum, hproduct, hgreater, hif, fun _ hm => nomatch hm⟩

end Command

/-! ### Flat arguments -/

namespace TypeSpec

variable {mode : Mode} {eval : Json → Call} {t : TypeSpec}

/-- An argument is taken as it is written, or it is evaluated, or its value is checked as well. -/
theorem resolve_of_isFlat (ht : t.isFlat = true) (raw : Json) :
    t.resolve mode eval raw = .ofPlan (.done raw) ∨
      t.resolve mode eval raw = eval raw ∨
      t.resolve mode eval raw = .ofPlan ((eval raw).plan.bind (checked t)) := by
  cases t with
  | any delayed =>
    cases delayed with
    | true => exact .inl rfl
    | false => exact .inr (.inl rfl)
  | single type => exact .inr (.inr rfl)
  | oneOf types => exact .inr (.inr rfl)
  | oneValueOf options => exact .inr (.inr rfl)
  | tuple items => exact nomatch ht
  | sequenceOf item => exact nomatch ht
  | record fields => exact nomatch ht
  | recordOf item => exact nomatch ht

/-- What is true of taking arguments as they are written, of evaluating them and of checking their
values is true of resolving them. -/
theorem forall_resolveEach {C : Call → Prop} {ts : List TypeSpec} {raws : List Json}
    (hflat : ∀ t ∈ ts, t.isFlat = true) (hdone : ∀ v, C (.ofPlan (.done v)))
    (heval : ∀ raw ∈ raws, C (eval raw))
    (hchecked : ∀ raw ∈ raws, ∀ t, C (.ofPlan ((eval raw).plan.bind (checked t)))) :
    ∀ call ∈ resolveEach mode eval ts raws, C call := by
  induction ts generalizing raws with
  | nil => exact fun call hm => nomatch hm
  | cons t ts ih =>
    cases raws with
    | nil => exact fun call hm => nomatch hm
    | cons raw raws =>
      rw [List.forall_mem_cons] at hflat heval hchecked
      rw [resolveEach, List.forall_mem_cons]
      refine ⟨?_, ih hflat.2 heval.2 hchecked.2⟩
      -- as it is written, evaluated, or evaluated and checked
      rcases resolve_of_isFlat hflat.1 raw with h | h | h
      · exact h ▸ hdone raw
      · exact h ▸ heval.1
      · exact h ▸ hchecked.1 t

/-- What a handler gets for a delayed parameter is one of the arguments. -/
theorem mem_of_delayed {ts : List TypeSpec} {raws params : List Json}
    (h : (Plan.runAll (resolveEach mode eval ts raws)).verdict = .ok params) {v : Json}
    (hm : v ∈ ((ts.zip params).filter fun entry => entry.1.isDelayed).map Prod.snd) :
    v ∈ raws := by
  rw [Plan.verdict_runAll_eq_ok_iff] at h
  induction ts generalizing raws params with
  | nil => exact nomatch hm
  | cons t ts ih =>
    cases raws with
    | nil =>
      obtain rfl := List.forall₂_nil_left_iff.1 h
      exact nomatch hm
    | cons raw raws =>
      obtain ⟨w, ws, hw, hws, rfl⟩ := List.forall₂_cons_left_iff.1 h
      rw [List.zip_cons_cons, List.filter_cons] at hm
      split at hm
      · rename_i hdelayed
        rcases List.mem_cons.1 hm with rfl | hm
        · -- the parameter is the argument as it is written
          cases t with
          | any delayed =>
            obtain rfl : delayed = true := hdelayed
            obtain rfl : raw = v := Except.ok.inj hw
            exact List.mem_cons_self
          | _ => exact nomatch hdelayed
        · exact List.mem_cons_of_mem _ (ih hws hm)
      · exact List.mem_cons_of_mem _ (ih hws hm)

end TypeSpec

/-- Whatever the handler of a flat declaration has evaluated is one of the arguments. -/
theorem Declaration.Flat.forwards_arguments {d : Declaration} (h : d.Flat)
    {mode : Mode} {eval : Json → Call} {args params : List Json} (ctx : Context)
    (hparams : (Plan.runAll (TypeSpec.resolveEach mode eval d.signature.specs
      (d.signature.supply mode args))).verdict = .ok params) :
    (d.handler params ctx).Forwards (d.signature.arguments args) := by
  have htyped := TypeSpec.wellTyped_of_runAll (by simp [Signature.supply_eq]) hparams
  rw [Signature.supply_eq] at hparams
  exact (h.forwards params ctx htyped).mono fun node => TypeSpec.mem_of_delayed hparams

/-- The arguments of a routine as they are supplied to it. -/
def Routine.supplied (routine : Routine) (args : List Json) : List Json :=
  match routine with
  | .declared d => d.signature.arguments args
  | _ => args

theorem Routine.mem_supplied {routine : Routine} {args : List Json} {raw : Json}
    (h : raw ∈ routine.supplied args) :
    raw ∈ args ∨ raw = .null ∨
      (raw = Core.currentValue ∧
        ∃ d k, routine = .declared d ∧ d.signature.fallback = some k ∧ args.length ≤ k) := by
  cases routine with
  | declared d =>
    obtain ⟨position, -, rfl⟩ := List.mem_map.1 h
    unfold Signature.argument
    -- at each position there is an argument, or what stands for one that is left out
    split
    · rename_i arg harg
      exact .inl (List.mem_of_getElem? harg)
    · rename_i hnone
      unfold Signature.omitted
      split
      · rename_i hfallback
        have hlength := List.getElem?_eq_none_iff.1 hnone
        exact .inr (.inr ⟨rfl, d, position, rfl, hfallback, hlength⟩)
      · exact .inr (.inl rfl)
  | raw handler => exact .inl h
  | written perform => exact .inl h

/-- The nodes that a node leads to: the arguments as they are supplied, if it is a call. -/
def Registry.supplied (registry : Registry) (mode : Mode) (node : Json) : List Json :=
  match registry.call? node with
  | none => []
  | some (_, interpreter, args) =>
    match interpreter.side mode with
    | .supported routine => routine.supplied args
    | .unsupported _ => []

theorem Registry.supplied_of_call {registry : Registry} {mode : Mode} {node : Json} {id : String}
    {interpreter : Interpreter} {args : List Json} {routine : Routine}
    (hcall : registry.call? node = some (id, interpreter, args))
    (hside : interpreter.side mode = .supported routine) :
    registry.supplied mode node = routine.supplied args := by
  simp only [supplied, hcall, hside]

theorem Registry.exists_call_of_mem_supplied {registry : Registry} {mode : Mode}
    {node raw : Json} (h : raw ∈ registry.supplied mode node) :
    ∃ id interpreter args routine, registry.call? node = some (id, interpreter, args) ∧
      interpreter.side mode = .supported routine ∧ raw ∈ routine.supplied args := by
  unfold supplied at h
  split at h
  · exact nomatch h
  · rename_i id interpreter args hcall
    split at h
    · rename_i routine hside
      exact ⟨id, interpreter, args, routine, hcall, hside, h⟩
    · exact nomatch h

/-! ### What is visited -/

/-- If the event hands a node to the evaluator, the node is of a kind. -/
def Event.VisitsOnly (kind : Json → Prop) (event : Event) : Prop :=
  ∀ node, event = .visited node → kind node

/-- Only a visit hands a node to the evaluator. -/
theorem Event.visitsOnly_of_visited? {kind : Json → Prop} {event : Event}
    (h : event.visited? = none) : event.VisitsOnly kind := by
  rintro node rfl
  exact nomatch h

section

variable {kind : Json → Prop} {eval : Evaluator} {mode : Mode}

/-- A flat handler leads to nothing but the nodes that it may have evaluated. -/
theorem Action.Forwards.plan_every {action : Action} {nodes : List Json}
    (h : action.Forwards nodes)
    (hnodes : ∀ node ∈ nodes, ∀ scope, (eval mode scope node).Every (Event.VisitsOnly kind)) :
    (action.plan eval mode).Every (Event.VisitsOnly kind) := by
  induction h with
  | value v => exact Plan.done_every v
  | evaluate scope hm => exact (hnodes _ hm scope).plan
  | fail e => exact Plan.halt_every _
  | log v _ ih =>
    have hlogged : ∀ event ∈ [Event.logged v], event.VisitsOnly kind := by
      simpa using Event.visitsOnly_of_visited? rfl
    exact Plan.emitAll_every hlogged ih

/-- A flat routine leads to nothing but the arguments as they are supplied. -/
theorem Routine.Flat.call_every {routine : Routine} (h : routine.Flat) {ctx : Context}
    {args : List Json}
    (hraws : ∀ raw ∈ routine.supplied args, ∀ scope,
      (eval mode scope raw).Every (Event.VisitsOnly kind)) :
    (routine.call eval mode ctx args).Every (Event.VisitsOnly kind) := by
  have hinvoked : ∀ call, ∀ event ∈ [Event.invoked call], event.VisitsOnly kind := fun call => by
    simpa using Event.visitsOnly_of_visited? rfl
  cases routine with
  | declared d =>
    refine .ofPlan (Plan.join_every ?_ fun params hparams => ?_)
    · rw [Signature.supply_eq]
      refine TypeSpec.forall_resolveEach h.specs (fun v => ?_) (fun raw hm => ?_) fun raw hm t => ?_
      · exact .ofPlan (Plan.done_every v)
      · exact hraws raw hm ctx.scope
      · exact .ofPlan (Plan.bind_every (hraws raw hm ctx.scope).plan fun v => Plan.ofResult_every _)
    · -- what the handler may have evaluated was supplied to the call
      have hforwards := Declaration.Flat.forwards_arguments h ctx hparams
      exact Plan.emitAll_every (hinvoked _) (hforwards.plan_every hraws)
  | raw handler =>
    refine .ofPlan (Plan.join_every (fun call hm => ?_) fun params _ => ?_)
    · obtain ⟨raw, hraw, rfl⟩ := List.mem_map.1 hm
      exact hraws raw hraw ctx.scope
    · refine Plan.emitAll_every (hinvoked _) ((h params ctx).plan_every ?_)
      exact fun node hm => nomatch hm
  | written perform => exact h.elim

end

namespace Registry.Flat

variable {registry : Registry} (h : registry.Flat)

include h

/-- What is evaluated was written, if all that it leads to was. -/
theorem evaluateWith_every {root : Json} {eval : Evaluator} {mode : Mode}
    (heval : ∀ node, node.WrittenIn root → ∀ scope,
      (eval mode scope node).Every (Event.VisitsOnly (Json.WrittenIn · root)))
    {node : Json} (hnode : node.WrittenIn root) (scope : Scope) :
    (registry.evaluateWith eval mode scope node).Every
      (Event.VisitsOnly (Json.WrittenIn · root)) := by
  -- on its arrival no node is visited but the node itself
  have harrival : ∀ event ∈ registry.arrival node,
      Event.VisitsOnly (Json.WrittenIn · root) event := by
    intro event hm other he
    subst he
    rw [arrival, List.mem_cons, List.mem_map] at hm
    rcases hm with heq | ⟨id, -, heq⟩
    · exact Event.visited.inj heq ▸ hnode
    · exact nomatch heq
  unfold evaluateWith
  refine Call.Every.after ?_ harrival
  cases hcall : registry.call? node with
  | none => exact .ofPlan (Plan.done_every node)
  | some found =>
    obtain ⟨id, interpreter, args⟩ := found
    obtain ⟨routine, hside, hflat⟩ := h id interpreter (get?_of_call? hcall) mode
    obtain rfl := node_of_call? hcall
    simp only [hside, Executable.call]
    refine (hflat.call_every fun raw hm => heval raw ?_).within id
    -- what is supplied stands in the node, or it is put there for the current value
    rcases Routine.mem_supplied hm with hm | rfl | ⟨rfl, -⟩
    · exact hnode.item (List.mem_cons_of_mem _ hm)
    · exact .null root
    · exact .currentValue root

/-- **Everything that is evaluated was written.** -/
theorem evaluator_every {root : Json} (budget : Nat) (mode : Mode) {node : Json}
    (hnode : node.WrittenIn root) (scope : Scope) :
    (registry.evaluator budget mode scope node).Every
      (Event.VisitsOnly (Json.WrittenIn · root)) := by
  -- the nodes that a node leads to were written in the same root, but they are not the same nodes
  induction budget generalizing node scope with
  | zero =>
    exact (h.evaluateWith_every (fun _ _ _ => .ofPlan (Plan.halt_every _)) hnode scope).breakOff
  | succ budget ih => exact h.evaluateWith_every (fun node hn => ih hn) hnode scope

end Registry.Flat

end SigilExpr
