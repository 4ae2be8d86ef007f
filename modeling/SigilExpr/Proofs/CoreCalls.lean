import SigilExpr.Proofs.Outside
import SigilExpr.Proofs.Substitution

/-!
# What calls of the core interpreters come to

As long as the interpreters from the core stand behind their identifiers (`Registry.Declares`), it
can be said in advance what calls of them come to:

* a call of `$value` comes to what is found at its path, and to what its second argument comes to
  only if nothing is (`Core.value_tracks`);
* a call of `$literal` comes to its argument as it is written (`Core.literal_tracks`);
* a call of `$evaluate` comes to what its first argument comes to in a scope about the second
  (`Core.evaluate_tracks`).

In each case the arguments are there at once, so a call takes no time of its own, and all that
happens in it is given (`Declaration.plan_tracks_of_atOnce`). None of that is seen from outside, so
a literal looks like its value, and so does the expression for the current value
(`Registry.Declares.literalOf_tracks`, `Registry.Declares.currentValue_tracks`).
-/

namespace SigilExpr

variable {registry : Registry} {keep : Event → Bool}

/-- The plan of evaluating a node, unless a value has been found already. -/
def Registry.planUnless (registry : Registry) (budget : Nat) (mode : Mode) (scope : Scope)
    (found? : Option Json) (node : Json) : Plan :=
  match found? with
  | some v => .done v
  | none => registry.planWithin budget mode scope node

/-- A value cannot be tagged, and an evaluation that fails has tagged its error itself. -/
theorem Registry.planUnless_within_tracks (registry : Registry) (budget : Nat) (mode : Mode)
    (scope : Scope) (found? : Option Json) (node : Json) (id : String) :
    ((registry.planUnless budget mode scope found? node).within id).Tracks keep False
      (registry.planUnless budget mode scope found? node) := by
  cases found? with
  | some v => exact Plan.done_within_tracks id v
  | none => exact registry.planWithin_within_tracks budget mode scope node id

/-! ### Calls of the core interpreters -/

/-- **Where all arguments are there at once,** a declaration calls its handler at once. -/
theorem Declaration.plan_tracks_of_atOnce (d : Declaration) (eval : Evaluator) (mode : Mode)
    (ctx : Context) (args : List Json) {xs : List (List Event × Json)}
    (h : List.Forall₂ (fun call x => call.Tracks keep False (.atOnce x.1 x.2))
      (TypeSpec.resolveEach mode (eval mode ctx.scope) d.signature.specs
        (d.signature.arguments args)) xs) :
    (d.plan eval mode ctx args).Tracks keep False
      (.emitAll (xs.flatMap Prod.fst)
        (.emit (.invoked ⟨some d.signature, ctx.scope, args, xs.map Prod.snd⟩)
          ((d.handler (xs.map Prod.snd) ctx).plan eval mode))) := by
  rw [plan, Signature.supply_eq]
  exact Plan.join_tracks_of_atOnce h _

namespace Core

/-- A path as it is written in a call, null where there is none. -/
def pathArgument : Option String → Json
  | none => .null
  | some path => .str path

theorem str?_pathArgument (path? : Option String) : (pathArgument path?).str? = path? := by
  cases path? <;> rfl

variable (budget : Nat) (mode : Mode) (scope : Scope)

/-- The path of a call of `$value` is written down, so it is there at once. -/
private theorem resolve_path (path? : Option String) :
    (TypeSpec.oneOf [.string, .null]).resolve mode
        (registry.evaluator (budget + 1) mode scope) (pathArgument path?) =
      .atOnce [.visited (pathArgument path?)] (pathArgument path?) := by
  -- neither a text nor null is a call, and both are accepted for the path
  have hplain : (pathArgument path?).headId? = none := by cases path? <;> rfl
  have hchecked : TypeSpec.checked (.oneOf [.string, .null]) (pathArgument path?) =
      .done (pathArgument path?) := by cases path? <;> rfl
  rw [TypeSpec.resolve, registry.evaluator_succ_of_plain hplain, Call.plan, Plan.bind_emitAll,
    Plan.bind_done, hchecked]
  rfl

/-- Once the path is there it is read, and on a miss the default is evaluated. -/
private theorem readValue_plan (path? : Option String) (fallback : Json) :
    (readValue [pathArgument path?, fallback] (registry.context scope)).plan
        (registry.evaluator budget) mode =
      registry.planUnless budget mode scope ((registry.context scope).resolve? path?) fallback := by
  have hpath : (param [pathArgument path?, fallback] 0).str? = path? := str?_pathArgument path?
  rw [readValue, hpath]
  cases (registry.context scope).resolve? path? <;> rfl

/-- What happens in a call of `$value` until its path is read. -/
def reading (scope : Scope) (args : List Json) (path? : Option String) (fallback : Json) :
    List Event :=
  [.visited (pathArgument path?),
    .invoked ⟨some value.signature, scope, args, [pathArgument path?, fallback]⟩]

/-- **A call of `$value`** comes to what is found at its path, or else to what its default comes
to. -/
theorem value_tracks {args : List Json} {path? : Option String} {fallback : Json}
    (hargs : value.signature.arguments args = [pathArgument path?, fallback]) :
    (value.plan (registry.evaluator (budget + 1)) mode (registry.context scope) args).Tracks
      keep False
      (.emitAll (reading scope args path? fallback)
        (registry.planUnless (budget + 1) mode scope ((registry.context scope).resolve? path?)
          fallback)) := by
  have hcalls : List.Forall₂ (fun call x => call.Tracks keep False (.atOnce x.1 x.2))
      (TypeSpec.resolveEach mode (registry.evaluator (budget + 1) mode scope)
        value.signature.specs (value.signature.arguments args))
      [([.visited (pathArgument path?)], pathArgument path?), ([], fallback)] := by
    rw [hargs]
    -- the second parameter is delayed, so only the path is evaluated
    refine .cons ?_ (.cons (Call.tracks_self (.atOnce [] fallback)) .nil)
    show Call.Tracks keep False (TypeSpec.resolve _ _ _ _) _
    rw [resolve_path]
    exact Call.tracks_self _
  rw [← readValue_plan]
  exact value.plan_tracks_of_atOnce _ mode (registry.context scope) args hcalls

/-- So does a node that is such a call. -/
theorem planWithin_value_tracks (h : registry.Declares valueId value) {args : List Json}
    {path? : Option String} {fallback : Json}
    (hargs : value.signature.arguments args = [pathArgument path?, fallback]) :
    (registry.planWithin (budget + 2) mode scope (.arr (.str valueId :: args))).Tracks keep False
      (.emitAll (.visited (.arr (.str valueId :: args)) :: reading scope args path? fallback)
        (registry.planUnless (budget + 1) mode scope ((registry.context scope).resolve? path?)
          fallback)) := by
  have hvisit : [Event.visited (.arr (.str valueId :: args))].filter keep =
      [Event.visited (.arr (.str valueId :: args))].filter keep := rfl
  rw [h.planWithin_succ]
  -- the tag of this call is no further tag for what the default fails with
  refine Plan.emitAll_tracks (((value_tracks budget mode scope hargs).within valueId).trans ?_)
    hvisit
  exact Plan.emitAll_within_tracks (registry.planUnless_within_tracks _ mode scope _ _ valueId) _

/-- **A call of `$literal`** comes to its argument. -/
theorem literal_tracks (eval : Evaluator) (ctx : Context) (v : Json) :
    (literal.plan eval mode ctx [v]).Tracks keep False
      (.emit (.invoked ⟨some literal.signature, ctx.scope, [v], [v]⟩) (.done v)) := by
  have hcalls : List.Forall₂ (fun call x => call.Tracks keep False (.atOnce x.1 x.2))
      (TypeSpec.resolveEach mode (eval mode ctx.scope) literal.signature.specs
        (literal.signature.arguments [v])) [([], v)] :=
    .cons (Call.tracks_self (.atOnce [] v)) .nil
  exact literal.plan_tracks_of_atOnce eval mode ctx [v] hcalls

/-- **A call of `$evaluate`** whose second argument has its value at once comes to what the first
comes to in a scope about that value. -/
theorem evaluate_tracks {args : List Json} {inner arg v : Json} {events : List Event}
    (hargs : evaluate.signature.arguments args = [inner, arg])
    (harg : (registry.evaluator budget mode scope arg).Tracks keep False (.atOnce events v)) :
    (evaluate.plan (registry.evaluator budget) mode (registry.context scope) args).Tracks
      keep False
      (.emitAll events
        (.emit (.invoked ⟨some evaluate.signature, scope, args, [inner, v]⟩)
          (registry.planWithin budget mode (scope.withValue v) inner))) := by
  have hcalls : List.Forall₂ (fun call x => call.Tracks keep False (.atOnce x.1 x.2))
      (TypeSpec.resolveEach mode (registry.evaluator budget mode scope)
        evaluate.signature.specs (evaluate.signature.arguments args))
      [([], inner), (events, v)] := by
    rw [hargs]
    -- the node is delayed, and its scope is worked out first
    exact .cons (Call.tracks_self (.atOnce [] inner)) (.cons harg .nil)
  have hplan := evaluate.plan_tracks_of_atOnce _ mode (registry.context scope) args hcalls
  rw [List.flatMap_cons, List.flatMap_cons, List.flatMap_nil, List.nil_append,
    List.append_nil] at hplan
  exact hplan

end Core

/-! ### Calls of which nothing is seen but the value -/

section

variable (budget : Nat) (mode : Mode) (scope : Scope)

/-- A call of a declaration looks like what the declaration does. -/
theorem Registry.Declares.evaluator_tracks {id : String} {d : Declaration}
    (h : registry.Declares id d) {args : List Json} {events : List Event} {v : Json}
    (hd : (d.plan (registry.evaluator budget) mode (registry.context scope) args).Tracks
      Event.isSeen False (.emitAll events (.done v))) (hevents : events.filter Event.isSeen = []) :
    (registry.evaluator (budget + 1) mode scope (.arr (.str id :: args))).Tracks Event.isSeen False
      (.atOnce [] v) := by
  have hvalue := hd.trans (Plan.emitAll_tracks_self hevents (.done v))
  rw [h.evaluator_succ]
  -- there is a value, so the tag has nothing to do
  exact ⟨rfl, (hvalue.within id).trans (Plan.done_within_tracks id v)⟩

/-- The literal of a value looks like the value. -/
theorem Registry.Declares.literalOf_tracks (h : registry.Declares Core.literalId Core.literal)
    (v : Json) : (registry.evaluator (budget + 1) mode scope (Core.literalOf v)).Tracks Event.isSeen
      False (.atOnce [] v) := by
  have hplan : (Core.literal.plan (registry.evaluator budget) mode (registry.context scope)
      [v]).Tracks Event.isSeen False
        (.emitAll [.invoked ⟨some Core.literal.signature, scope, [v], [v]⟩] (.done v)) :=
    Core.literal_tracks mode _ _ v
  exact h.evaluator_tracks budget mode scope hplan rfl

/-- The expression for the current value looks like that value. -/
theorem Registry.Declares.currentValue_tracks (h : registry.Declares Core.valueId Core.value) :
    (registry.evaluator (budget + 2) mode scope Core.currentValue).Tracks Event.isSeen False
      (.atOnce [] scope.value) := by
  have hargs : Core.value.signature.arguments [.null] = [Core.pathArgument none, .null] := rfl
  have hplan : (Core.value.plan (registry.evaluator (budget + 1)) mode (registry.context scope)
      [.null]).Tracks Event.isSeen False
        (.emitAll (Core.reading scope [.null] none .null) (.done scope.value)) :=
    Core.value_tracks budget mode scope hargs
  exact h.evaluator_tracks (budget + 1) mode scope hplan rfl

end

end SigilExpr
