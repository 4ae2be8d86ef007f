import SigilExpr.Proofs.CoreCalls

/-!
# Arguments that are left out or left over

A call of a declaration need not have one argument for each parameter. Those left over are ignored,
and for those left out there are two rules: the expression for the current value where the parameter
takes that by default, and null elsewhere. So the arguments might as well be written out:
`Signature.completed` cuts them to the number of parameters and adds, in the place of the expression
for the current value, a literal of that value. `Registry.call_completed`, the main result, says
that nobody outside can tell the two calls from each other.

The two lists of arguments differ in one position at most. There the one has an expression that the
registry evaluates, in a scope about the value, and the other a literal of the value; both are there
at once, so whatever the shape of the parameter, to resolve the one is to resolve the other
(`Signature.resolveEach_completed`). Only a delayed parameter could tell them apart, as it is given
what is written.
-/

namespace SigilExpr

/-! ### Arguments position by position -/

namespace Signature

variable (signature : Signature) (v : Json) (args : List Json)

/-- What stands for a parameter that a call leaves out: the literal of a value for the one that
takes the current value, and null for any other. -/
def filler (position : Nat) : Json :=
  if signature.fallback = some position then Core.literalOf v else .null

/-- The arguments, cut to the number of parameters and filled up to it. -/
def completed : List Json :=
  args.take signature.specs.length ++
    (List.range' args.length (signature.specs.length - args.length)).map (signature.filler v)

@[simp] theorem length_completed :
    (signature.completed v args).length = signature.specs.length := by
  rw [completed, List.length_append, List.length_take, List.length_map, List.length_range']
  omega

/-- At each position there is the argument of the call, if it has one there, or what stands for
it. -/
theorem getElem?_completed {position : Nat} (h : position < signature.specs.length) :
    (signature.completed v args)[position]? =
      some (args[position]?.getD (signature.filler v position)) := by
  have htake : (args.take signature.specs.length).length =
      min signature.specs.length args.length := List.length_take
  rw [completed]
  rcases Nat.lt_or_ge position args.length with hargs | hargs
  · -- the call has an argument here
    rw [List.getElem?_append_left (by omega), List.getElem?_take_of_lt h,
      List.getElem?_eq_getElem hargs, Option.getD_some]
  · -- what is added starts where the arguments of the call end
    have hadded : position - min signature.specs.length args.length = position - args.length := by
      omega
    have hlast : position - args.length < signature.specs.length - args.length := by omega
    have hposition : args.length + 1 * (position - args.length) = position := by omega
    rw [List.getElem?_append_right (by omega), htake, hadded, List.getElem?_map,
      List.getElem?_range' hlast, Option.map_some, hposition, List.getElem?_eq_none hargs,
      Option.getD_none]

/-- What is beyond the parameters makes no difference to the arguments they get. -/
theorem arguments_take : signature.arguments (args.take signature.specs.length) =
    signature.arguments args := by
  refine List.map_congr_left fun position hposition => ?_
  rw [argument, List.getElem?_take_of_lt (List.mem_range.1 hposition), argument]

end Signature

/-- Arguments that are given by their positions are resolved in related ways if those at every
position are. -/
theorem TypeSpec.forall₂_resolveEach_range {R : Call → Call → Prop} {mode : Mode}
    {eval : Json → Call} {ts : List TypeSpec} {f g : Nat → Json}
    (h : ∀ (k : Nat) (t : TypeSpec), ts[k]? = some t →
      R (t.resolve mode eval (f k)) (t.resolve mode eval (g k))) :
    List.Forall₂ R (resolveEach mode eval ts ((List.range ts.length).map f))
      (resolveEach mode eval ts ((List.range ts.length).map g)) := by
  induction ts generalizing f g with
  | nil => exact .nil
  | cons t ts ih =>
    rw [List.length_cons, List.range_succ_eq_map, List.map_cons, List.map_cons, List.map_map,
      List.map_map]
    exact .cons (h 0 t rfl) (ih fun k u hu => h (k + 1) u hu)

/-! ### Calls with completed arguments -/

section

variable {registry : Registry} (hvalue : registry.Declares Core.valueId Core.value)
  (hliteral : registry.Declares Core.literalId Core.literal)

include hvalue hliteral

/-- **Position by position** the completed arguments look like those of the call once they are
resolved. -/
theorem Signature.resolveEach_completed {signature : Signature}
    (hopen : ∀ k, signature.fallback = some k → signature.specs[k]? ≠ some .delayed)
    (budget : Nat) (mode : Mode) (scope : Scope) (args : List Json) :
    List.Forall₂ (Call.Tracks Event.isSeen False)
      (TypeSpec.resolveEach mode (registry.evaluator (budget + 2) mode scope)
        signature.specs (signature.arguments args))
      (TypeSpec.resolveEach mode (registry.evaluator (budget + 2) mode scope)
        signature.specs (signature.arguments (signature.completed scope.value args))) := by
  refine TypeSpec.forall₂_resolveEach_range fun k t ht => ?_
  -- both lists of arguments are given by their positions, so one position is enough
  have hlt : k < signature.specs.length := (List.getElem?_eq_some_iff.1 ht).1
  have hcompleted := signature.getElem?_completed scope.value args hlt
  rw [argument, argument, hcompleted]
  cases args[k]? with
  | some arg => exact Call.tracks_self _
  | none =>
    rw [Option.getD_none, omitted, filler]
    by_cases hfallback : signature.fallback = some k
    · -- the one is evaluated, the other is written down
      have hdelayed : t ≠ .any true := by
        rintro rfl
        exact hopen k hfallback ht
      have hcurrent := hvalue.currentValue_tracks budget mode scope
      have hwritten := hliteral.literalOf_tracks (budget + 1) mode scope scope.value
      have hnodes : ∀ node, (registry.evaluator (budget + 2) mode scope node).Tracks Event.isSeen
          False (registry.evaluator (budget + 2) mode scope node) := fun node => Call.tracks_self _
      rw [if_pos hfallback, if_pos hfallback]
      exact (Simulation.tracking Event.isSeen False).resolve_of_call hnodes hdelayed
        (hcurrent.trans hwritten.symm)
    · rw [if_neg hfallback, if_neg hfallback]
      exact Call.tracks_self _

/-- A declaration does the same with completed arguments, as far as it is seen from outside. -/
theorem Declaration.completed_tracks {d : Declaration}
    (hopen : ∀ k, d.signature.fallback = some k → d.signature.specs[k]? ≠ some .delayed)
    (budget : Nat) (mode : Mode) (scope : Scope) (args : List Json) :
    (d.plan (registry.evaluator (budget + 2)) mode (registry.context scope) args).Tracks
      Event.isSeen False
      (d.plan (registry.evaluator (budget + 2)) mode (registry.context scope)
        (d.signature.completed scope.value args)) := by
  have hcalls :=
    Signature.resolveEach_completed hvalue hliteral hopen budget mode scope args
  rw [plan, plan, Signature.supply_eq, Signature.supply_eq]
  refine Plan.join_tracks hcalls fun params _ => ?_
  exact (Plan.emit_tracks_self rfl _).trans (Plan.emit_tracks_self rfl _).symm

end

/-- A declaration does the same without the arguments that are left over, except that the call of
its handler tells which arguments there were. -/
theorem Declaration.take_tracks (d : Declaration) (eval : Evaluator) (mode : Mode) (ctx : Context)
    (args : List Json) :
    (d.plan eval mode ctx args).Tracks (fun event => event.invoked?.isNone) False
      (d.plan eval mode ctx (args.take d.signature.specs.length)) := by
  rw [plan, plan, Signature.supply_eq, Signature.supply_eq, Signature.arguments_take]
  -- the very same calls are made, only the arguments that the handler's call reports are fewer
  have hcalls : ∀ calls : List Call,
      List.Forall₂ (Call.Tracks (fun event => event.invoked?.isNone) False) calls calls :=
    fun calls => List.forall₂_same.2 fun call _ => Call.tracks_self call
  refine Plan.join_tracks (hcalls _) fun params _ => ?_
  exact (Plan.emit_tracks_self rfl _).trans (Plan.emit_tracks_self rfl _).symm

namespace Registry

variable {registry : Registry}

/-- **Completed arguments.** Let the interpreters from the core stand behind the identifiers for
values and for literals, and take a declaration whose parameter for the current value, if it has
one, is not delayed. Whatever the arguments of a call of it, in any scope and in either mode, within
any budget that lets the current value be read:

* completed, there is one argument for each parameter: that of the call, be it null, and where the
  call has none a literal of the current value for the parameter that takes it, and null for any
  other;
* a call with the completed arguments looks like the call, directly and under any identifier behind
  which the declaration stands: it comes to the same value or the same error, with the same entries
  in the log and the same warnings, at the same times;
* without the arguments that are left over the very same nodes are visited, so these are never
  evaluated. -/
theorem call_completed (hvalue : registry.Declares Core.valueId Core.value)
    (hliteral : registry.Declares Core.literalId Core.literal) (d : ValidDeclaration)
    (hopen : ∀ k, d.signature.fallback = some k → d.signature.specs[k]? ≠ some .delayed)
    (budget : Nat) (mode : Mode) (scope : Scope) (args : List Json) :
    let count := d.signature.specs.length
    let completed := d.signature.completed scope.value args
    let call := fun args =>
      registry.planCallWithin (budget + 2) (.supported (.declared d)) args mode scope
    completed.length = count ∧
    (∀ k, k < count → completed[k]? = some (args[k]?.getD
      (if d.signature.fallback = some k then Core.literalOf scope.value else .null))) ∧
    (call args).LooksLike (call completed) ∧
    (∀ id, registry.Declares id d.toDeclaration →
      (registry.planWithin (budget + 3) mode scope (.arr (.str id :: args))).LooksLike
        (registry.planWithin (budget + 3) mode scope (.arr (.str id :: completed)))) ∧
    (call args).Tracks (fun event => event.invoked?.isNone) False (call (args.take count)) := by
  intro count completed call
  have hplan := Declaration.completed_tracks hvalue hliteral hopen budget mode scope args
  refine ⟨d.signature.length_completed scope.value args, fun k hk => ?_, .of_tracks hplan,
    fun id hid => .of_tracks ?_, d.take_tracks _ mode _ args⟩
  · exact d.signature.getElem?_completed scope.value args hk
  · -- under an identifier there is a visit before, which is not seen, and a tag after
    rw [hid.planWithin_succ, hid.planWithin_succ]
    exact (Plan.emit_tracks_self rfl _).trans
      ((hplan.within id).trans (Plan.emit_tracks_self rfl _).symm)

end Registry

namespace Stock

/-- A handler that gives back its two parameters, of which the first is a sequence and takes the
current value by default. -/
def pairing : ValidDeclaration :=
  ⟨(Declaration.ofSpecs params [.sequenceOf .anything, .anything]).withFallback (some 0), rfl⟩

/-- The core and the pairing. -/
def pairingSteps : List Builder.Step :=
  [.registerAll Core.definitions, .register "$pairing" (.declared pairing.toDeclaration)]

/-- The pairing gets the items of the current value, evaluated, and a null, whether or not they are
written down; what is left over is not warned about in development. -/
theorem pairing_completes :
    ∃ registry, ((Builder.empty .development).afterSteps pairingSteps).build = .ok registry ∧
      let plan := fun args => registry.planWithin 3 .async
        (.root (.arr [Core.literalOf (.str "a")])) (.arr (.str "$pairing" :: args))
      (plan []).LooksLike
        (plan [Core.literalOf (.arr [Core.literalOf (.str "a")]), .null]) ∧
      (plan []).run.verdict = .ok (.arr [.arr [.str "a"], .null]) ∧
      (plan [.arr [], .null, .arr [.str "$missing"]]).LooksLike (plan [.arr [], .null]) := by
  refine ⟨_, rfl, ?_⟩
  have hbuild : ((Builder.empty .development).afterSteps pairingSteps).build = .ok _ := rfl
  have hcompleted := Registry.call_completed (Builder.declares_of_last? hbuild rfl)
    (Builder.declares_of_last? hbuild rfl) pairing ?_ 0 .async
    (.root (.arr [Core.literalOf (.str "a")]))
  · have hnode := fun args => (hcompleted args).2.2.2.1 "$pairing"
      (Builder.declares_of_last? hbuild rfl)
    exact ⟨hnode [], (hnode []).verdict.trans rfl, hnode [.arr [], .null, .arr [.str "$missing"]]⟩
  · intro k hk
    obtain rfl : 0 = k := Option.some.inj hk
    exact nofun

end Stock

end SigilExpr
