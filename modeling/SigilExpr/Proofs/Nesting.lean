import SigilExpr.Proofs.Ascent
import SigilExpr.Proofs.CoreCalls

/-!
# Nested scopes

A call of `$evaluate` has a node evaluated in a scope of its own, about a value that is quoted or,
where none is given, about the current value (`Core.focus`). Such calls can be nested, and then the
node in the middle is evaluated in the scope that is entered by all of them (`Scope.entered`). To
those outside, the nested calls look like the node evaluated there: `Core.nested_lexical`, the main
result. In particular a path that goes out as many links as there are calls is read outside.

The second argument is evaluated in the scope of the call and the first in the scope inside, so the
induction is on the calls from the outside in, for all scopes at once (`Core.nested_tracks`).
-/

namespace SigilExpr

namespace Scope

/-- The scope about a value, or about the current value once more. -/
def focused (scope : Scope) (v? : Option Json) : Scope :=
  scope.withValue (v?.getD scope.value)

/-- The scope inside scopes about some values, the first the outermost. -/
def entered (scope : Scope) (vs : List (Option Json)) : Scope := vs.foldl focused scope

/-- Out of as many scopes as were entered one is where one was. -/
theorem ancestor?_entered (vs : List (Option Json)) (scope : Scope) :
    (scope.entered vs).ancestor? vs.length = some scope := by
  induction vs generalizing scope with
  | nil => rfl
  | cons v? vs ih =>
    have hinside : ((scope.focused v?).entered vs).ancestor? vs.length = some (scope.focused v?) :=
      ih (scope.focused v?)
    rw [List.length_cons, ancestor?_succ]
    exact congrArg (Option.bind · parent?) hinside

end Scope

namespace Core

/-- The call that has a node evaluated about a value, or about the current value if none is
given. -/
def focus : Option Json → Json → Json
  | none, node => .arr [.str evaluateId, node]
  | some v, node => .arr [.str evaluateId, node, literalOf v]

/-- Such calls one inside the other, the first the outermost. -/
def nested (vs : List (Option Json)) (node : Json) : Json := vs.foldr focus node

/-- The expression that reads a path. -/
def read (path : String) : Json := .arr [.str valueId, .str path]

variable {registry : Registry}

/-- **One call** of `$evaluate` looks like its node in the scope inside. -/
theorem focus_tracks (h : registry.HasCore) (budget : Nat) (mode : Mode) (scope : Scope)
    (v? : Option Json) (node : Json) :
    (registry.planWithin (budget + 3) mode scope (focus v? node)).Tracks Event.isSeen False
      (registry.planWithin (budget + 2) mode (scope.focused v?) node) := by
  -- it does not matter how the value is given, as long as it is there at once
  have hcall : ∀ {args arg v}, evaluate.signature.arguments args = [node, arg] →
      (registry.evaluator (budget + 2) mode scope arg).Tracks Event.isSeen False (.atOnce [] v) →
      (registry.planWithin (budget + 3) mode scope (.arr (.str evaluateId :: args))).Tracks
        Event.isSeen False (registry.planWithin (budget + 2) mode (scope.withValue v) node) := by
    intro args arg v hargs harg
    have hbody := (evaluate_tracks (budget + 2) mode scope hargs harg).trans
      (Plan.emit_tracks_self rfl _)
    -- the error of the node has the tag of a call inside, so that of this call is not seen
    have htagged := (hbody.within evaluateId).trans
      (registry.planWithin_within_tracks (budget + 2) mode (scope.withValue v) node evaluateId)
    rw [h.evaluate.planWithin_succ]
    exact (Plan.emit_tracks_self rfl _).trans htagged
  cases v? with
  | none => exact hcall rfl (h.value.currentValue_tracks budget mode scope)
  | some v => exact hcall rfl (h.literal.literalOf_tracks (budget + 1) mode scope v)

/-- **Nested calls** look like the node in the middle, in the scope that is entered. -/
theorem nested_tracks (h : registry.HasCore) (budget : Nat) (mode : Mode) (scope : Scope)
    (vs : List (Option Json)) (node : Json) :
    (registry.planWithin (budget + 2 + vs.length) mode scope (nested vs node)).Tracks Event.isSeen
      False (registry.planWithin (budget + 2) mode (scope.entered vs) node) := by
  induction vs generalizing scope with
  | nil => exact Plan.tracks_self _
  | cons v? vs ih =>
    have hbudget : budget + 2 + (v? :: vs).length = budget + vs.length + 3 := by
      rw [List.length_cons]
      omega
    have houter : (registry.planWithin (budget + vs.length + 3) mode scope
        (focus v? (nested vs node))).Tracks Event.isSeen False
          (registry.planWithin (budget + vs.length + 2) mode (scope.focused v?) (nested vs node)) :=
      focus_tracks h (budget + vs.length) mode scope v? (nested vs node)
    have hinner := ih (scope.focused v?)
    rw [Nat.add_right_comm] at hinner
    rw [hbudget]
    exact houter.trans hinner

/-- A path looks like what is found at it, and like null if nothing is. -/
theorem read_tracks (h : registry.HasCore) (budget : Nat) (mode : Mode) (scope : Scope)
    (path : String) :
    (registry.planWithin (budget + 2) mode scope (read path)).Tracks Event.isSeen False
      (.done ((scope.resolve? path).getD .null)) := by
  have hargs : value.signature.arguments [.str path] = [pathArgument (some path), .null] := rfl
  have hcall : Plan.Tracks Event.isSeen False _ _ :=
    planWithin_value_tracks budget mode scope h.value hargs
  refine hcall.trans ((Plan.emitAll_tracks_self rfl _).trans ?_)
  show Plan.Tracks Event.isSeen False
    (registry.planUnless (budget + 1) mode scope (scope.resolve? path) .null) _
  cases scope.resolve? path with
  | some v => exact Plan.tracks_self _
  | none =>
    -- the default that is left out is a null, which is no call
    have hnull : registry.planWithin (budget + 1) mode scope .null =
        .emit (.visited .null) (.done .null) := by
      rw [Registry.planWithin, registry.evaluator_succ_of_plain rfl]
      rfl
    rw [Registry.planUnless, hnull]
    exact Plan.emit_tracks_self rfl _

/-- **Nested scopes are lexical.** Let the core interpreters stand behind their identifiers, and
take calls of `$evaluate` one inside the other, about any values or with the value left out, in any
scope and in either mode, within any budget that reaches the node in the middle.

* The whole looks like the node in the scope that is entered by the calls from the outside in: it
  comes to the same value or the same error, with the same entries in the log and the same warnings,
  at the same times.
* Where the value of a call is left out, the call might as well quote the current value there.
* A path in the middle that goes out as many links as there are calls comes to what there is at the
  rest of it in the scope outside, and to null if there is nothing. -/
theorem nested_lexical (h : registry.HasCore) (budget : Nat) (mode : Mode) (scope : Scope)
    (vs : List (Option Json)) :
    let whole := fun vs node =>
      registry.planWithin (budget + 2 + vs.length) mode scope (nested vs node)
    (∀ node, (whole vs node).LooksLike
      (registry.planWithin (budget + 2) mode (scope.entered vs) node)) ∧
    (∀ ws node, (whole (vs ++ none :: ws) node).LooksLike
      (whole (vs ++ some (scope.entered vs).value :: ws) node)) ∧
    ∀ path, (whole vs (read (Scope.ascending vs.length path))).LooksLike
      (.done ((scope.resolve? path).getD .null)) := by
  intro whole
  have hnested : ∀ vs node, (whole vs node).Tracks Event.isSeen False
      (registry.planWithin (budget + 2) mode (scope.entered vs) node) :=
    fun vs node => nested_tracks h budget mode scope vs node
  refine ⟨fun node => .of_tracks (hnested vs node), fun ws node => ?_, fun path => ?_⟩
  · have hscope : scope.entered (vs ++ none :: ws) =
        scope.entered (vs ++ some (scope.entered vs).value :: ws) := by
      rw [Scope.entered, Scope.entered, List.foldl_append, List.foldl_append]
      rfl
    have hleft := hnested (vs ++ none :: ws) node
    rw [hscope] at hleft
    exact .of_tracks (hleft.trans (hnested _ node).symm)
  · have hread := read_tracks h budget mode (scope.entered vs) (Scope.ascending vs.length path)
    rw [Scope.resolve?_ascending, Scope.ancestor?_entered, Option.bind_some] at hread
    exact .of_tracks ((hnested vs _).trans hread)

/-- From the middle of three calls, of which one leaves out its value, a key is read outside. -/
theorem nested_read_outside :
    ∃ registry, (builder .production).build = .ok registry ∧
      (((registry.planWithin 5 .async (.root (.obj [("x", .bool true)]))
        (nested [some .null, none, some (.str "v")]
          (read "$$PARENT_SCOPE.$$PARENT_SCOPE.$$PARENT_SCOPE.x"))).launch 3).verdict =
        .ok (.bool true)) ∧
      (registry.planWithin 5 .sync (.root (.obj [("x", .bool true)]))
        (nested [some .null, none, some (.str "v")] (read "x"))).run.verdict = .ok .null := by
  refine ⟨_, rfl, ?_⟩
  have hbuild : (builder .production).build = .ok _ := rfl
  have hcore := hasCore_of_build hbuild
  have hlexical := fun mode => nested_lexical hcore 0 mode (.root (.obj [("x", .bool true)]))
    [some .null, none, some (.str "v")]
  exact ⟨((hlexical .async).2.2 "x").verdictAt 3, ((hlexical .sync).1 (read "x")).verdict.trans rfl⟩

end Core

end SigilExpr
