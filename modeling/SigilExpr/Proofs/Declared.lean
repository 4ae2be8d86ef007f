import SigilExpr.Evaluate
import SigilExpr.Proofs.Build

/-!
# Calls of what is known to be declared

Where it is known which declaration stands behind an identifier (`Registry.Declares`), one step of
the evaluation of a call can be taken: the node is visited, there is nothing to warn about, and what
is left is what the declaration does with the arguments and with what is left of the budget
(`Registry.Declares.evaluator_succ`). It is known of a registry that is built where the declaration
was the last to be registered under the identifier (`Builder.declares_of_last?`), so of the core
interpreters unless others took their places (`Registry.HasCore`).
-/

namespace SigilExpr

variable {registry : Registry}

/-- The declaration stands behind the identifier in either mode. -/
def Registry.Declares (registry : Registry) (id : String) (d : Declaration) : Prop :=
  ∃ interpreter, registry.get? id = some interpreter ∧
    ∃ valid : ValidDeclaration, valid.toDeclaration = d ∧
      ∀ mode, interpreter.side mode = .supported (.declared valid)

/-- The core interpreters stand behind their identifiers. -/
structure Registry.HasCore (registry : Registry) : Prop where
  value : registry.Declares Core.valueId Core.value
  literal : registry.Declares Core.literalId Core.literal
  evaluate : registry.Declares Core.evaluateId Core.evaluate

/-! ### What was registered -/

namespace Builder

variable {id : String} {d : Declaration}

theorem Holds.declares {builder : Builder} {definitions : String → Option Definition}
    (h : builder.Holds definitions) (hbuild : builder.build = .ok registry)
    (hd : definitions id = some (.declared d)) : registry.Declares id d := by
  obtain ⟨interpreter, hc, hget⟩ := h.exists_get?_of_build hbuild hd
  exact ⟨interpreter, hget, Definition.side_of_compile hc⟩

/-- What was registered last under an identifier stands behind it. -/
theorem declares_of_last? {runtimeMode : RuntimeMode} {steps : List Step}
    (hbuild : ((empty runtimeMode).afterSteps steps).build = .ok registry)
    (hlast : Step.last? steps id = some (.declared d)) : registry.Declares id d :=
  (holds_afterSteps runtimeMode steps).declares hbuild hlast

end Builder

/-- What is built from the core definitions has the core. -/
theorem Core.hasCore_of_build {runtimeMode : RuntimeMode}
    (hbuild : (builder runtimeMode).build = .ok registry) : registry.HasCore := by
  -- a builder with the core is an empty one after a single step
  have hsteps : ((Builder.empty runtimeMode).afterSteps [.registerAll definitions]).build =
      .ok registry := hbuild
  exact ⟨Builder.declares_of_last? hsteps rfl, Builder.declares_of_last? hsteps rfl,
    Builder.declares_of_last? hsteps rfl⟩

/-! ### One step of an evaluation -/

namespace Registry

section

variable {id : String} {d : Declaration} (h : registry.Declares id d)

include h

/-- There is nothing to warn about in a call of something registered. -/
theorem Declares.arrival (args : List Json) :
    registry.arrival (.arr (.str id :: args)) = [.visited (.arr (.str id :: args))] := by
  obtain ⟨interpreter, hget, -⟩ := h
  have hcontains : registry.contains id = true := by
    rw [contains, Fields.contains]
    exact congrArg Option.isSome hget
  simp [Registry.arrival, warnings, Json.headId?, hcontains]

/-- **One call.** With budget left, what happens at once is the visit; the rest is up to the
declaration. -/
theorem Declares.evaluator_succ (budget : Nat) (mode : Mode) (scope : Scope) (args : List Json) :
    registry.evaluator (budget + 1) mode scope (.arr (.str id :: args)) =
      ⟨[.visited (.arr (.str id :: args))],
        (d.plan (registry.evaluator budget) mode (registry.context scope) args).within id⟩ := by
  -- the events of the arrival are named before `h` is taken apart
  have harrival := h.arrival args
  obtain ⟨interpreter, hget, valid, rfl, hside⟩ := h
  rw [evaluator, evaluateWith, harrival, call?, hget]
  simp only [Option.map_some, hside]
  rfl

theorem Declares.planWithin_succ (budget : Nat) (mode : Mode) (scope : Scope) (args : List Json) :
    registry.planWithin (budget + 1) mode scope (.arr (.str id :: args)) =
      .emit (.visited (.arr (.str id :: args)))
        ((d.plan (registry.evaluator budget) mode (registry.context scope) args).within id) := by
  rw [planWithin, h.evaluator_succ]
  rfl

end

/-- With budget left, a node without an identifier at its head is visited and stands for itself. -/
theorem evaluator_succ_of_plain (registry : Registry) {node : Json} (h : node.headId? = none)
    (budget : Nat) (mode : Mode) (scope : Scope) :
    registry.evaluator (budget + 1) mode scope node = ⟨[.visited node], .done node⟩ := by
  have hcall : registry.call? node = none := by
    unfold call?
    split
    · exact nomatch h
    · rfl
  have harrival : registry.arrival node = [.visited node] := by
    simp [Registry.arrival, warnings, h]
  rw [evaluator, evaluateWith, harrival, hcall]
  rfl

end Registry

end SigilExpr
