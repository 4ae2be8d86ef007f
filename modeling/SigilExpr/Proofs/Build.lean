import Mathlib.Tactic.ByContra
import Mathlib.Tactic.Push
import SigilExpr.Core
import SigilExpr.Proofs.Course.Ending
import SigilExpr.Stock.Values

/-!
# Which registries can be built

A builder is what calls make of an empty one: definitions are registered, one by one or several at
a time, and a runtime mode is chosen (`Builder.Step`). All that matters of the calls is the
definition that comes last under each identifier (`Builder.Step.last?`) and the last mode
(`Builder.Step.lastMode`).

* `Builder.WellFormed` says of a map of definitions that its identifiers start with the sigil, that
  its declarations have no flaw, and that whatever relies on the interpreter for the current value
  has it.
* `Builder.AtFault` says of an identifier that its own definition is a reason to refuse the map.

A builder goes through its definitions in some order, and refuses them for the first reason that it
comes across. The main result, `Builder.build_ok_iff`, is about every such order: whether a registry
is built, what is in it, and whose fault it is if there is none.
-/

namespace SigilExpr

/-! ### Valid signatures -/

/-- The parameter that takes the current value is one of the parameters, and no shape has a flaw. -/
structure Signature.Valid (signature : Signature) : Prop where
  inRange : ∀ position, signature.fallback = some position → position < signature.specs.length
  specs : ∀ t ∈ signature.specs, t.validate = .ok ()

theorem TypeSpec.validateEach_eq_ok_iff {ts : List TypeSpec} :
    validateEach ts = .ok () ↔ ∀ t ∈ ts, t.validate = .ok () := by
  induction ts with
  | nil => simp [validateEach]
  | cons t ts ih =>
    rw [List.forall_mem_cons, ← ih]
    cases ht : t.validate with
    | error flaw => simp [validateEach, ht, bind, Except.bind]
    | ok u => simp [validateEach, ht, bind, Except.bind]

/-- A signature is accepted exactly if it is valid. -/
theorem Signature.validate_eq_ok_iff {signature : Signature} :
    signature.validate = .ok () ↔ signature.Valid := by
  have hspecs : TypeSpec.validateEach signature.specs = .ok () ↔
      ∀ t ∈ signature.specs, t.validate = .ok () := TypeSpec.validateEach_eq_ok_iff
  constructor
  · intro h
    unfold validate at h
    split at h
    · rename_i position hposition
      split at h
      · rename_i hlt
        refine ⟨fun other hother => ?_, hspecs.1 h⟩
        obtain rfl : position = other := Option.some.inj (hposition.symm.trans hother)
        exact hlt
      · exact absurd h (by simp)
    · rename_i hnone
      exact ⟨fun position hposition => by simp [hnone] at hposition, hspecs.1 h⟩
  · intro h
    unfold validate
    split
    · rename_i position hposition
      rw [if_pos (h.inRange position hposition)]
      exact hspecs.2 h.specs
    · exact hspecs.2 h.specs

namespace Definition

/-- A definition describes an interpreter unless it is a declaration with a flaw. -/
theorem exists_compile_iff (definition : Definition) (id : String) :
    (∃ interpreter, definition.compile id = .ok interpreter) ↔
      ∀ d, definition = .declared d → d.signature.Valid := by
  cases definition with
  | raw handler => simp [compile]
  | pair sync async => simp [compile]
  | declared d =>
    -- to compile a declaration is to check its signature
    have hcompile : (∃ valid, d.compile = .ok valid) ↔ d.signature.Valid := by
      rw [← Signature.validate_eq_ok_iff]
      unfold Declaration.compile
      split
      · rename_i hv
        simp [hv]
      · rename_i flaw hv
        simp [hv]
    constructor
    · rintro ⟨interpreter, h⟩ d' hd
      obtain rfl := Definition.declared.inj hd
      refine hcompile.1 ?_
      cases hc : d.compile with
      | ok valid => exact ⟨valid, rfl⟩
      | error flaw => simp [compile, hc, bind, Except.bind] at h
    · intro h
      obtain ⟨valid, hvalid⟩ := hcompile.2 (h d rfl)
      exact ⟨_, by rw [compile, hvalid]; rfl⟩

theorem needsCurrentValue_eq_true_iff {definition : Definition} :
    definition.needsCurrentValue = true ↔
      ∃ d, definition = .declared d ∧ d.signature.fallback ≠ none := by
  cases definition <;> simp [needsCurrentValue, Option.isSome_iff_ne_none]

/-- The routine is what the definition has for a mode. -/
inductive Gives : Definition → Mode → Routine → Prop where
  /-- A declaration, once found valid. -/
  | declared {d : Declaration} (valid : ValidDeclaration) (h : valid.toDeclaration = d)
    (mode : Mode) : Gives (.declared d) mode (.declared valid)
  /-- A raw handler. -/
  | raw (handler : Handler) (mode : Mode) : Gives (.raw handler) mode (.raw handler)
  /-- The routine for calls on the spot. -/
  | onTheSpot (routine : Routine) (async : Option Routine) :
    Gives (.pair (some routine) async) .sync routine
  /-- The routine for calls that may take time. -/
  | inTime (routine : Routine) (sync : Option Routine) :
    Gives (.pair sync (some routine)) .async routine

theorem sideOf_eq_supported {id : String} {side : Option Routine} {routine : Routine}
    (h : sideOf id side = .supported routine) : side = some routine := by
  cases side with
  | none => exact nomatch h
  | some found => exact congrArg some (Executable.supported.inj h)

/-- A declaration describes the same routine for both modes. -/
theorem side_of_compile {d : Declaration} {id : String} {interpreter : Interpreter}
    (hc : (declared d).compile id = .ok interpreter) :
    ∃ valid : ValidDeclaration, valid.toDeclaration = d ∧
      ∀ mode, interpreter.side mode = .supported (.declared valid) := by
  simp only [compile, bind, Except.bind, pure, Except.pure] at hc
  split at hc
  · exact nomatch hc
  · rename_i valid hvalid
    obtain rfl := Except.ok.inj hc
    have hd : valid.toDeclaration = d := by
      unfold Declaration.compile at hvalid
      split at hvalid
      · exact Except.ok.inj hvalid ▸ rfl
      · exact nomatch hvalid
    exact ⟨valid, hd, fun mode => by cases mode <;> rfl⟩

/-- What an interpreter runs in a mode is what its definition has for the mode. -/
theorem gives_of_compile {definition : Definition} {id : String} {interpreter : Interpreter}
    (hc : definition.compile id = .ok interpreter) {mode : Mode} {routine : Routine}
    (hside : interpreter.side mode = .supported routine) : definition.Gives mode routine := by
  cases definition with
  | declared d =>
    obtain ⟨valid, hd, hsides⟩ := side_of_compile hc
    have hroutine : Routine.declared valid = routine :=
      Executable.supported.inj ((hsides mode).symm.trans hside)
    exact hroutine ▸ .declared valid hd mode
  | raw handler =>
    obtain rfl := Except.ok.inj hc
    have hroutine : Routine.raw handler = routine := by
      cases mode <;> exact Executable.supported.inj hside
    exact hroutine ▸ .raw handler mode
  | pair sync async =>
    obtain rfl := Except.ok.inj hc
    cases mode with
    | sync =>
      obtain rfl : sync = some routine := sideOf_eq_supported hside
      exact .onTheSpot routine async
    | async =>
      obtain rfl : async = some routine := sideOf_eq_supported hside
      exact .inTime routine sync

end Definition

/-- What a registry runs in a mode is what one of the definitions has for the mode. -/
theorem Builder.exists_gives_of_build {builder : Builder} {registry : Registry}
    (hbuild : builder.build = .ok registry) {id : String} {interpreter : Interpreter}
    (hget : registry.get? id = some interpreter) {mode : Mode} {routine : Routine}
    (hside : interpreter.side mode = .supported routine) :
    ∃ definition, (id, definition) ∈ builder.definitions ∧ definition.Gives mode routine := by
  obtain ⟨definition, hm, hc⟩ := exists_definition_of_build hbuild hget
  exact ⟨definition, hm, Definition.gives_of_compile hc hside⟩

namespace Builder

/-! ### Calls on a builder -/

/-- A call on a builder. -/
inductive Step where
  /-- Registers a definition. -/
  | register (id : String) (definition : Definition)
  /-- Registers definitions in order. -/
  | registerAll (definitions : List (String × Definition))
  /-- Chooses the runtime mode. -/
  | withMode (runtimeMode : RuntimeMode)

namespace Step

/-- What a call makes of a builder. -/
def apply (builder : Builder) : Step → Builder
  | register id definition => builder.register id definition
  | registerAll definitions => builder.registerAll definitions
  | withMode runtimeMode => builder.withMode runtimeMode

/-- The definitions that a call registers, in order. -/
def entries : Step → List (String × Definition)
  | register id definition => [(id, definition)]
  | registerAll definitions => definitions
  | withMode _ => []

/-- The runtime mode that a call chooses. -/
def mode? : Step → Option RuntimeMode
  | withMode runtimeMode => some runtimeMode
  | _ => none

/-- The definition that calls register last under an identifier. -/
def last? (steps : List Step) (id : String) : Option Definition :=
  Fields.get? id (steps.flatMap entries).reverse

theorem mem_of_last? {steps : List Step} {id : String} {definition : Definition}
    (h : last? steps id = some definition) : (id, definition) ∈ steps.flatMap entries :=
  List.mem_reverse.1 (Fields.mem_of_get? h)

/-- The runtime mode that calls choose last, or another if they choose none. -/
def lastMode (steps : List Step) (standard : RuntimeMode) : RuntimeMode :=
  (steps.filterMap mode?).getLast?.getD standard

end Step

/-- The builder after calls in order. -/
def afterSteps (builder : Builder) (steps : List Step) : Builder :=
  steps.foldl Step.apply builder

@[simp] theorem runtimeMode_registerAll (builder : Builder)
    (entries : List (String × Definition)) :
    (builder.registerAll entries).runtimeMode = builder.runtimeMode := by
  unfold registerAll
  induction entries generalizing builder with
  | nil => rfl
  | cons entry entries ih => exact ih (builder.register entry.1 entry.2)

theorem ordered_registerAll (builder : Builder) (h : Fields.Ordered builder.definitions)
    (entries : List (String × Definition)) :
    Fields.Ordered (builder.registerAll entries).definitions := by
  unfold registerAll
  induction entries generalizing builder with
  | nil => exact h
  | cons entry entries ih =>
    exact ih (builder.register entry.1 entry.2) (Fields.ordered_insert _ _ h)

/-- A definition stays until another takes its place. -/
theorem get?_registerAll (builder : Builder) (entries : List (String × Definition)) (id : String) :
    Fields.get? id (builder.registerAll entries).definitions =
      (Fields.get? id entries.reverse).or (Fields.get? id builder.definitions) := by
  unfold registerAll
  induction entries generalizing builder with
  | nil => rfl
  | cons entry entries ih =>
    obtain ⟨key, definition⟩ := entry
    rw [List.foldl_cons, ih, List.reverse_cons, Fields.get?_append, Option.or_assoc]
    -- what later entries do is the same on both sides
    congr 1
    by_cases hkey : key = id
    · subst hkey
      simp [register, Fields.get?_cons]
    · simp [register, Fields.get?_cons, Fields.get?_insert_of_ne hkey, hkey]

/-- A call registers its entries, whichever call it is. -/
theorem definitions_apply (builder : Builder) (step : Step) :
    (step.apply builder).definitions = (builder.registerAll step.entries).definitions := by
  cases step <;> rfl

theorem runtimeMode_apply (builder : Builder) (step : Step) :
    (step.apply builder).runtimeMode = step.mode?.getD builder.runtimeMode := by
  cases step with
  | register id definition => rfl
  | registerAll definitions => exact runtimeMode_registerAll builder definitions
  | withMode runtimeMode => rfl

theorem ordered_afterSteps (builder : Builder) (h : Fields.Ordered builder.definitions)
    (steps : List Step) : Fields.Ordered (builder.afterSteps steps).definitions := by
  unfold afterSteps
  induction steps generalizing builder with
  | nil => exact h
  | cons step steps ih =>
    refine ih (step.apply builder) ?_
    rw [definitions_apply]
    exact ordered_registerAll builder h step.entries

/-- **The last definition counts** under each identifier. -/
theorem get?_afterSteps (builder : Builder) (steps : List Step) (id : String) :
    Fields.get? id (builder.afterSteps steps).definitions =
      (Step.last? steps id).or (Fields.get? id builder.definitions) := by
  unfold afterSteps
  induction steps generalizing builder with
  | nil => rfl
  | cons step steps ih =>
    rw [List.foldl_cons, ih, definitions_apply, get?_registerAll, ← Option.or_assoc, Step.last?,
      Step.last?, List.flatMap_cons, List.reverse_append, Fields.get?_append]

theorem runtimeMode_afterSteps (builder : Builder) (steps : List Step) :
    (builder.afterSteps steps).runtimeMode = Step.lastMode steps builder.runtimeMode := by
  unfold afterSteps
  induction steps generalizing builder with
  | nil => rfl
  | cons step steps ih =>
    rw [List.foldl_cons, ih, runtimeMode_apply, Step.lastMode, Step.lastMode, List.filterMap_cons]
    cases step.mode? with
    | none => rfl
    | some runtimeMode => simp [List.getLast?_cons]

/-! ### Definitions, one by one -/

/-- What is built is refused for a reason of its own: the identifier or a flaw. -/
theorem compileOne_eq_error {id : String} {definition : Definition} {e : EvalError}
    (h : compileOne id definition = .error e) :
    (∃ flaw, e = (EvalError.flawed flaw).within id) ∧
      (startsWithSigil id = false ∨
        ∃ d, definition = .declared d ∧ ¬ d.signature.Valid) := by
  unfold compileOne at h
  split at h
  · cases hc : definition.compile id with
    | ok interpreter => simp [hc, Except.mapError] at h
    | error flaw =>
      simp only [hc, Except.mapError, Except.error.injEq] at h
      refine ⟨⟨flaw, h.symm⟩, .inr ?_⟩
      -- a definition that describes no interpreter is a declaration with a flaw
      by_contra hnone
      push Not at hnone
      obtain ⟨interpreter, hok⟩ := (definition.exists_compile_iff id).2 hnone
      exact absurd (hc.symm.trans hok) (by simp)
  · rename_i hs
    refine ⟨⟨.missingSigil id, (Except.error.inj h).symm⟩, .inl ?_⟩
    simpa using hs

theorem compileOne_eq_ok_iff {id : String} {definition : Definition} {interpreter : Interpreter} :
    compileOne id definition = .ok interpreter ↔
      startsWithSigil id = true ∧ definition.compile id = .ok interpreter := by
  constructor
  · intro h
    refine ⟨?_, compile_of_compileOne h⟩
    by_contra hs
    simp [compileOne, hs] at h
  · rintro ⟨hs, hc⟩
    simp [compileOne, hs, hc, Except.mapError]

/-- Definitions are compiled together if each of them is. -/
theorem compileAll_eq_ok_iff {definitions : Fields Definition}
    {interpreters : Fields Interpreter} :
    compileAll definitions = .ok interpreters ↔
      List.Forall₂ (fun entry built => built.1 = entry.1 ∧ compileOne entry.1 entry.2 = .ok built.2)
        definitions interpreters := by
  induction definitions generalizing interpreters with
  | nil => simp [compileAll, eq_comm]
  | cons entry rest ih =>
    obtain ⟨id, definition⟩ := entry
    rw [List.forall₂_cons_left_iff]
    simp only [compileAll, bind, Except.bind, pure, Except.pure]
    constructor
    · intro h
      split at h
      · exact absurd h (by simp)
      · rename_i interpreter hone
        split at h
        · exact absurd h (by simp)
        · rename_i others hothers
          exact ⟨(id, interpreter), others, ⟨rfl, hone⟩, ih.1 hothers, (Except.ok.inj h).symm⟩
    · rintro ⟨⟨key, interpreter⟩, others, ⟨rfl, hone⟩, hothers, rfl⟩
      simp [hone, ih.2 hothers]

theorem exists_of_compileAll_eq_error {definitions : Fields Definition} {e : EvalError}
    (h : compileAll definitions = .error e) :
    ∃ entry ∈ definitions, compileOne entry.1 entry.2 = .error e := by
  induction definitions with
  | nil => simp [compileAll] at h
  | cons entry rest ih =>
    obtain ⟨id, definition⟩ := entry
    simp only [compileAll, bind, Except.bind, pure, Except.pure] at h
    split at h
    · rename_i e' hone
      obtain rfl := Except.error.inj h
      exact ⟨_, List.mem_cons_self, hone⟩
    · split at h
      · rename_i e' hrest
        obtain rfl := Except.error.inj h
        obtain ⟨entry, hm, he⟩ := ih hrest
        exact ⟨entry, List.mem_cons_of_mem _ hm, he⟩
      · exact absurd h (by simp)

/-- What is built under an identifier is what the definition under it describes. -/
theorem get?_of_compileAll {definitions : Fields Definition} {interpreters : Fields Interpreter}
    (h : compileAll definitions = .ok interpreters) (id : String) :
    Fields.get? id interpreters =
      (Fields.get? id definitions).bind fun definition => (definition.compile id).toOption := by
  -- definitions and interpreters stand in the same order under the same identifiers
  rw [compileAll_eq_ok_iff] at h
  induction h with
  | nil => rfl
  | @cons entry built _ _ hone _ ih =>
    obtain ⟨key, definition⟩ := entry
    obtain ⟨key', interpreter⟩ := built
    obtain ⟨rfl, hone⟩ : key' = key ∧ compileOne key definition = .ok interpreter := hone
    rw [Fields.get?_cons, Fields.get?_cons]
    split
    · rename_i hkey
      subst hkey
      simp [compile_of_compileOne hone, Except.toOption]
    · exact ih

/-! ### Definitions, taken together -/

/-- Definitions of which a registry can be built. -/
structure WellFormed (definitions : String → Option Definition) : Prop where
  sigil : ∀ {id definition}, definitions id = some definition → startsWithSigil id = true
  valid : ∀ {id d}, definitions id = some (.declared d) → d.signature.Valid
  currentValue : (∃ definition, definitions Core.valueId = some definition) ∨
    ∀ {id d}, definitions id = some (.declared d) → d.signature.fallback = none

/-- The definition under an identifier is itself a reason to refuse the definitions. -/
inductive AtFault (definitions : String → Option Definition) (id : String) : Prop where
  /-- The identifier does not start with the sigil. -/
  | sigil {definition : Definition} (h : definitions id = some definition)
    (hs : startsWithSigil id = false)
  /-- It is a declaration with a flaw. -/
  | flawed {d : Declaration} (h : definitions id = some (.declared d)) (hv : ¬ d.signature.Valid)
  /-- It relies on the interpreter for the current value, and that is missing. -/
  | currentValue {d : Declaration} (h : definitions id = some (.declared d))
    (hf : d.signature.fallback ≠ none) (hm : definitions Core.valueId = none)

/-- Where a definition is at fault, no registry can be built. -/
theorem AtFault.not_wellFormed {definitions : String → Option Definition} {id : String}
    (h : AtFault definitions id) : ¬ WellFormed definitions := by
  intro hw
  cases h with
  | sigil h hs => exact absurd (hw.sigil h) (by simp [hs])
  | flawed h hv => exact hv (hw.valid h)
  | currentValue h hf hm =>
    rcases hw.currentValue with ⟨definition, hd⟩ | hnone
    · rw [hm] at hd
      exact absurd hd (by simp)
    · exact hf (hnone h)

section

variable {builder : Builder} {definitions : String → Option Definition}

/-- The builder holds these definitions. -/
def Holds (builder : Builder) (definitions : String → Option Definition) : Prop :=
  (Fields.keys builder.definitions).Nodup ∧
    ∀ id, Fields.get? id builder.definitions = definitions id

theorem Holds.mem_iff (h : builder.Holds definitions) {id : String} {definition : Definition} :
    (id, definition) ∈ builder.definitions ↔ definitions id = some definition := by
  rw [← h.2, Fields.get?_eq_some_iff h.1]

theorem Holds.checkDefaults_eq_error (h : builder.Holds definitions) {e : EvalError}
    (he : builder.checkDefaults = .error e) :
    ∃ id flaw, e = (EvalError.flawed flaw).within id ∧ AtFault definitions id := by
  unfold checkDefaults at he
  split at he
  · exact absurd he (by simp)
  · rename_i hmissing
    split at he
    · rename_i id hdependent
      refine ⟨id, _, (Except.error.inj he).symm, ?_⟩
      -- the definition at fault is one of those that the builder holds
      obtain ⟨⟨key, definition⟩, hfind, rfl⟩ := Option.map_eq_some_iff.1 hdependent
      have hneeds : definition.needsCurrentValue = true := by simpa using List.find?_some hfind
      obtain ⟨d, rfl, hf⟩ := Definition.needsCurrentValue_eq_true_iff.1 hneeds
      refine .currentValue (h.mem_iff.1 (List.mem_of_find?_eq_some hfind)) hf ?_
      rw [← h.2]
      simpa [Fields.contains] using hmissing
    · exact absurd he (by simp)

theorem Holds.compileAll_eq_error (h : builder.Holds definitions) {e : EvalError}
    (he : compileAll builder.definitions = .error e) :
    ∃ id flaw, e = (EvalError.flawed flaw).within id ∧ AtFault definitions id := by
  obtain ⟨⟨id, definition⟩, hm, hone⟩ := exists_of_compileAll_eq_error he
  have hd := h.mem_iff.1 hm
  obtain ⟨⟨flaw, rfl⟩, hs | ⟨d, rfl, hv⟩⟩ := compileOne_eq_error hone
  · exact ⟨id, flaw, rfl, .sigil hd hs⟩
  · exact ⟨id, flaw, rfl, .flawed hd hv⟩

/-- **What is refused is refused for a definition at fault,** and the error names it. -/
theorem Holds.build_eq_error (h : builder.Holds definitions) {e : EvalError}
    (he : builder.build = .error e) :
    ∃ id flaw, e = (EvalError.flawed flaw).within id ∧ AtFault definitions id := by
  simp only [build, bind, Except.bind, pure, Except.pure] at he
  split at he
  · rename_i e' hdefaults
    obtain rfl := Except.error.inj he
    exact h.checkDefaults_eq_error hdefaults
  · split at he
    · rename_i e' hall
      obtain rfl := Except.error.inj he
      exact h.compileAll_eq_error hall
    · exact absurd he (by simp)

theorem build_eq_ok {registry : Registry} (hbuild : builder.build = .ok registry) :
    builder.checkDefaults = .ok () ∧
      compileAll builder.definitions = .ok registry.interpreters ∧
      registry.runtimeMode = builder.runtimeMode := by
  simp only [build, bind, Except.bind, pure, Except.pure] at hbuild
  split at hbuild
  · exact absurd hbuild (by simp)
  · rename_i hdefaults
    split at hbuild
    · exact absurd hbuild (by simp)
    · rename_i interpreters hall
      obtain rfl := Except.ok.inj hbuild
      exact ⟨hdefaults, hall, rfl⟩

/-- Definitions of which a registry was built are well formed. -/
theorem Holds.wellFormed (h : builder.Holds definitions) {registry : Registry}
    (hbuild : builder.build = .ok registry) : WellFormed definitions := by
  obtain ⟨hdefaults, hall, -⟩ := build_eq_ok hbuild
  -- none of the definitions has been passed over
  have hone : ∀ {id definition}, definitions id = some definition →
      ∃ interpreter, compileOne id definition = .ok interpreter := by
    intro id definition hd
    obtain ⟨built, -, -, hc⟩ :=
      (compileAll_eq_ok_iff.1 hall).flip.exists_left_of_mem (h.mem_iff.2 hd)
    exact ⟨built.2, hc⟩
  refine ⟨fun hd => ?_, fun hd => ?_, ?_⟩
  · obtain ⟨interpreter, hc⟩ := hone hd
    exact (compileOne_eq_ok_iff.1 hc).1
  · obtain ⟨interpreter, hc⟩ := hone hd
    exact (Definition.exists_compile_iff _ _).1 ⟨interpreter, (compileOne_eq_ok_iff.1 hc).2⟩ _ rfl
  · -- either the interpreter for the current value is there, or nobody was found to need it
    rcases hvalue : definitions Core.valueId with _ | definition
    · refine .inr fun {id d} hd => ?_
      have hmissing : Fields.contains Core.valueId builder.definitions = false := by
        simp [Fields.contains, h.2, hvalue]
      by_contra hf
      have hneeds := Definition.needsCurrentValue_eq_true_iff.2 ⟨d, rfl, hf⟩
      have hfound : builder.dependent? ≠ none := by
        simp only [dependent?, ne_eq, Option.map_eq_none_iff, List.find?_eq_none, not_forall]
        exact ⟨(id, .declared d), h.mem_iff.2 hd, by simpa using hneeds⟩
      obtain ⟨other, hother⟩ := Option.ne_none_iff_exists'.1 hfound
      simp [checkDefaults, hmissing, hother] at hdefaults
    · exact .inl ⟨definition, rfl⟩

/-- **A registry is built exactly of well-formed definitions.** -/
theorem Holds.exists_build_iff (h : builder.Holds definitions) :
    (∃ registry, builder.build = .ok registry) ↔ WellFormed definitions := by
  refine ⟨fun ⟨registry, hbuild⟩ => h.wellFormed hbuild, fun hw => ?_⟩
  cases hbuild : builder.build with
  | ok registry => exact ⟨registry, rfl⟩
  | error e =>
    obtain ⟨id, flaw, -, hfault⟩ := h.build_eq_error hbuild
    exact absurd hw hfault.not_wellFormed

/-- What stands behind an identifier is what the definition under it describes. -/
theorem Holds.get?_of_build (h : builder.Holds definitions) {registry : Registry}
    (hbuild : builder.build = .ok registry) (id : String) :
    registry.get? id =
      (definitions id).bind fun definition => (definition.compile id).toOption := by
  rw [Registry.get?, get?_of_compileAll (build_eq_ok hbuild).2.1, h.2]

theorem Holds.exists_get?_of_build (h : builder.Holds definitions) {registry : Registry}
    (hbuild : builder.build = .ok registry) {id : String} {definition : Definition}
    (hd : definitions id = some definition) :
    ∃ interpreter, definition.compile id = .ok interpreter ∧
      registry.get? id = some interpreter := by
  have hvalid : ∀ d, definition = .declared d → d.signature.Valid := by
    rintro d rfl
    exact (h.wellFormed hbuild).valid hd
  obtain ⟨interpreter, hc⟩ := (definition.exists_compile_iff id).2 hvalid
  refine ⟨interpreter, hc, ?_⟩
  simp [h.get?_of_build hbuild, hd, hc, Except.toOption]

end

/-- Whatever order the definitions after some calls are listed in, the builder holds the last one
under each identifier. -/
theorem holds_of_perm {runtimeMode : RuntimeMode} {steps : List Step} {entries : Fields Definition}
    (h : entries.Perm ((empty runtimeMode).afterSteps steps).definitions)
    (runtimeMode' : RuntimeMode) : Holds ⟨entries, runtimeMode'⟩ (Step.last? steps) := by
  have hordered := ordered_afterSteps (empty runtimeMode) List.Pairwise.nil steps
  have hnodup := Fields.nodup_keys hordered
  refine ⟨(h.map Prod.fst).nodup_iff.2 hnodup, fun id => ?_⟩
  rw [Fields.get?_perm h hnodup, get?_afterSteps, empty, Fields.get?_nil, Option.or_none]

theorem holds_afterSteps (runtimeMode : RuntimeMode) (steps : List Step) :
    ((empty runtimeMode).afterSteps steps).Holds (Step.last? steps) :=
  holds_of_perm (List.Perm.refl ((empty runtimeMode).afterSteps steps).definitions) _

/-- **Exactly the well-formed definitions are built.** Let some calls be made on an empty builder,
and let the definitions it holds then be gone through in any order. Then

* a registry is built if and only if the definitions that come last under their identifiers are
  well formed;
* it has exactly those identifiers, a node headed by one of them is a call of what its last
  definition describes, and it is in the last mode that was chosen;
* if no registry is built the error is that of an ill-formed definition, and the identifier it
  names is at fault;
* calls that leave the same last definitions and the same mode build the same registry, whatever
  the order in which they were made. -/
theorem build_ok_iff (runtimeMode : RuntimeMode) (steps : List Step) {entries : Fields Definition}
    (h : entries.Perm ((empty runtimeMode).afterSteps steps).definitions) :
    let built := build ⟨entries, ((empty runtimeMode).afterSteps steps).runtimeMode⟩
    ((∃ registry, built = .ok registry) ↔ WellFormed (Step.last? steps)) ∧
    (∀ registry, built = .ok registry →
      registry.runtimeMode = Step.lastMode steps runtimeMode ∧
      (∀ id, registry.contains id = (Step.last? steps id).isSome) ∧
      ∀ id definition, Step.last? steps id = some definition →
        ∃ interpreter, definition.compile id = .ok interpreter ∧
          ∀ args, registry.call? (.arr (.str id :: args)) = some (id, interpreter, args)) ∧
    (∀ e, built = .error e → e.kind = .invalidTypeSpec ∧
      ∃ id, e.id = some id ∧ AtFault (Step.last? steps) id) ∧
    ∀ runtimeMode' steps', (∀ id, Step.last? steps' id = Step.last? steps id) →
      Step.lastMode steps' runtimeMode' = Step.lastMode steps runtimeMode →
      ((empty runtimeMode').afterSteps steps').build =
        ((empty runtimeMode).afterSteps steps).build := by
  have hholds := holds_of_perm h ((empty runtimeMode).afterSteps steps).runtimeMode
  refine ⟨hholds.exists_build_iff, fun registry hbuild => ⟨?_, fun id => ?_, ?_⟩, fun e he => ?_,
    fun runtimeMode' steps' hlast hmode => ?_⟩
  · rw [(build_eq_ok hbuild).2.2]
    exact runtimeMode_afterSteps _ _
  · rw [Registry.contains, Fields.contains]
    cases hd : Step.last? steps id with
    | none =>
      have hnone := hholds.get?_of_build hbuild id
      rw [hd] at hnone
      rw [Registry.get?] at hnone
      simp [hnone]
    | some definition =>
      obtain ⟨interpreter, -, hget⟩ := hholds.exists_get?_of_build hbuild hd
      rw [Registry.get?] at hget
      simp [hget]
  · intro id definition hd
    obtain ⟨interpreter, hc, hget⟩ := hholds.exists_get?_of_build hbuild hd
    exact ⟨interpreter, hc, fun args => by rw [Registry.call?, hget]; rfl⟩
  · obtain ⟨id, flaw, rfl, hfault⟩ := hholds.build_eq_error he
    exact ⟨rfl, id, rfl, hfault⟩
  · -- the definitions are listed in the order of their keys, so the lookups determine the builder
    have hdefinitions : ((empty runtimeMode').afterSteps steps').definitions =
        ((empty runtimeMode).afterSteps steps).definitions := by
      refine Fields.ordered_ext (ordered_afterSteps (empty runtimeMode') .nil steps')
        (ordered_afterSteps (empty runtimeMode) .nil steps) fun id => ?_
      rw [get?_afterSteps, get?_afterSteps, hlast]
      rfl
    have hmodes : ((empty runtimeMode').afterSteps steps').runtimeMode =
        ((empty runtimeMode).afterSteps steps).runtimeMode := by
      rw [runtimeMode_afterSteps, runtimeMode_afterSteps]
      exact hmode
    rw [build, build, hmodes, checkDefaults, checkDefaults, dependent?, dependent?, hdefinitions]

end Builder

namespace Stock

open Builder (Step)

/-- An interpreter that relies on the one for the current value before that is there, and that is
replaced in the end. -/
def echoSteps : List Step :=
  [.register "$echo" (.declared (Declaration.ofSpecs first [.anything])),
    .registerAll Core.definitions, .withMode .development,
    .register "$echo" (.declared (Declaration.ofSpecs params [.anything, .delayed]))]

theorem wellFormed_echoSteps : Builder.WellFormed (Step.last? echoSteps) := by
  have hids : ∀ entry ∈ echoSteps.flatMap Step.entries, startsWithSigil entry.1 = true := by
    decide
  have hvalid : ∀ entry ∈ echoSteps.flatMap Step.entries, ∀ d, entry.2 = .declared d →
      d.signature.validate = .ok () := by
    simp only [echoSteps, Step.entries, Core.definitions, List.flatMap_cons, List.flatMap_nil,
      List.append_nil, List.cons_append, List.nil_append, List.forall_mem_cons,
      Definition.declared.injEq, forall_eq']
    exact ⟨rfl, rfl, rfl, rfl, rfl, fun _ hm => nomatch hm⟩
  refine ⟨fun h => hids _ (Step.mem_of_last? h), fun h => ?_, .inl ⟨_, rfl⟩⟩
  exact Signature.validate_eq_ok_iff.1 (hvalid _ (Step.mem_of_last? h) _ rfl)

/-- That the interpreter for the current value comes late, and in which order the definitions are
listed, does not matter. -/
theorem echoSteps_built :
    ∃ registry, Builder.build
      ⟨((Builder.empty .production).afterSteps echoSteps).definitions.reverse,
        ((Builder.empty .production).afterSteps echoSteps).runtimeMode⟩ = .ok registry :=
  (Builder.build_ok_iff .production echoSteps (List.reverse_perm _)).1.2 wellFormed_echoSteps

end Stock

end SigilExpr
