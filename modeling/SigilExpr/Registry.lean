import SigilExpr.Interpreter

/-!
# Registries

A `Registry` holds the interpreters under their identifiers, and never changes. It comes from a
`Builder`, which collects definitions: a later definition under an identifier takes the place of an
earlier one. `Builder.build` refuses a collection for the first of these reasons:

* some declaration takes the current value by default while the interpreter that reads it is
  missing;
* going through the definitions in the order of their identifiers, an identifier does not start
  with the sigil, or a declaration has a flaw.

An error of the build carries the identifier of the definition at fault.

An array whose first item is the identifier of a registered interpreter is a call
(`Registry.call?`). Every other value is data, even an array that looks like a call.
-/

namespace SigilExpr

/-! ### Calls -/

/-- The character that identifiers start with. -/
def sigil : Char := '$'

/-- The text starts with the sigil. -/
def startsWithSigil (id : String) : Bool :=
  id.toList.head? == some sigil

/-- The string at the head of an array. -/
def Json.headId? : Json → Option String
  | .arr (.str id :: _) => some id
  | _ => none

/-- An array with an identifier at its head, registered or not. -/
def Json.looksLikeCall (v : Json) : Bool :=
  v.headId?.any startsWithSigil

/-- Interpreters under their identifiers. -/
structure Registry where
  /-- The interpreters. -/
  interpreters : Fields Interpreter
  /-- The runtime mode. -/
  runtimeMode : RuntimeMode

namespace Registry

/-- The interpreter under an identifier. -/
def get? (registry : Registry) (id : String) : Option Interpreter :=
  Fields.get? id registry.interpreters

/-- An interpreter is registered under an identifier. -/
def contains (registry : Registry) (id : String) : Bool :=
  Fields.contains id registry.interpreters

/-- The identifiers, in ascending order. -/
def ids (registry : Registry) : List String :=
  Fields.keys registry.interpreters

/-- The number of interpreters. -/
def size (registry : Registry) : Nat :=
  registry.interpreters.length

/-- The registry as handlers see it. -/
def directory (registry : Registry) : Directory :=
  ⟨registry.ids, registry.runtimeMode⟩

/-- The call that a node is: identifier, interpreter and arguments. -/
def call? (registry : Registry) : Json → Option (String × Interpreter × List Json)
  | .arr (.str id :: args) => (registry.get? id).map fun interpreter => (id, interpreter, args)
  | _ => none

theorem get?_of_call? {registry : Registry} {node : Json} {id : String}
    {interpreter : Interpreter} {args : List Json}
    (h : registry.call? node = some (id, interpreter, args)) :
    registry.get? id = some interpreter := by
  unfold call? at h
  split at h
  · obtain ⟨found, hf, he⟩ := Option.map_eq_some_iff.1 h
    obtain ⟨rfl, rfl, rfl⟩ : _ = id ∧ found = interpreter ∧ _ = args := by simpa using he
    exact hf
  · simp at h

theorem node_of_call? {registry : Registry} {node : Json} {id : String}
    {interpreter : Interpreter} {args : List Json}
    (h : registry.call? node = some (id, interpreter, args)) : node = .arr (.str id :: args) := by
  unfold call? at h
  split at h
  · obtain ⟨found, -, he⟩ := Option.map_eq_some_iff.1 h
    obtain ⟨rfl, rfl, rfl⟩ : _ = id ∧ found = interpreter ∧ _ = args := by simpa using he
    rfl
  · simp at h

/-- The node is a call. -/
def isCall (registry : Registry) (v : Json) : Bool :=
  v.headId?.any registry.contains

/-- What there is to warn about in a node: in development an identifier at the head of an array
under which nothing is registered. -/
def warnings (registry : Registry) (v : Json) : List String :=
  if registry.runtimeMode.diagnostics then
    match v.headId? with
    | some id => if startsWithSigil id && !registry.contains id then [id] else []
    | none => []
  else []

end Registry

/-! ### Builders -/

/-- Definitions under the identifiers they are meant for. -/
structure Builder where
  /-- The definitions. -/
  definitions : Fields Definition
  /-- The runtime mode of the registry to be. -/
  runtimeMode : RuntimeMode

namespace Builder

/-- No definitions. -/
def empty (runtimeMode : RuntimeMode) : Builder := ⟨[], runtimeMode⟩

/-- Adds a definition, in the place of one that is there under the identifier. -/
def register (builder : Builder) (id : String) (definition : Definition) : Builder :=
  { builder with definitions := Fields.insert id definition builder.definitions }

/-- Adds definitions in order. -/
def registerAll (builder : Builder) (definitions : List (String × Definition)) : Builder :=
  definitions.foldl (fun builder (id, definition) => builder.register id definition) builder

/-- Chooses the runtime mode. -/
def withMode (builder : Builder) (runtimeMode : RuntimeMode) : Builder :=
  { builder with runtimeMode := runtimeMode }

/-- The first definition that relies on the interpreter for the current value. -/
def dependent? (builder : Builder) : Option String :=
  (builder.definitions.find? fun (_, definition) => definition.needsCurrentValue).map Prod.fst

/-- Refuses definitions that rely on the interpreter for the current value while that is
missing. -/
def checkDefaults (builder : Builder) : Except EvalError Unit :=
  if Fields.contains Core.valueId builder.definitions then .ok ()
  else
    match builder.dependent? with
    | some id => .error ((EvalError.flawed (.defaultNeeds Core.valueId)).within id)
    | none => .ok ()

/-- The interpreter that is defined under an identifier. -/
def compileOne (id : String) (definition : Definition) : Except EvalError Interpreter :=
  if startsWithSigil id then
    (definition.compile id).mapError fun flaw => (EvalError.flawed flaw).within id
  else .error ((EvalError.flawed (.missingSigil id)).within id)

/-- The interpreters that are defined under identifiers. -/
def compileAll : Fields Definition → Except EvalError (Fields Interpreter)
  | [] => .ok []
  | (id, definition) :: rest => do
    let interpreter ← compileOne id definition
    let interpreters ← compileAll rest
    return (id, interpreter) :: interpreters

/-- The registry of what was collected. -/
def build (builder : Builder) : Except EvalError Registry := do
  builder.checkDefaults
  let interpreters ← compileAll builder.definitions
  return ⟨interpreters, builder.runtimeMode⟩

/-! ### What is built comes from definitions -/

theorem compile_of_compileOne {id : String} {definition : Definition} {interpreter : Interpreter}
    (h : compileOne id definition = .ok interpreter) : definition.compile id = .ok interpreter := by
  unfold compileOne at h
  split at h
  · cases hc : definition.compile id with
    | error flaw =>
      rw [hc] at h
      exact absurd (show Except.error _ = Except.ok interpreter from h) (by simp)
    | ok found =>
      rw [hc] at h
      exact congrArg Except.ok (Except.ok.inj h)
  · simp at h

private theorem exists_definition_of_compileAll {definitions : Fields Definition}
    {interpreters : Fields Interpreter} (h : compileAll definitions = .ok interpreters)
    {id : String} {interpreter : Interpreter}
    (hget : Fields.get? id interpreters = some interpreter) :
    ∃ definition, (id, definition) ∈ definitions ∧ definition.compile id = .ok interpreter := by
  induction definitions generalizing interpreters with
  | nil =>
    obtain rfl : [] = interpreters := by simpa [compileAll] using h
    simp at hget
  | cons entry rest ih =>
    obtain ⟨key, definition⟩ := entry
    simp only [compileAll, bind, Except.bind, pure, Except.pure] at h
    split at h
    · simp at h
    · rename_i first hfirst
      split at h
      · simp at h
      · rename_i others hothers
        obtain rfl : (key, first) :: others = interpreters := by simpa using h
        rw [Fields.get?_cons] at hget
        split at hget
        · rename_i hkey
          obtain rfl : first = interpreter := by simpa using hget
          subst hkey
          exact ⟨definition, List.mem_cons_self, compile_of_compileOne hfirst⟩
        · obtain ⟨d, hd, hc⟩ := ih hothers hget
          exact ⟨d, List.mem_cons_of_mem _ hd, hc⟩

/-- **Every interpreter of a registry** is what one of the definitions describes. -/
theorem exists_definition_of_build {builder : Builder} {registry : Registry}
    (h : builder.build = .ok registry) {id : String} {interpreter : Interpreter}
    (hget : registry.get? id = some interpreter) :
    ∃ definition, (id, definition) ∈ builder.definitions ∧
      definition.compile id = .ok interpreter := by
  simp only [build, bind, Except.bind, pure, Except.pure] at h
  split at h
  · simp at h
  · split at h
    · simp at h
    · rename_i interpreters hc
      obtain rfl : ⟨interpreters, builder.runtimeMode⟩ = registry := by simpa using h
      exact exists_definition_of_compileAll hc hget

end Builder

end SigilExpr
