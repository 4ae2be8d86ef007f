import SigilExpr.Handler

/-!
# Interpreters

What can stand behind an identifier.

* A `Declaration` is a handler with a `Signature`: one spec for each parameter, and the position of
  the parameter that takes the current value where a call leaves it out.
* A `Routine` is something that can be run in one mode: a declaration that was found valid, a
  handler that takes all its arguments evaluated, or a hand-written executable that gets the
  arguments as they are.
* A `Definition` says what to register: one declaration or one raw handler for both modes, or a
  routine of its own for each mode, of which either may be missing.
* An `Interpreter` has an executable for each mode; the one for a missing routine refuses to run.

`Signature.supply` brings the arguments of a call to the number of parameters, in either mode.
-/

namespace SigilExpr

/-- The identifier of the interpreter that reads the current value. -/
def Core.valueId : String := "$value"

/-- The expression for the current value. -/
def Core.currentValue : Json := .arr [.str Core.valueId, .null]

/-- The parameters of an interpreter. -/
structure Signature where
  /-- The shapes of the parameters. -/
  specs : List TypeSpec
  /-- The parameter that takes the current value where it is left out. -/
  fallback : Option Nat

namespace Signature

/-- The parameter that takes the current value unless something else is said: the last. -/
def lastOf (specs : List TypeSpec) : Option Nat :=
  match specs.length with
  | 0 => none
  | n + 1 => some n

/-- The first flaw of a signature: the position first, then the specs from left to right. -/
def validate (signature : Signature) : Except Flaw Unit :=
  match signature.fallback with
  | some position =>
    if position < signature.specs.length then TypeSpec.validateEach signature.specs
    else .error (.defaultOutOfRange position signature.specs.length)
  | none => TypeSpec.validateEach signature.specs

/-- The argument for a parameter that a call leaves out: the expression for the current value, or
null. -/
def omitted (signature : Signature) (position : Nat) : Json :=
  if signature.fallback = some position then Core.currentValue else .null

/-- The argument for the parameter at a position: the one that the call has there, if it has one. -/
def argument (signature : Signature) (args : List Json) (position : Nat) : Json :=
  match args[position]? with
  | some arg => arg
  | none => signature.omitted position

/-- One argument for each parameter, looked up by its position. -/
def arguments (signature : Signature) (args : List Json) : List Json :=
  (List.range signature.specs.length).map (signature.argument args)

/-- One argument for each of `count` parameters from a position on, taken off the front of the
arguments that are left. -/
def draw (signature : Signature) : (count position : Nat) → List Json → List Json
  | 0, _, _ => []
  | count + 1, position, arg :: args => arg :: signature.draw count (position + 1) args
  | count + 1, position, [] => signature.omitted position :: signature.draw count (position + 1) []

/-- One argument for each parameter. On the spot they are looked up one by one; side by side they
are taken as they come. -/
def supply (signature : Signature) : Mode → List Json → List Json
  | .sync, args => signature.arguments args
  | .async, args => signature.draw signature.specs.length 0 args

@[simp] theorem length_arguments (signature : Signature) (args : List Json) :
    (signature.arguments args).length = signature.specs.length := by
  simp [arguments]

theorem draw_eq_map (signature : Signature) (args : List Json) (count position : Nat) :
    signature.draw count position (args.drop position) =
      (List.range' position count).map (signature.argument args) := by
  induction count generalizing position with
  | zero => rfl
  | succ count ih =>
    rw [List.range'_succ, List.map_cons, ← ih (position + 1)]
    rcases Nat.lt_or_ge position args.length with h | h
    · rw [List.drop_eq_getElem_cons h, draw, argument, List.getElem?_eq_getElem h]
    · rw [List.drop_eq_nil_of_le h, List.drop_eq_nil_of_le (Nat.le_succ_of_le h), draw, argument,
        List.getElem?_eq_none h]

/-- Both ways to get the arguments come to the same. -/
theorem supply_eq (signature : Signature) (mode : Mode) (args : List Json) :
    signature.supply mode args = signature.arguments args := by
  cases mode with
  | sync => rfl
  | async =>
    have h := draw_eq_map signature args signature.specs.length 0
    rwa [List.drop_zero, ← List.range_eq_range'] at h

end Signature

/-- A handler and its parameters. -/
structure Declaration where
  /-- The body. -/
  handler : Handler
  /-- The parameters. -/
  signature : Signature

/-- A declaration whose signature has no flaw. -/
structure ValidDeclaration extends Declaration where
  /-- The signature has no flaw. -/
  valid : signature.validate = .ok ()

namespace Declaration

/-- A declaration whose last parameter takes the current value where it is left out. -/
def ofSpecs (handler : Handler) (specs : List TypeSpec) : Declaration :=
  ⟨handler, ⟨specs, Signature.lastOf specs⟩⟩

/-- The declaration with another choice of parameter to take the current value. -/
def withFallback (d : Declaration) (fallback : Option Nat) : Declaration :=
  { d with signature := { d.signature with fallback := fallback } }

/-- The declaration, once found valid. -/
def compile (d : Declaration) : Except Flaw ValidDeclaration :=
  match h : d.signature.validate with
  | .ok () => .ok ⟨d, h⟩
  | .error flaw => .error flaw

end Declaration

/-- Something to run in one mode. -/
inductive Routine where
  /-- A declaration: arguments are resolved to the shapes of the parameters. -/
  | declared (d : ValidDeclaration)
  /-- A raw handler: arguments are evaluated, as many as there are. -/
  | raw (handler : Handler)
  /-- A hand-written executable: arguments are handed over as they are. -/
  | written (perform : List Json → Context → Performance)

/-- What an interpreter has for one mode. -/
inductive Executable where
  /-- A routine. -/
  | supported (routine : Routine)
  /-- A refusal in the name of an identifier. -/
  | unsupported (id : String)

/-- What stands behind an identifier. -/
structure Interpreter where
  /-- The executable for calls that run on the spot. -/
  sync : Executable
  /-- The executable for calls that may take time. -/
  async : Executable

/-- The executable for a mode. -/
def Interpreter.side (interpreter : Interpreter) : Mode → Executable
  | .sync => interpreter.sync
  | .async => interpreter.async

/-- What to register under an identifier. -/
inductive Definition where
  /-- One declaration for both modes. -/
  | declared (d : Declaration)
  /-- One raw handler for both modes. -/
  | raw (handler : Handler)
  /-- A routine for each mode, or none. -/
  | pair (sync : Option Routine) (async : Option Routine)

namespace Definition

/-- The executable of one side of a pair. -/
def sideOf (id : String) : Option Routine → Executable
  | some routine => .supported routine
  | none => .unsupported id

/-- The interpreter that a definition describes under an identifier, or its flaw. -/
def compile (id : String) : Definition → Except Flaw Interpreter
  | .declared d => do
    let valid ← d.compile
    return ⟨.supported (.declared valid), .supported (.declared valid)⟩
  | .raw handler => .ok ⟨.supported (.raw handler), .supported (.raw handler)⟩
  | .pair sync async => .ok ⟨sideOf id sync, sideOf id async⟩

/-- The definition relies on the interpreter for the current value. -/
def needsCurrentValue : Definition → Bool
  | .declared d => d.signature.fallback.isSome
  | _ => false

end Definition

end SigilExpr
