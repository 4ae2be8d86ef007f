import SigilExpr.Mode
import SigilExpr.TypeSpec.Form

/-!
# Errors of evaluation

An `EvalError` is a cause and, once known, the identifier of the interpreter in which the failure
came to light. The cause determines the kind and the message. On its way out of an interpreter an
error is tagged with the identifier (`EvalError.within`), unless it is tagged already. So the
innermost identifier stays, and further tags change nothing (`EvalError.within_within`).

Errors are written as JSON with their three fields in a fixed order, and read back from such an
object or from an array of the three (`EvalError.ofJson?`).
-/

namespace SigilExpr

/-- What sort of failure an error reports. -/
inductive ErrorKind where
  /-- A value does not have the shape asked for. -/
  | typeMismatch
  /-- An interpreter cannot run in the mode asked for. -/
  | modeUnsupported
  /-- A definition is ill formed. -/
  | invalidTypeSpec
  /-- A handler gave up. -/
  | handler
deriving DecidableEq, Repr

namespace ErrorKind

/-- The code that reports begin with. -/
def code : ErrorKind → String
  | typeMismatch => "JEXPR_E_TYPE_MISMATCH"
  | modeUnsupported => "JEXPR_E_MODE_UNSUPPORTED"
  | invalidTypeSpec => "JEXPR_E_INVALID_TYPE_SPEC"
  | handler => "JEXPR_E_HANDLER"

/-- The name in JSON. -/
def name : ErrorKind → String
  | typeMismatch => "type_mismatch"
  | modeUnsupported => "mode_unsupported"
  | invalidTypeSpec => "invalid_type_spec"
  | handler => "handler"

/-- The kind with this name. -/
def ofName? (name : String) : Option ErrorKind :=
  [typeMismatch, modeUnsupported, invalidTypeSpec, handler].find? fun kind => kind.name == name

/-- The kind that a value names: a string, or an object with the name as its one key and null under
it. -/
def ofJson? : Json → Option ErrorKind
  | .str name => ofName? name
  | .obj [(name, .null)] => ofName? name
  | _ => none

end ErrorKind

/-- Why an evaluation failed. -/
inductive Cause where
  /-- A value does not match a spec. -/
  | mismatch (expected : TypeSpec) (actual : Json)
  /-- An interpreter has no executable for a mode. -/
  | unsupported (id : String) (mode : Mode)
  /-- A definition has a flaw. -/
  | flawed (flaw : Flaw)
  /-- A handler says so. -/
  | stated (kind : ErrorKind) (message : String)

namespace Cause

/-- The longest preview of a value. -/
def previewLength : Nat := 80

/-- The text of a value, cut to the length of a preview. -/
def preview (v : Json) : String :=
  let text := v.text
  if text.length ≤ previewLength then text
  else String.ofList (text.toList.take previewLength) ++ "…"

/-- The kind of failure. -/
def kind : Cause → ErrorKind
  | mismatch _ _ => .typeMismatch
  | unsupported _ _ => .modeUnsupported
  | flawed _ => .invalidTypeSpec
  | stated kind _ => kind

/-- The wording of a cause. -/
def message : Cause → String
  | mismatch expected actual =>
    "expected " ++ expected.text ++ ", got " ++ (ValueType.of actual).name ++ " " ++ preview actual
  | unsupported id mode =>
    "interpreter `" ++ id ++ "` does not support " ++ mode.name ++ " evaluation"
  | flawed flaw => flaw.message
  | stated _ message => message

end Cause

/-- A failed evaluation. -/
structure EvalError where
  /-- Why it failed. -/
  cause : Cause
  /-- The interpreter in which the failure came to light. -/
  id : Option String := none

namespace EvalError

/-- The kind of failure. -/
def kind (e : EvalError) : ErrorKind := e.cause.kind

/-- The wording of the failure, without the identifier. -/
def message (e : EvalError) : String := e.cause.message

/-- The error of a value that does not match a spec. -/
def mismatch (expected : TypeSpec) (actual : Json) : EvalError :=
  ⟨.mismatch expected actual, none⟩

/-- The error of an interpreter without an executable for a mode. -/
def unsupported (id : String) (mode : Mode) : EvalError :=
  ⟨.unsupported id mode, some id⟩

/-- The error of a flawed definition. -/
def flawed (flaw : Flaw) : EvalError :=
  ⟨.flawed flaw, none⟩

/-- An error in a handler's own words. -/
def stated (message : String) (kind : ErrorKind) : EvalError :=
  ⟨.stated kind message, none⟩

/-- Names the interpreter, unless one is named already. -/
def within (id : String) (e : EvalError) : EvalError :=
  { e with id := e.id.or (some id) }

/-- The error on one line: code, message and interpreter. -/
def display (e : EvalError) : String :=
  e.kind.code ++ ": " ++ e.message ++
    match e.id with
    | some id => " (in " ++ id ++ ")"
    | none => ""

/-- Errors that say the same: of one kind, with one message and one interpreter. -/
def same (e f : EvalError) : Bool :=
  e.kind == f.kind && e.message == f.message && e.id == f.id

@[simp] theorem within_cause (id : String) (e : EvalError) : (e.within id).cause = e.cause := rfl

/-- **The innermost identifier stays.** -/
theorem within_within (inner outer : String) (e : EvalError) :
    (e.within inner).within outer = e.within inner := by
  obtain ⟨cause, id⟩ := e
  cases id <;> rfl

/-! ### JSON -/

/-- An identifier as a value: null if there is none. -/
def idToJson : Option String → Json
  | some id => .str id
  | none => .null

/-- The JSON text of an error: kind, message and identifier, in this order. -/
def text (e : EvalError) : String :=
  "\x7b" ++ Json.textOfFields
    [("kind", .str e.kind.name), ("message", .str e.message), ("id", idToJson e.id)] ++ "\x7d"

/-- The identifier that a value stands for, where null stands for none. -/
def idOfJson? : Json → Option (Option String)
  | .null => some none
  | .str id => some (some id)
  | _ => none

/-- The error with these three parts. -/
def ofParts? (kind message id : Json) : Option EvalError := do
  let kind ← ErrorKind.ofJson? kind
  let message ← message.str?
  let id ← idOfJson? id
  return ⟨.stated kind message, id⟩

/-- The error that a value describes: an object with the fields `kind`, `message` and possibly `id`
and any others, or an array of the three. -/
def ofJson? : Json → Option EvalError
  | .obj fields => do
    let kind ← Fields.get? "kind" fields
    let message ← Fields.get? "message" fields
    ofParts? kind message (Fields.getD "id" .null fields)
  | .arr [kind, message, id] => ofParts? kind message id
  | _ => none

end EvalError

/-- The value itself if it matches the spec, and an error if not. -/
def TypeSpec.check (t : TypeSpec) (v : Json) : Except EvalError Json :=
  if t.accepts v then .ok v else .error (.mismatch t v)

/-- The spec that a form describes, or the error that it describes none. -/
def TypeSpec.read (form : Json) : Except EvalError TypeSpec :=
  (TypeSpec.ofJson form).mapError EvalError.flawed

end SigilExpr
