import SigilExpr.Plan.Basic

/-!
# Resolving arguments

How a written argument becomes a value of a declared shape. `TypeSpec.resolve` gives the call that
does so, for any way `eval` to evaluate a node:

* a delayed argument is taken as it is written;
* for an undelayed `any` the argument is evaluated, and for a choice of types or values its value
  is checked;
* for a container the argument is evaluated, its value has to have the right outer form, and its
  parts are resolved in turn to the shapes declared for them. The parts are siblings: in a record
  only the declared fields are, an absent one standing for null. The container with the resolved
  parts put back is checked once more as a whole.

The two modes go about a record in different ways. On the spot a field is put back as soon as it is
resolved (`TypeSpec.resolveInPlace`); side by side all fields are read first, and put back when all
are there.

An undelayed `any` is called as the argument is; otherwise nothing happens until somebody waits.

A mismatch that comes to light names no interpreter, and failures of `eval` are left as they are.
Whoever asked for the argument may tag them.
-/

namespace SigilExpr.TypeSpec

/-- Ends with the value if it matches the spec, and with an error if not. -/
def checked (t : TypeSpec) (v : Json) : Plan :=
  .ofResult (t.check v)

/-- Ends with the error of a value that does not match the spec. -/
def refuse (t : TypeSpec) (v : Json) : Plan :=
  .fail (.mismatch t v)

/-- Puts a resolved field back: where the object has the key already, or where the value is not
null. -/
def putBack (object : Fields Json) (key : String) (v : Json) : Fields Json :=
  if Fields.contains key object || !v.isNull then Fields.insert key v object else object

/-- Puts resolved fields back, one after the other. -/
def putBackAll (object : Fields Json) (keys : List String) (vs : List Json) : Fields Json :=
  (keys.zip vs).foldl (fun object (key, v) => putBack object key v) object

mutual

/-- The call by which an argument becomes a value of a shape. -/
def resolve (mode : Mode) (eval : Json → Call) : TypeSpec → Json → Call
  | .any true, raw => .ofPlan (.done raw)
  | .any false, raw => eval raw
  | .tuple items, raw =>
    .ofPlan <| (eval raw).plan.bind fun v =>
      match v with
      | .arr vs =>
        if vs.length = items.length then
          .join (resolveEach mode eval items vs) fun ws => checked (.tuple items) (.arr ws)
        else refuse (.tuple items) v
      | _ => refuse (.tuple items) v
  | .sequenceOf item, raw =>
    .ofPlan <| (eval raw).plan.bind fun v =>
      match v with
      | .arr vs =>
        .join (vs.map fun w => item.resolve mode eval w) fun ws =>
          checked (.sequenceOf item) (.arr ws)
      | _ => refuse (.sequenceOf item) v
  | .record fields, raw =>
    .ofPlan <| (eval raw).plan.bind fun v =>
      match v with
      | .obj object =>
        match mode with
        | .sync => (resolveInPlace mode eval fields object).bind (checked (.record fields))
        | .async =>
          .join (resolveFields mode eval fields object) fun ws =>
            checked (.record fields) (.obj (putBackAll object (Fields.keys fields) ws))
      | _ => refuse (.record fields) v
  | .recordOf item, raw =>
    .ofPlan <| (eval raw).plan.bind fun v =>
      match v with
      | .obj object =>
        .join (object.map fun entry => item.resolve mode eval entry.2) fun ws =>
          checked (.recordOf item) (.obj ((Fields.keys object).zip ws))
      | _ => refuse (.recordOf item) v
  | .single t, raw => .ofPlan ((eval raw).plan.bind (checked (.single t)))
  | .oneOf ts, raw => .ofPlan ((eval raw).plan.bind (checked (.oneOf ts)))
  | .oneValueOf options, raw => .ofPlan ((eval raw).plan.bind (checked (.oneValueOf options)))

/-- The calls by which arguments become values of shapes, pair by pair. -/
def resolveEach (mode : Mode) (eval : Json → Call) : List TypeSpec → List Json → List Call
  | t :: ts, raw :: raws => t.resolve mode eval raw :: resolveEach mode eval ts raws
  | _, _ => []

/-- The calls by which the declared fields of an object become values of their shapes. -/
def resolveFields (mode : Mode) (eval : Json → Call) :
    List (String × TypeSpec) → Fields Json → List Call
  | [], _ => []
  | (key, t) :: ts, object =>
    t.resolve mode eval (Fields.getD key .null object) :: resolveFields mode eval ts object

/-- Resolves the declared fields of an object one after the other. Each is put back before the next
is read, so the object is filled in as it goes. -/
def resolveInPlace (mode : Mode) (eval : Json → Call) :
    List (String × TypeSpec) → Fields Json → Plan
  | [], object => .done (.obj object)
  | (key, t) :: ts, object =>
    (t.resolve mode eval (Fields.getD key .null object)).plan.bind fun v =>
      resolveInPlace mode eval ts (putBack object key v)

end

end SigilExpr.TypeSpec
