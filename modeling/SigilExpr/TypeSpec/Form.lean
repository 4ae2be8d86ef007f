import SigilExpr.Flaw
import SigilExpr.TypeSpec.Basic

/-!
# The JSON form of type specs

A spec is written as JSON: `"any"` or the name of a type, an array of names for a choice of types,
and an object with one key for everything else, as in `{"tuple": ["number", "string"]}`.

* `TypeSpec.toJson` writes a spec and `TypeSpec.text` gives the text of what it writes.
* `TypeSpec.ofJson` reads a spec or names the first flaw: the parts of a form are read before the
  form itself is checked, items from left to right and fields in the order of their keys.
* `TypeSpec.validate` finds the flaws of a spec that was put together by other means. Only an empty
  choice is one: nothing can match it.
-/

namespace SigilExpr.TypeSpec

/-! ### Writing -/

mutual

/-- The form of a spec. -/
def toJson : TypeSpec → Json
  | .any false => .str "any"
  | .any true => .obj [("any", .obj [("delayEvaluation", .bool true)])]
  | .single t => .str t.name
  | .oneOf types => .arr (types.map fun t => .str t.name)
  | .oneValueOf options => .obj [("enum", .arr options)]
  | .tuple items => .obj [("tuple", .arr (toJsonEach items))]
  | .sequenceOf item => .obj [("sequenceOf", item.toJson)]
  | .record fields => .obj [("record", .obj (toJsonFields fields))]
  | .recordOf item => .obj [("recordOf", item.toJson)]

/-- The forms of specs. -/
def toJsonEach : List TypeSpec → List Json
  | [] => []
  | t :: ts => t.toJson :: toJsonEach ts

/-- The forms of specs under their keys. -/
def toJsonFields : List (String × TypeSpec) → List (String × Json)
  | [] => []
  | (key, t) :: ts => (key, t.toJson) :: toJsonFields ts

end

/-- The text of the form of a spec. -/
def text (t : TypeSpec) : String :=
  t.toJson.text

/-! ### Validation -/

mutual

/-- The first flaw of a spec, if it has one. -/
def validate : TypeSpec → Except Flaw Unit
  | .oneOf [] => .error .noTypes
  | .oneValueOf [] => .error .noOptions
  | .tuple items => validateEach items
  | .sequenceOf item => item.validate
  | .record fields => validateFields fields
  | .recordOf item => item.validate
  | _ => .ok ()

/-- The first flaw of specs from left to right. -/
def validateEach : List TypeSpec → Except Flaw Unit
  | [] => .ok ()
  | t :: ts => do
    t.validate
    validateEach ts

/-- The first flaw of specs in the order of their keys. -/
def validateFields : List (String × TypeSpec) → Except Flaw Unit
  | [] => .ok ()
  | (_, t) :: ts => do
    t.validate
    validateFields ts

end

/-- The spec itself, if it has no flaw. -/
def validated (t : TypeSpec) : Except Flaw TypeSpec := do
  t.validate
  return t

/-! ### Reading -/

/-- The type with this name. -/
def namedType (name : String) : Except Flaw ValueType :=
  match ValueType.ofName? name with
  | some t => .ok t
  | none => .error (.unknownType name)

/-- The type that an entry of a choice of types names. -/
def choiceEntry : Json → Except Flaw ValueType
  | .str name => namedType name
  | entry => .error (.entryNotName entry)

/-- The spec of the form `{"any": options}`. -/
def ofOptions : Json → Except Flaw TypeSpec
  | .obj options =>
    match Fields.get? "delayEvaluation" options with
    | none => .ok (.any false)
    | some (.bool flag) => .ok (.any flag)
    | some other => .error (.flagNotBoolean other)
  | _ => .error .optionsNotObject

mutual

/-- The spec that a form describes. -/
def ofJson : Json → Except Flaw TypeSpec
  | .str name => if name = "any" then .ok (.any false) else .single <$> namedType name
  | .arr entries => do
    let types ← entries.mapM choiceEntry
    validated (.oneOf types)
  | .obj [(tag, body)] =>
    if tag = "any" then ofOptions body
    else if tag = "enum" then
      match body with
      | .arr options => validated (.oneValueOf options)
      | _ => .error .valuesNotArray
    else if tag = "tuple" then
      match body with
      | .arr forms => do
        let items ← ofJsonEach forms
        validated (.tuple items)
      | _ => .error .itemsNotArray
    else if tag = "sequenceOf" then do
      let item ← ofJson body
      validated (.sequenceOf item)
    else if tag = "record" then
      match body with
      | .obj forms => do
        let fields ← ofJsonFields forms
        validated (.record fields)
      | _ => .error .fieldsNotObject
    else if tag = "recordOf" then do
      let item ← ofJson body
      validated (.recordOf item)
    else .error (.unknownTag tag)
  | .obj _ => .error .notOneTag
  | form => .error (.unrecognized form)

/-- The specs that forms describe. -/
def ofJsonEach : List Json → Except Flaw (List TypeSpec)
  | [] => .ok []
  | form :: forms => do
    let t ← ofJson form
    let ts ← ofJsonEach forms
    return t :: ts

/-- The specs that forms under keys describe. -/
def ofJsonFields : List (String × Json) → Except Flaw (List (String × TypeSpec))
  | [] => .ok []
  | (key, form) :: forms => do
    let t ← ofJson form
    let ts ← ofJsonFields forms
    return (key, t) :: ts

end

end SigilExpr.TypeSpec
