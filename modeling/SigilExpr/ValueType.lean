import SigilExpr.Json.Basic

/-!
# Types of values

The six kinds that every JSON value falls into, under the names by which type specs refer to them.
-/

namespace SigilExpr

/-- The kind of a value. -/
inductive ValueType where
  /-- The null value. -/
  | null
  /-- Truth values. -/
  | boolean
  /-- Numbers, whole or not. -/
  | number
  /-- Texts. -/
  | string
  /-- Lists of values. -/
  | array
  /-- Values under keys. -/
  | object
deriving DecidableEq, Repr

namespace ValueType

/-- All types. -/
def all : List ValueType := [null, boolean, number, string, array, object]

/-- The name of a type. -/
def name : ValueType → String
  | null => "null"
  | boolean => "boolean"
  | number => "number"
  | string => "string"
  | array => "array"
  | object => "object"

/-- The type with this name. -/
def ofName? (name : String) : Option ValueType :=
  all.find? fun t => t.name == name

/-- The type of a value. -/
def of : Json → ValueType
  | .null => null
  | .bool _ => boolean
  | .num _ => number
  | .str _ => string
  | .arr _ => array
  | .obj _ => object

/-- A type is found under its name. -/
@[simp] theorem ofName?_name (t : ValueType) : ofName? t.name = some t := by
  cases t <;> rfl

/-- What is found under a name has that name. -/
theorem name_of_ofName? {name : String} {t : ValueType} (h : ofName? name = some t) :
    t.name = name := by
  simpa using List.find?_some h

end ValueType

end SigilExpr
