import SigilExpr.ValueType

/-!
# Type specs

A `TypeSpec` is the shape that an interpreter declares for one of its parameters: any value, a
value of one or several types, one of some listed values, or a container whose parts have shapes of
their own. `TypeSpec.accepts` says which values have a shape. A field that a record declares and an
object lacks counts as null, and fields that no record declares are left alone.

`Any` comes in two kinds that match the same values. The delayed one asks for the argument as it is
written; every other spec asks for what the argument evaluates to.
-/

namespace SigilExpr

/-- The shape of a parameter. -/
inductive TypeSpec where
  /-- Any value; if `delayed`, the argument itself rather than its value. -/
  | any (delayed : Bool)
  /-- A value of one type. -/
  | single (type : ValueType)
  /-- A value of one of these types. -/
  | oneOf (types : List ValueType)
  /-- One of these values. -/
  | oneValueOf (options : List Json)
  /-- An array with exactly these items. -/
  | tuple (items : List TypeSpec)
  /-- An array of any length whose items are alike. -/
  | sequenceOf (item : TypeSpec)
  /-- An object with these fields, and possibly others. -/
  | record (fields : List (String × TypeSpec))
  /-- An object with any keys whose values are alike. -/
  | recordOf (item : TypeSpec)

namespace TypeSpec

instance : Inhabited TypeSpec := ⟨.any false⟩

/-! ### Common specs -/

/-- A string. -/
def string : TypeSpec := .single .string

/-- A number. -/
def number : TypeSpec := .single .number

/-- A truth value. -/
def boolean : TypeSpec := .single .boolean

/-- The argument as it is written. -/
def delayed : TypeSpec := .any true

/-- The value of the argument, whatever it is. -/
def anything : TypeSpec := .any false

/-! ### Matching -/

mutual

/-- The values that have a shape. -/
def accepts : TypeSpec → Json → Bool
  | .any _, _ => true
  | .single t, v => ValueType.of v == t
  | .oneOf types, v => types.contains (ValueType.of v)
  | .oneValueOf options, v => options.any (·.same v)
  | .tuple items, v =>
    match v with
    | .arr vs => acceptsEach items vs
    | _ => false
  | .sequenceOf item, v =>
    match v with
    | .arr vs => vs.all fun w => item.accepts w
    | _ => false
  | .record fields, v =>
    match v with
    | .obj o => acceptsFields fields o
    | _ => false
  | .recordOf item, v =>
    match v with
    | .obj o => o.all fun entry => item.accepts entry.2
    | _ => false

/-- Items that match specs one by one, as many as there are specs. -/
def acceptsEach : List TypeSpec → List Json → Bool
  | [], [] => true
  | t :: ts, v :: vs => t.accepts v && acceptsEach ts vs
  | _, _ => false

/-- Fields of an object that match the specs declared for them. -/
def acceptsFields : List (String × TypeSpec) → List (String × Json) → Bool
  | [], _ => true
  | (key, t) :: ts, o => t.accepts (Fields.getD key .null o) && acceptsFields ts o

end

/-! ### Equality -/

mutual

/-- Equality of specs: the same constructors, orders and flags, and equal options. -/
def same : TypeSpec → TypeSpec → Bool
  | .any d, .any e => d == e
  | .single t, .single u => t == u
  | .oneOf ts, .oneOf us => ts == us
  | .oneValueOf xs, .oneValueOf ys => Json.sameItems xs ys
  | .tuple ts, .tuple us => sameItems ts us
  | .sequenceOf t, .sequenceOf u => t.same u
  | .record ts, .record us => sameFields ts us
  | .recordOf t, .recordOf u => t.same u
  | _, _ => false

/-- Equality of lists of specs. -/
def sameItems : List TypeSpec → List TypeSpec → Bool
  | [], [] => true
  | t :: ts, u :: us => t.same u && sameItems ts us
  | _, _ => false

/-- Equality of declared fields. -/
def sameFields : List (String × TypeSpec) → List (String × TypeSpec) → Bool
  | [], [] => true
  | (k, t) :: ts, (l, u) :: us => k == l && t.same u && sameFields ts us
  | _, _ => false

end

end TypeSpec

end SigilExpr
