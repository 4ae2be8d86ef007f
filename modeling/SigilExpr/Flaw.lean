import SigilExpr.Json.Printer

/-!
# Flaws of definitions

The ways in which a type spec, a declaration or a registry can be ill formed, each with its
wording. Flaws are found when specs are read and when registries are built, never while an
expression is evaluated.
-/

namespace SigilExpr

/-- A reason to refuse a type spec, a declaration or a registry. -/
inductive Flaw where
  /-- A list of types has none. -/
  | noTypes
  /-- A list of values has none. -/
  | noOptions
  /-- A list of types holds something that is not a name. -/
  | entryNotName (entry : Json)
  /-- No type has this name. -/
  | unknownType (name : String)
  /-- The form is neither a name nor a list nor an object. -/
  | unrecognized (form : Json)
  /-- An object form has no key or several. -/
  | notOneTag
  /-- The options of `any` are not an object. -/
  | optionsNotObject
  /-- The delay flag is not a truth value. -/
  | flagNotBoolean (flag : Json)
  /-- The values to choose from are not in an array. -/
  | valuesNotArray
  /-- The specs of a tuple are not in an array. -/
  | itemsNotArray
  /-- The specs of a record are not in an object. -/
  | fieldsNotObject
  /-- No object form has this key. -/
  | unknownTag (tag : String)
  /-- The default position is not a position of a parameter. -/
  | defaultOutOfRange (position : Nat) (count : Nat)
  /-- An identifier does not start with the sigil. -/
  | missingSigil (id : String)
  /-- A default position needs an interpreter that is not registered. -/
  | defaultNeeds (id : String)

namespace Flaw

/-- The wording of a flaw. -/
def message : Flaw → String
  | noTypes => "oneOf requires at least one type"
  | noOptions => "enum requires at least one option"
  | entryNotName entry => "oneOf entry must be a type name, got " ++ entry.text
  | unknownType name => "unknown type name `" ++ name ++ "`"
  | unrecognized form => "unrecognized type spec " ++ form.text
  | notOneTag => "tagged type spec must have exactly one key"
  | optionsNotObject => "any expects an options object"
  | flagNotBoolean flag => "delayEvaluation must be a boolean, got " ++ flag.text
  | valuesNotArray => "enum expects an array of options"
  | itemsNotArray => "tuple expects an array of specs"
  | fieldsNotObject => "record expects an object of specs"
  | unknownTag tag => "unknown type spec tag `" ++ tag ++ "`"
  | defaultOutOfRange position count =>
    "default param index " ++ Nat.repr position ++ " out of range for " ++ Nat.repr count
      ++ " params"
  | missingSigil id => "interpreter id `" ++ id ++ "` must start with `$`"
  | defaultNeeds id => "default param substitution requires `" ++ id ++ "` to be registered"

end Flaw

end SigilExpr
