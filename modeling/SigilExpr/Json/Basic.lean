import SigilExpr.Fields
import SigilExpr.Json.Number

/-!
# JSON values

The values that expressions are written in and evaluate to. An object lists its fields with
ascending keys (`Fields`); everything that builds an object keeps to that.

`Json.same` is equality of values: numbers compare as numbers, so the two zeros of a double are
equal while `1` and `1.0` are not.
-/

namespace SigilExpr

/-- A JSON value. -/
inductive Json where
  /-- The null value. -/
  | null
  /-- A truth value. -/
  | bool (value : Bool)
  /-- A number. -/
  | num (value : Number)
  /-- A text. -/
  | str (value : String)
  /-- A list of values. -/
  | arr (items : List Json)
  /-- Values under keys. -/
  | obj (fields : List (String × Json))

namespace Json

instance : Inhabited Json := ⟨.null⟩

/-! ### Equality -/

mutual

/-- Equality of values. -/
def same : Json → Json → Bool
  | .null, .null => true
  | .bool a, .bool b => a == b
  | .num a, .num b => a.same b
  | .str a, .str b => a == b
  | .arr a, .arr b => sameItems a b
  | .obj a, .obj b => sameFields a b
  | _, _ => false

/-- Equality of lists of values, item by item. -/
def sameItems : List Json → List Json → Bool
  | [], [] => true
  | a :: as, b :: bs => a.same b && sameItems as bs
  | _, _ => false

/-- Equality of fields, entry by entry. -/
def sameFields : List (String × Json) → List (String × Json) → Bool
  | [], [] => true
  | (k, a) :: as, (l, b) :: bs => k == l && a.same b && sameFields as bs
  | _, _ => false

end

instance : BEq Json := ⟨same⟩

mutual

theorem same_self : ∀ v : Json, v.same v = true
  | .null => rfl
  | .bool b => by simp [same]
  | .num n => n.same_self
  | .str s => by simp [same]
  | .arr items => sameItems_self items
  | .obj fields => sameFields_self fields

theorem sameItems_self : ∀ items : List Json, sameItems items items = true
  | [] => rfl
  | v :: rest => by simp [sameItems, same_self v, sameItems_self rest]

theorem sameFields_self : ∀ fields : List (String × Json), sameFields fields fields = true
  | [] => rfl
  | (k, v) :: rest => by simp [sameFields, same_self v, sameFields_self rest]

end

/-! ### Parts of a value -/

/-- The value under a key of an object. -/
def field? (key : String) : Json → Option Json
  | .obj fields => Fields.get? key fields
  | _ => none

/-- The items of an array. -/
def items? : Json → Option (List Json)
  | .arr items => some items
  | _ => none

/-- The text of a string. -/
def str? : Json → Option String
  | .str s => some s
  | _ => none

/-- The null value. -/
def isNull : Json → Bool
  | .null => true
  | _ => false

/-- The nearest double of a number, zero for any other value. -/
def toFloat : Json → Float
  | .num n => n.toFloat
  | _ => 0

mutual

/-- The levels of nesting: `0` for scalars and one more than the deepest part for containers. -/
def depth : Json → Nat
  | .arr items => depthOfItems items + 1
  | .obj fields => depthOfFields fields + 1
  | _ => 0

/-- The depth of the deepest item. -/
def depthOfItems : List Json → Nat
  | [] => 0
  | v :: rest => max v.depth (depthOfItems rest)

/-- The depth of the deepest field. -/
def depthOfFields : List (String × Json) → Nat
  | [] => 0
  | (_, v) :: rest => max v.depth (depthOfFields rest)

end

theorem depth_le_depthOfItems {v : Json} {items : List Json} (h : v ∈ items) :
    v.depth ≤ depthOfItems items := by
  induction items with
  | nil => exact nomatch h
  | cons w rest ih =>
    rw [depthOfItems]
    rcases List.mem_cons.1 h with rfl | h
    · exact Nat.le_max_left _ _
    · exact Nat.le_trans (ih h) (Nat.le_max_right _ _)

/-- What stands in an array is nested less deeply. -/
theorem depth_lt_of_mem {v : Json} {items : List Json} (h : v ∈ items) :
    v.depth < (arr items).depth := by
  rw [depth]
  exact Nat.lt_succ_of_le (depth_le_depthOfItems h)

/-! ### Values of other types -/

/-- A double as a value: null unless it is finite. -/
def ofFloat (f : Float) : Json :=
  match Number.ofFloat? f with
  | some n => .num n
  | none => .null

/-- A whole number as a value: null unless it is in range. -/
def ofInt (value : Int) : Json :=
  match Number.ofInt? value with
  | some n => .num n
  | none => .null

/-- An object with these entries. -/
def mkObj (entries : List (String × Json)) : Json :=
  .obj (Fields.ofList entries)

end Json

end SigilExpr
