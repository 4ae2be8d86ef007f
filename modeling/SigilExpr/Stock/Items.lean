import SigilExpr.Stock.Values

/-!
# Stock handlers for numbers and items

Sums, and the three ways to go through the items of an array with an expression. Each item gets a
scope of its own, in which `$$INDEX` is its index and `$$ARRAY` the array; a reduction also has
`$$ACC`, the result so far. The expression is evaluated on the spot, item by item, and the first
error is the error of the call. A value that is no array has no items.
-/

namespace SigilExpr.Stock

open SigilExpr.Core (param)

/-! ### Sums -/

/-- The whole number that a value is, if it is one of sixty-four bits with sign. -/
def signed? : Json → Option Int
  | .num n => n.toSigned?
  | _ => none

/-- The sum of two values: a whole number if both are and it fits into sixty-four bits with sign,
else a double, for which everything that is no number counts as zero. -/
def add (a b : Json) : Json :=
  match signed? a, signed? b with
  | some x, some y =>
    if -Int.pow 2 63 ≤ x + y ∧ x + y < Int.pow 2 63 then .ofInt (x + y)
    else .ofFloat (a.toFloat + b.toFloat)
  | _, _ => .ofFloat (a.toFloat + b.toFloat)

/-- The sum of the first two parameters. -/
def sum : Handler := fun ps _ => .value (add (param ps 0) (param ps 1))

/-- The values in a container, those of an object in the order of their keys. -/
def contents : Json → List Json
  | .arr items => items
  | .obj fields => Fields.values fields
  | _ => []

/-- The sum of the values in the first parameter. -/
def sumAll : Handler := fun ps _ =>
  .value ((contents (param ps 0)).foldl add (.ofInt 0))

/-! ### Going through items -/

/-- The items of an array. -/
def itemsOf (v : Json) : List Json :=
  v.items?.getD []

/-- The scope of an item. -/
def itemScope (scope : Scope) (array : Json) (index : Nat) (item : Json) : Scope :=
  scope.child item (Fields.ofList [(Scope.indexKey, .ofInt index), (Scope.arrayKey, array)])

/-- The scope of an item in a reduction. -/
def reductionScope (scope : Scope) (array : Json) (index : Nat) (item acc : Json) : Scope :=
  scope.child item
    (Fields.ofList [(Scope.indexKey, .ofInt index), (Scope.arrayKey, array), (Scope.accKey, acc)])

/-- Collects the values of an expression for the items from `index` on; `read` holds those before,
the latest first. -/
def mapFrom (scope : Scope) (array node : Json) (index : Nat) (read : List Json) :
    List Json → Action
  | [] => .value (.arr read.reverse)
  | item :: rest =>
    .evaluate (itemScope scope array index item) node <| Action.orFail fun v =>
      mapFrom scope array node (index + 1) (v :: read) rest

/-- The values of the second parameter for the items of the first. -/
def map : Handler := fun ps ctx =>
  mapFrom ctx.scope (param ps 0) (param ps 1) 0 [] (itemsOf (param ps 0))

/-- Keeps the items from `index` on for which a condition is true; `kept` holds those before, the
latest first. -/
def filterFrom (scope : Scope) (array node : Json) (index : Nat) (kept : List Json) :
    List Json → Action
  | [] => .value (.arr kept.reverse)
  | item :: rest =>
    .evaluateTyped .boolean (itemScope scope array index item) node <| Action.orFail fun v =>
      match v with
      | .bool true => filterFrom scope array node (index + 1) (item :: kept) rest
      | _ => filterFrom scope array node (index + 1) kept rest

/-- The items of the first parameter for which the second is true. -/
def filter : Handler := fun ps ctx =>
  filterFrom ctx.scope (param ps 0) (param ps 1) 0 [] (itemsOf (param ps 0))

/-- Goes through the items from `index` on with the result so far. -/
def reduceFrom (scope : Scope) (array node : Json) (index : Nat) (acc : Json) :
    List Json → Action
  | [] => .value acc
  | item :: rest =>
    .evaluate (reductionScope scope array index item acc) node <| Action.orFail fun v =>
      reduceFrom scope array node (index + 1) v rest

/-- The last value of the second parameter for the items of the first, starting from the third. -/
def reduce : Handler := fun ps ctx =>
  reduceFrom ctx.scope (param ps 0) (param ps 1) 0 (param ps 2) (itemsOf (param ps 0))

/-! ### Hand-written executables -/

/-- The number of ticks that a value stands for: a whole number that is not negative, else none. -/
def ticksOf : Json → Nat
  | .num n => n.toNat?.getD 0
  | _ => 0

/-- Waits for as many ticks as the first argument says, then gives back the second. -/
def delay (args : List Json) (_ : Context) : Performance :=
  { ticks := ticksOf (param args 0), action := .value (param args 1) }

/-- Waits for as many ticks as the first argument says, then evaluates the second. -/
def delayEvaluated (args : List Json) (ctx : Context) : Performance :=
  { ticks := ticksOf (param args 0), action := .continueWith ctx.scope (param args 1) }

/-- Writes its arguments to the log when it is called, and gives back the first. -/
def eager (args : List Json) (_ : Context) : Performance :=
  { onCall := [.arr args], action := .value (param args 0) }

end SigilExpr.Stock
