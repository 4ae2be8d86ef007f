import SigilExpr.Json.Basic

/-!
# Dot paths

A path such as `items.0.price` leads from a value to a part of it. Its segments are cut at the dots:
on an object a segment is a key, on an array it is an index. The empty path is the value itself, so
it has no segments; every other path has one segment more than it has dots, and some of them may be
empty.
-/

namespace SigilExpr

namespace Path

/-- The texts between the dots, at least one. -/
def split : List Char → List (List Char)
  | [] => [[]]
  | c :: rest =>
    if c = '.' then [] :: split rest
    else
      match split rest with
      | [] => [[c]]
      | segment :: more => (c :: segment) :: more

/-- The segments of a path. -/
def segments (path : List Char) : List (List Char) :=
  if path.isEmpty then [] else split path

/-- The text before the first dot. -/
def head (path : List Char) : List Char :=
  path.takeWhile (· != '.')

/-- The text after the first dot, empty if there is none. -/
def tail (path : List Char) : List Char :=
  (path.dropWhile (· != '.')).drop 1

/-- The number that decimal digits spell, at least one of them. -/
def decimal? (digits : List Char) : Option Nat :=
  if digits.isEmpty || digits.any (fun c => !c.isDigit) then none
  else some (digits.foldl (fun n c => 10 * n + (c.toNat - '0'.toNat)) 0)

/-- An index: decimal digits that may follow a plus sign, for a number of 64 bits. -/
def index? (segment : List Char) : Option Nat :=
  let digits := match segment with
    | '+' :: digits => digits
    | digits => digits
  (decimal? digits).filter (· < Nat.pow 2 64)

/-! ### Cutting at dots -/

/-- There is always a segment. -/
theorem split_ne_nil (path : List Char) : split path ≠ [] := by
  cases path with
  | nil => simp [split]
  | cons c rest =>
    unfold split
    split
    · simp
    · split <;> simp

/-- A dot between two texts is where the segments of one end and those of the other begin. -/
theorem split_append_dot (p q : List Char) : split (p ++ '.' :: q) = split p ++ split q := by
  induction p with
  | nil => simp [split]
  | cons c rest ih =>
    by_cases hc : c = '.'
    · simp [split, hc, ih]
    · -- `c` joins the first segment of `rest`, on both sides
      obtain ⟨segment, more, hsplit⟩ := List.exists_cons_of_ne_nil (split_ne_nil rest)
      simp [split, hc, ih, hsplit]

theorem head_append_dot {text : List Char} (hdot : '.' ∉ text) (rest : List Char) :
    head (text ++ '.' :: rest) = text := by
  have hall : ∀ c ∈ text, (c != '.') = true := by
    intro c hc
    simpa using fun he : c = '.' => hdot (he ▸ hc)
  simp [head, List.takeWhile_append_of_pos hall]

theorem tail_append_dot {text : List Char} (hdot : '.' ∉ text) (rest : List Char) :
    tail (text ++ '.' :: rest) = rest := by
  have hall : ∀ c ∈ text, (c != '.') = true := by
    intro c hc
    simpa using fun he : c = '.' => hdot (he ▸ hc)
  simp [tail, List.dropWhile_append_of_pos hall]

end Path

namespace Json

/-- The part of a value that one segment leads to. -/
def child? (segment : List Char) : Json → Option Json
  | .obj fields => Fields.get? (String.ofList segment) fields
  | .arr items => (Path.index? segment).bind fun i => items[i]?
  | _ => none

/-- The part of a value that segments lead to, one after the other. -/
def descend? : List (List Char) → Json → Option Json
  | [], v => some v
  | segment :: rest, v => (v.child? segment).bind (descend? rest)

/-- The part of a value that a path leads to. -/
def at? (path : List Char) (v : Json) : Option Json :=
  v.descend? (Path.segments path)

/-- The part of a value at a path. -/
def getPath? (v : Json) (path : String) : Option Json :=
  v.at? path.toList

@[simp] theorem descend?_nil (v : Json) : v.descend? [] = some v := rfl

@[simp] theorem at?_nil (v : Json) : v.at? [] = some v := rfl

/-- A path that splits in two leads to where its second part leads from where its first part
leads. -/
theorem descend?_append (xs ys : List (List Char)) (v : Json) :
    v.descend? (xs ++ ys) = (v.descend? xs).bind (descend? ys) := by
  induction xs generalizing v with
  | nil => rfl
  | cons x xs ih =>
    simp only [List.cons_append, descend?, Option.bind_assoc]
    congr 1
    funext w
    exact ih w

end Json

end SigilExpr
