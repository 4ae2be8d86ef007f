import SigilExpr.Json.Path

/-!
# Scopes

What an expression can see of its surroundings: the current value, the loop-local bindings beside
it, and the same for every enclosing scope. A sub-evaluation about another value gets a child scope;
no scope is ever changed.

`Scope.resolve?` reads a path. A path whose text before the first dot does not start with `$$` leads
into the current value. `$$PARENT_SCOPE` goes one scope out and reads the rest of the path there
(the whole value if there is no rest), `$$VALUE` stands for the current value, and any other head
that starts with `$$` is the name of a binding of this very scope. So no binding and no key can take
the place of the two reserved heads, and bindings further out are seen only from further out.
-/

namespace SigilExpr

/-- One link of a chain of scopes. -/
structure Frame where
  /-- The value that paths lead into. -/
  value : Json
  /-- Values under names that start with `$$`. -/
  bindings : Fields Json := []

/-- A chain of scopes, the innermost first. -/
structure Scope where
  /-- The innermost link. -/
  current : Frame
  /-- The links around it. -/
  enclosing : List Frame := []

namespace Scope

/-! ### Reserved names -/

/-- What the heads of reserved paths start with. -/
def sigil : List Char := ['$', '$']

/-- The head that stands for the current value. -/
def valueKey : String := "$$VALUE"

/-- The head that goes one scope out. -/
def parentKey : String := "$$PARENT_SCOPE"

/-- The binding for the index of an item. -/
def indexKey : String := "$$INDEX"

/-- The binding for the container that is gone through. -/
def arrayKey : String := "$$ARRAY"

/-- The binding for the intermediate result of a reduction. -/
def accKey : String := "$$ACC"

/-- The binding for the left side of a comparison. -/
def leftKey : String := "$$LEFT"

/-- The binding for the right side of a comparison. -/
def rightKey : String := "$$RIGHT"

/-! ### Chains -/

/-- A scope with nothing around it. -/
def root (value : Json) : Scope := ⟨⟨value, []⟩, []⟩

/-- The current value. -/
def value (scope : Scope) : Json := scope.current.value

/-- A scope inside this one, with bindings. -/
def child (scope : Scope) (value : Json) (bindings : Fields Json) : Scope :=
  ⟨⟨value, bindings⟩, scope.current :: scope.enclosing⟩

/-- A scope inside this one, without bindings. -/
def withValue (scope : Scope) (value : Json) : Scope :=
  scope.child value []

/-- The binding with this name in the innermost scope. -/
def binding? (scope : Scope) (key : String) : Option Json :=
  Fields.get? key scope.current.bindings

/-! ### Paths -/

/-- Reads a path in a frame and the frames around it. -/
def resolveIn? (frame : Frame) (enclosing : List Frame) (path : List Char) : Option Json :=
  let head := Path.head path
  let rest := Path.tail path
  if !sigil.isPrefixOf head then frame.value.at? path
  else if head = parentKey.toList then
    match enclosing with
    | [] => none
    | outer :: more => if rest.isEmpty then some outer.value else resolveIn? outer more rest
  else if head = valueKey.toList then frame.value.at? rest
  else (Fields.get? (String.ofList head) frame.bindings).bind fun v => v.at? rest

/-- Reads a path. -/
def resolve? (scope : Scope) (path : String) : Option Json :=
  resolveIn? scope.current scope.enclosing path.toList

/-- The empty path is the current value. -/
theorem resolveIn?_nil (frame : Frame) (enclosing : List Frame) :
    resolveIn? frame enclosing [] = some frame.value := by
  unfold resolveIn?
  rfl

/-- A path that goes one scope out is the rest of it, read there. -/
theorem resolveIn?_parent (frame outer : Frame) (more : List Frame) (path : List Char) :
    resolveIn? frame (outer :: more) (parentKey.toList ++ '.' :: path)
      = resolveIn? outer more path := by
  have hdot : '.' ∉ parentKey.toList := by decide
  have hsigil : sigil.isPrefixOf parentKey.toList = true := by decide
  rw [resolveIn?, Path.head_append_dot hdot, Path.tail_append_dot hdot]
  simp only [hsigil, Bool.not_true, if_true, Bool.false_eq_true, if_false]
  split
  · -- no rest: the whole value out there, which is what the empty path reads
    rename_i hempty
    rw [List.isEmpty_iff.1 hempty, resolveIn?_nil]
  · rfl

/-- There is nothing to read outside the outermost scope. -/
theorem resolveIn?_parent_outermost (frame : Frame) (path : List Char) :
    resolveIn? frame [] (parentKey.toList ++ '.' :: path) = none := by
  have hdot : '.' ∉ parentKey.toList := by decide
  have hsigil : sigil.isPrefixOf parentKey.toList = true := by decide
  rw [resolveIn?, Path.head_append_dot hdot]
  simp [hsigil]

end Scope

end SigilExpr
