import Mathlib.Data.List.TakeWhile
import SigilExpr.Scope

/-!
# Paths through chains of scopes

To read a path is to look at its head again and again: the text before the first dot says in which
of three places the rest is read, the current value, a binding, or the scope one link out. Only the
last goes on, one link further out each time (`Scope.lap`), so the reading comes to an answer in at
most one lap for each link of the chain (`Scope.afterLaps_eq`).

It follows where a path leads that goes out many links before it does anything else
(`Scope.resolve?_ascending`), and what each kind of head stands for. The main result,
`Scope.resolve?_lexical`, also says what cannot make a difference: the links around for a path that
does not go out, the innermost link for one that does, and the bindings for a path that starts with
one of the two reserved heads.
-/

namespace SigilExpr

/-! ### The first dot of a path -/

namespace Path

/-- A path with its head, the text before the first dot, and the rest after it, which is empty where
there is no dot. -/
inductive Cut : String → String → String → Prop
  | whole {head : String} (h : '.' ∉ head.toList) : Cut head head ""
  | dotted {head : String} (h : '.' ∉ head.toList) (rest : String) :
    Cut (head ++ "." ++ rest) head rest

/-- A text without dots is its own head. -/
theorem head_of_not_mem {text : List Char} (h : '.' ∉ text) : head text = text := by
  refine List.takeWhile_eq_self_iff.2 fun c hc => ?_
  simpa using fun he : c = '.' => h (he ▸ hc)

/-- A text without dots has no rest. -/
theorem tail_of_not_mem {text : List Char} (h : '.' ∉ text) : tail text = [] := by
  have hnone : text.dropWhile (· != '.') = [] := by
    refine List.dropWhile_eq_nil_iff.2 fun c hc => ?_
    simpa using fun he : c = '.' => h (he ▸ hc)
  rw [tail, hnone, List.drop_nil]

namespace Cut

variable {path first rest : String}

theorem head_eq (h : Cut path first rest) : head path.toList = first.toList := by
  cases h with
  | whole hdot => exact head_of_not_mem hdot
  | dotted hdot rest =>
    rw [String.toList_append, String.toList_append, List.append_assoc]
    exact head_append_dot hdot rest.toList

theorem tail_eq (h : Cut path first rest) : tail path.toList = rest.toList := by
  cases h with
  | whole hdot => exact tail_of_not_mem hdot
  | dotted hdot rest =>
    rw [String.toList_append, String.toList_append, List.append_assoc]
    exact tail_append_dot hdot rest.toList

end Cut

/-- Every path can be cut. -/
theorem exists_cut (path : String) : ∃ first rest, Cut path first rest := by
  by_cases hdot : '.' ∈ path.toList
  · -- the first dot is where it is cut
    obtain ⟨first, rest, heq, hfirst⟩ := List.eq_append_cons_of_mem hdot
    have hpath : path = String.ofList first ++ "." ++ String.ofList rest := by
      rw [← String.toList_inj, heq]
      simp
    rw [hpath]
    exact ⟨_, _, .dotted (by simpa using hfirst) _⟩
  · exact ⟨path, "", .whole hdot⟩

end Path

namespace Scope

/-! ### Going out along a chain -/

/-- The scope one link out. -/
def parent? (scope : Scope) : Option Scope :=
  match scope.enclosing with
  | [] => none
  | outer :: more => some ⟨outer, more⟩

/-- The scope so many links out. -/
def ancestor? : Nat → Scope → Option Scope
  | 0, scope => some scope
  | k + 1, scope => scope.parent?.bind (ancestor? k)

/-- The path that goes so many links out before it goes on as the given one. -/
def ascending : Nat → String → String
  | 0, path => path
  | k + 1, path => parentKey ++ "." ++ ascending k path

variable {scope outer : Scope}

theorem length_of_parent? (h : scope.parent? = some outer) :
    scope.enclosing.length = outer.enclosing.length + 1 := by
  obtain ⟨current, enclosing⟩ := scope
  cases enclosing with
  | nil => exact nomatch h
  | cons frame more =>
    obtain rfl := Option.some.inj h
    rfl

/-- There is a scope so many links out as long as there are so many links. -/
theorem isSome_ancestor?_iff (k : Nat) (scope : Scope) :
    (scope.ancestor? k).isSome = true ↔ k ≤ scope.enclosing.length := by
  induction k generalizing scope with
  | zero => simp [ancestor?]
  | succ k ih =>
    obtain ⟨current, enclosing⟩ := scope
    cases enclosing with
    | nil => simp [ancestor?, parent?]
    | cons frame more => simp [ancestor?, parent?, ih]

/-- To go out one link more is to go out from where one is. -/
theorem ancestor?_succ (k : Nat) (scope : Scope) :
    scope.ancestor? (k + 1) = (scope.ancestor? k).bind parent? := by
  induction k generalizing scope with
  | zero =>
    show scope.parent?.bind (ancestor? 0) = scope.parent?
    cases scope.parent? <;> rfl
  | succ k ih =>
    rw [ancestor?, ancestor?, Option.bind_assoc]
    congr 1
    funext outer
    exact ih outer

/-! ### Looking at the head -/

/-- The text starts like the two reserved heads and the names of bindings. -/
def isSpecial (head : String) : Bool := sigil.isPrefixOf head.toList

/-- What one look at the head of a path leads to. -/
inductive Lap where
  /-- The end of the reading: a value, or a miss. -/
  | answer (found : Option Json)
  /-- The rest of the path, to be read in the scope one link out. -/
  | onward (outer : Scope) (rest : String)

/-- One look at the head of a path. -/
def lap (scope : Scope) (path : String) : Lap :=
  let head := String.ofList (Path.head path.toList)
  let rest := String.ofList (Path.tail path.toList)
  if isSpecial head = false then .answer (scope.value.getPath? path)
  else if head = parentKey then
    match scope.parent? with
    | none => .answer none
    | some outer => if rest = "" then .answer (some outer.value) else .onward outer rest
  else if head = valueKey then .answer (scope.value.getPath? rest)
  else .answer ((scope.binding? head).bind fun v => v.getPath? rest)

/-- What the reading of a path comes to in so many laps, if it comes to an end in them. -/
def afterLaps : Nat → Scope → String → Option (Option Json)
  | 0, _, _ => none
  | laps + 1, scope, path =>
    match scope.lap path with
    | .answer found => some found
    | .onward outer rest => outer.afterLaps laps rest

/-- The empty path is the current value. -/
theorem resolve?_empty (scope : Scope) : scope.resolve? "" = some scope.value :=
  resolveIn?_nil scope.current scope.enclosing

/-- **The head of a path decides** where the rest is read. -/
theorem resolve?_of_cut {path head rest : String} (h : Path.Cut path head rest) (scope : Scope) :
    scope.resolve? path =
      if isSpecial head = false then scope.value.getPath? path
      else if head = parentKey then scope.parent?.bind fun outer => outer.resolve? rest
      else if head = valueKey then scope.value.getPath? rest
      else (scope.binding? head).bind fun v => v.getPath? rest := by
  have hhead : Path.head path.toList = parentKey.toList ↔ head = parentKey := by
    rw [h.head_eq, String.toList_inj]
  have hvalue : Path.head path.toList = valueKey.toList ↔ head = valueKey := by
    rw [h.head_eq, String.toList_inj]
  obtain ⟨current, enclosing⟩ := scope
  -- `resolveIn?` recurses on the links and reads characters; what follows is one step of it
  rw [resolve?, resolveIn?.eq_def]
  simp only [hhead, hvalue]
  rw [h.head_eq, h.tail_eq, String.ofList_toList]
  by_cases hspecial : sigil.isPrefixOf head.toList = true
  · simp only [isSpecial, hspecial, Bool.not_true, Bool.false_eq_true, if_false, reduceCtorEq]
    by_cases hparent : head = parentKey
    · simp only [hparent, if_true]
      cases enclosing with
      | nil => rfl
      | cons outer more =>
        -- no rest: the whole value out there, which is what the empty path reads
        cases hrest : rest.toList.isEmpty with
        | true =>
          obtain rfl : rest = "" := by simpa using hrest
          exact (resolve?_empty ⟨outer, more⟩).symm
        | false => rfl
    · simp only [hparent, if_false]
      rfl
  · simp [isSpecial, hspecial, Json.getPath?]
    rfl

/-- A path that goes one link out is the rest of it, read there. -/
theorem resolve?_parent (scope : Scope) (path : String) :
    scope.resolve? (parentKey ++ "." ++ path) =
      scope.parent?.bind fun outer => outer.resolve? path := by
  have hcut : Path.Cut (parentKey ++ "." ++ path) parentKey path := .dotted (by decide) path
  have hspecial : isSpecial parentKey = true := by decide
  rw [resolve?_of_cut hcut, hspecial, if_neg nofun, if_pos rfl]

/-- **Going out** many links before a path is to read the path so many links out. -/
theorem resolve?_ascending (k : Nat) (scope : Scope) (path : String) :
    scope.resolve? (ascending k path) =
      (scope.ancestor? k).bind fun outer => outer.resolve? path := by
  induction k generalizing scope with
  | zero => rfl
  | succ k ih =>
    rw [ascending, resolve?_parent, ancestor?, Option.bind_assoc]
    congr 1
    funext outer
    exact ih outer

/-! ### Laps -/

/-- **One lap** ends the reading with what it comes to, or it goes one link out and leaves the rest
to be read there. -/
theorem resolve?_of_lap (scope : Scope) (path : String) :
    match scope.lap path with
    | .answer found => scope.resolve? path = found
    | .onward outer rest =>
      scope.parent? = some outer ∧ scope.resolve? path = outer.resolve? rest := by
  obtain ⟨head, rest, hcut⟩ := Path.exists_cut path
  simp only [lap, resolve?_of_cut hcut, hcut.head_eq, hcut.tail_eq, String.ofList_toList]
  cases isSpecial head with
  | false => simp only [if_true]
  | true =>
    simp only [reduceCtorEq, if_false]
    by_cases hparent : head = parentKey
    · rw [if_pos hparent, if_pos hparent]
      cases scope.parent? with
      | none => rfl
      | some outer =>
        -- without a rest the lap answers with the value out there, which the empty path reads
        by_cases hrest : rest = ""
        · subst hrest
          exact resolve?_empty outer
        · simp only [hrest, if_false]
          exact ⟨trivial, rfl⟩
    · rw [if_neg hparent, if_neg hparent]
      by_cases hvalue : head = valueKey
      · rw [if_pos hvalue, if_pos hvalue]
      · rw [if_neg hvalue, if_neg hvalue]

/-- **The reading comes to an end** in at most one lap for each link. -/
theorem afterLaps_eq {laps : Nat} (h : scope.enclosing.length < laps) (path : String) :
    scope.afterLaps laps path = some (scope.resolve? path) := by
  induction laps generalizing scope path with
  | zero => exact absurd h (Nat.not_lt_zero _)
  | succ laps ih =>
    have hlap := scope.resolve?_of_lap path
    rw [afterLaps]
    cases hnext : scope.lap path with
    | answer found =>
      rw [hnext] at hlap
      exact congrArg some hlap.symm
    | onward outer rest =>
      -- one link fewer is left for the laps to come
      rw [hnext] at hlap
      obtain ⟨hparent, hread⟩ := hlap
      have hlength := length_of_parent? hparent
      rw [hread]
      exact ih (by omega) rest

/-! ### Reading a path -/

/-- **Paths are read lexically.** In every scope, with as many links around it as there may be:

* a path that goes `k` links out before it goes on is what comes after, read in the scope `k` links
  out, and a miss if there are not so many links;
* the reading of any path comes to an end after at most one lap for each link;
* a path whose head is not special leads into the current value with all of its text, `$$VALUE` with
  the rest of it, `$$PARENT_SCOPE` without a rest is the whole value one link out, and every other
  special head leads into the binding of this name in the innermost link, if there is one;
* whatever the innermost link holds makes no difference to a path that starts with `$$PARENT_SCOPE`,
  and its bindings make none to one that starts with `$$VALUE` or whose head is not special; the
  links around make no difference to any path that does not start with `$$PARENT_SCOPE`. -/
theorem resolve?_lexical (scope : Scope) :
    (∀ k path, scope.resolve? (ascending k path) =
      (scope.ancestor? k).bind fun outer => outer.resolve? path) ∧
    (∀ k, (scope.ancestor? k).isSome = true ↔ k ≤ scope.enclosing.length) ∧
    (∀ laps path, scope.enclosing.length < laps →
      scope.afterLaps laps path = some (scope.resolve? path)) ∧
    ∀ path head rest, Path.Cut path head rest →
      (isSpecial head = false → scope.resolve? path = scope.value.getPath? path) ∧
      (head = valueKey → scope.resolve? path = scope.value.getPath? rest) ∧
      (head = parentKey → rest = "" → scope.resolve? path = scope.parent?.map value) ∧
      (isSpecial head = true → head ≠ parentKey → head ≠ valueKey →
        scope.resolve? path = (scope.binding? head).bind fun v => v.getPath? rest) ∧
      (head = parentKey → ∀ frame, resolve? ⟨frame, scope.enclosing⟩ path = scope.resolve? path) ∧
      (head = valueKey ∨ isSpecial head = false → ∀ bindings,
        resolve? ⟨⟨scope.value, bindings⟩, scope.enclosing⟩ path = scope.resolve? path) ∧
      (head ≠ parentKey → ∀ enclosing,
        resolve? ⟨scope.current, enclosing⟩ path = scope.resolve? path) := by
  refine ⟨fun k path => resolve?_ascending k scope path, fun k => isSome_ancestor?_iff k scope,
    fun laps path h => afterLaps_eq h path, fun path head rest hcut => ?_⟩
  have hvalueKey : isSpecial valueKey = true := by decide
  have hparentKey : isSpecial parentKey = true := by decide
  have hdiffer : valueKey ≠ parentKey := by decide
  -- every claim about a head is one branch of `resolve?_of_cut`
  simp only [resolve?_of_cut hcut]
  refine ⟨?_, ?_, ?_, ?_, ?_, ?_, ?_⟩
  · intro hplain
    rw [if_pos hplain]
  · rintro rfl
    rw [hvalueKey, if_neg nofun, if_neg hdiffer, if_pos rfl]
  · rintro rfl rfl
    rw [hparentKey, if_neg nofun, if_pos rfl]
    cases scope.parent? with
    | none => rfl
    | some outer => exact resolve?_empty outer
  · intro hspecial hparent hvalue
    rw [hspecial, if_neg nofun, if_neg hparent, if_neg hvalue]
  · rintro rfl frame
    rw [hparentKey]
    rfl
  · rintro (rfl | hplain) bindings
    · rw [hvalueKey]
      simp only [hdiffer, if_false]
      rfl
    · rw [if_pos hplain, if_pos hplain]
      rfl
  · intro hparent enclosing
    rw [if_neg hparent, if_neg hparent]
    rfl

end Scope

/-- A value with a key of a reserved name. -/
def Scope.outerLink : Scope := .root (.obj [("$$VALUE", .bool true), ("a", .arr [.null])])

/-- A text with bindings of reserved names. -/
def Scope.innerLink : Scope :=
  outerLink.child (.str "x") [("$$PARENT_SCOPE", .null), ("$$VALUE", .null)]

/-- Neither the key nor the bindings are in the way, and further out than the outer link there is
nothing. -/
theorem Scope.resolve?_innerLink :
    innerLink.resolve? "$$PARENT_SCOPE.$$VALUE.a.0" = some .null ∧
      innerLink.resolve? "$$VALUE" = some (.str "x") ∧
      innerLink.resolve? "$$PARENT_SCOPE.$$PARENT_SCOPE.a" = none := by
  refine ⟨?_, ?_, ?_⟩
  · have hout := (resolve?_lexical innerLink).1 1 "$$VALUE.a.0"
    have hcut : Path.Cut ("$$VALUE" ++ "." ++ "a.0") "$$VALUE" "a.0" := .dotted (by decide) "a.0"
    have hread := ((resolve?_lexical outerLink).2.2.2 _ _ _ hcut).2.1 rfl
    exact hout.trans (hread.trans rfl)
  · have hread := ((resolve?_lexical innerLink).2.2.2 "$$VALUE" "$$VALUE" ""
      (.whole (by decide))).2.1 rfl
    exact hread.trans rfl
  · exact (resolve?_lexical innerLink).1 2 "a"

end SigilExpr
