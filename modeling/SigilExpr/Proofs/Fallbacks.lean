import SigilExpr.Proofs.CoreCalls

/-!
# Paths with other paths to fall back on

The default of a call of `$value` may be such a call again, and so on: a chain of paths with a node
at its end (`Core.fallbacks`). The paths are looked up in order up to the first hit, a stored null
being one, and the node at the end is evaluated only if there is none. The main result,
`Core.fallbacks_find_first`, gives all that happens in the first case (`Core.search`); in the second
case nobody outside can tell the chain from the node.

Each link of the chain is a call of `$value`. Its default is evaluated with what is left of the
budget and in the same scope, so the chain follows by induction on the paths
(`Core.fallbacks_tracks`).
-/

namespace SigilExpr

namespace Core

/-- The expression that reads a path and has a node evaluated if there is nothing to read. -/
def lookup (path : String) (fallback : Json) : Json := .arr [.str valueId, .str path, fallback]

/-- The expression that reads the first of some paths at which there is something to read, and has
a node evaluated if there is none. -/
def fallbacks (paths : List String) (node : Json) : Json := paths.foldr lookup node

/-- What happens while the paths of a chain are looked up, up to the first hit. -/
def search (scope : Scope) (node : Json) : List String → List Event
  | [] => []
  | path :: paths =>
    let fallback := fallbacks paths node
    .visited (lookup path fallback) :: reading scope [.str path, fallback] (some path) fallback ++
      if (scope.resolve? path).isSome then [] else search scope node paths

/-- Nobody outside sees a search. -/
theorem filter_search (scope : Scope) (node : Json) (paths : List String) :
    (search scope node paths).filter Event.isSeen = [] := by
  induction paths with
  | nil => rfl
  | cons path paths ih =>
    rw [search, List.filter_append]
    by_cases hhit : (scope.resolve? path).isSome
    · rw [if_pos hhit]
      rfl
    · rw [if_neg hhit, ih]
      rfl

/-- **What is visited** in a search is a path as it is written, or what is left of the chain where a
path is looked up. -/
theorem visited_of_mem_search {scope : Scope} {node : Json} {paths : List String} {visited : Json}
    (h : .visited visited ∈ search scope node paths) :
    (∃ path ∈ paths, visited = .str path) ∨
      ∃ links, links ≠ [] ∧ links <:+ paths ∧ visited = fallbacks links node := by
  induction paths with
  | nil => exact absurd h List.not_mem_nil
  | cons path paths ih =>
    rw [search, List.mem_append, List.mem_cons] at h
    rcases h with (hlink | hreading) | hrest
    · exact .inr ⟨path :: paths, List.cons_ne_nil path paths, List.suffix_rfl,
        Event.visited.inj hlink⟩
    · -- of the two events of a reading the second is the call of the handler
      rcases List.mem_cons.1 hreading with hpath | hcall
      · exact .inl ⟨path, List.mem_cons_self, Event.visited.inj hpath⟩
      · exact nomatch List.mem_singleton.1 hcall
    · by_cases hhit : (scope.resolve? path).isSome
      · rw [if_pos hhit] at hrest
        exact absurd hrest List.not_mem_nil
      · rw [if_neg hhit] at hrest
        rcases ih hrest with ⟨later, hmem, heq⟩ | ⟨links, hne, hsuffix, heq⟩
        · exact .inl ⟨later, List.mem_cons_of_mem path hmem, heq⟩
        · exact .inr ⟨links, hne, hsuffix.trans (List.suffix_cons path paths), heq⟩

variable {registry : Registry} {keep : Event → Bool}

/-- **The whole chain.** The paths are looked up in order, and only if none is found the node at the
end is evaluated. -/
theorem fallbacks_tracks (h : registry.Declares valueId value) (budget : Nat) (mode : Mode)
    (scope : Scope) (paths : List String) (node : Json) :
    (registry.planWithin (budget + 1 + paths.length) mode scope (fallbacks paths node)).Tracks keep
      False
      (.emitAll (search scope node paths)
        (registry.planUnless (budget + 1) mode scope (paths.findSome? scope.resolve?) node)) := by
  induction paths with
  | nil => exact Plan.tracks_self _
  | cons path paths ih =>
    have hbudget : budget + 1 + (path :: paths).length = budget + paths.length + 2 := by
      rw [List.length_cons]
      omega
    have hargs : value.signature.arguments [.str path, fallbacks paths node] =
        [pathArgument (some path), fallbacks paths node] := rfl
    have hlink : Plan.Tracks keep False _ _ :=
      planWithin_value_tracks (budget + paths.length) mode scope h hargs
    -- one link of the chain reads its path and leaves what is to be done to `planUnless`
    rw [hbudget, search, Plan.emitAll_append, List.findSome?_cons]
    refine hlink.trans (Plan.emitAll_tracks ?_ rfl)
    show Plan.Tracks keep False (registry.planUnless _ mode scope (scope.resolve? path) _) _
    cases scope.resolve? path with
    | some v => exact Plan.tracks_self _
    | none =>
      -- what is left of the budget is what the rest of the chain needs
      rw [Nat.add_right_comm] at ih
      exact ih

/-- **Fallbacks are lazy.** Let the interpreter from the core stand behind the identifier for
values, and take any paths and a node to fall back on, in any scope and in either mode, within any
budget that reaches the node.

* If there is something to read at one of the paths, be it null, the chain comes to what there is at
  the first of these. All that happens are the lookups up to that one: on a clock it takes no time,
  no entry is written to the log and nothing is warned about. Only the paths and what is left of the
  chain at each of them are visited, so nothing of the node is evaluated.
* If not, the chain looks like the node: it comes to the same value or the same error, with the same
  entries in the log and the same warnings, at the same times. -/
theorem fallbacks_find_first (h : registry.Declares valueId value) (budget : Nat) (mode : Mode)
    (scope : Scope) (paths : List String) (node : Json) :
    let chain := registry.planWithin (budget + 1 + paths.length) mode scope (fallbacks paths node)
    (∀ v, paths.findSome? scope.resolve? = some v →
      chain.run = ⟨search scope node paths, .ok v⟩ ∧
      (∀ time, chain.launch time = ⟨(search scope node paths).map (time, ·), time, .ok v⟩) ∧
      chain.LooksLike (.done v) ∧
      ∀ visited, .visited visited ∈ search scope node paths →
        (∃ path ∈ paths, visited = .str path) ∨
          ∃ links, links ≠ [] ∧ links <:+ paths ∧ visited = fallbacks links node) ∧
    (paths.findSome? scope.resolve? = none →
      chain.LooksLike (registry.planWithin (budget + 1) mode scope node)) := by
  intro chain
  have hchain : ∀ keep, chain.Tracks keep False (.emitAll (search scope node paths)
      (registry.planUnless (budget + 1) mode scope (paths.findSome? scope.resolve?) node)) :=
    fun keep => fallbacks_tracks h budget mode scope paths node
  have hseen := (hchain Event.isSeen).trans
    (Plan.emitAll_tracks_self (filter_search scope node paths) _)
  refine ⟨fun v hv => ?_, fun hnone => ?_⟩
  · -- with all events kept nothing is left open
    have hall := hchain fun _ => true
    rw [hv] at hall hseen
    refine ⟨?_, fun time => ?_, .of_tracks hseen, fun visited => visited_of_mem_search⟩
    · have hrun := hall.run False.elim
      rw [Run.filter_all, Run.filter_all, Plan.run_emitAll] at hrun
      rw [hrun, Registry.planUnless, Plan.run_done, Run.after, Run.done, List.append_nil]
    · have hlaunch : (chain.launch time).filter _ = _ := hall.launch False.elim
      rw [Timeline.filter_all, Timeline.filter_all, Plan.launch_emitAll] at hlaunch
      rw [hlaunch, Registry.planUnless, Plan.launch_done, Timeline.after, Timeline.done,
        List.append_nil]
  · -- with unseen events left out the search is gone, and the node remains
    rw [hnone] at hseen
    exact .of_tracks hseen

/-- In development a look-alike of a call is warned about if it is evaluated. It is not where there
is a null at a path before it. -/
theorem fallbacks_find_null :
    ∃ registry, (builder .development).build = .ok registry ∧
      let chain := fun paths => registry.planWithin 3 .async (.root (.obj [("b", .null)]))
        (fallbacks paths (.arr [.str "$missing"]))
      ((chain ["a", "b"]).launch 7).verdict = .ok .null ∧
        (chain ["a", "b"]).run.warnings = [] ∧ (chain ["a", "c"]).run.warnings = ["$missing"] := by
  refine ⟨_, rfl, ?_⟩
  have hbuild : (builder .development).build = .ok _ := rfl
  have hvalue := (hasCore_of_build hbuild).value
  have hhit := (fallbacks_find_first hvalue 0 .async (.root (.obj [("b", .null)])) ["a", "b"]
    (.arr [.str "$missing"])).1 .null rfl
  have hmiss := (fallbacks_find_first hvalue 0 .async (.root (.obj [("b", .null)])) ["a", "c"]
    (.arr [.str "$missing"])).2 rfl
  exact ⟨hhit.2.2.1.verdictAt 7, hhit.2.2.1.warnings, hmiss.warnings⟩

end Core

end SigilExpr
