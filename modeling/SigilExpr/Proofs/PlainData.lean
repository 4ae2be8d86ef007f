import SigilExpr.Proofs.Agreement
import SigilExpr.Proofs.Containers
import SigilExpr.Proofs.Flat.Written

/-!
# Resolving plain data

Where no array in an argument is a call (`Registry.IsData`), there is nothing to evaluate, and to
resolve the argument is to check it: it resolves to itself, unchanged, if the spec accepts it. If
not, the error is the mismatch that a reader finds first who goes through the spec and the value
together, each container before its parts and the parts from left to right
(`TypeSpec.firstClash?`). It makes no difference whether the parts are resolved on the spot or side
by side: nothing takes time, so the first mismatch is the one in the first place. The main result is
`Registry.IsData.resolves_as_checked`.

Resolving and checking go down the spec for reasons of their own, so the induction is on what both
have in common, the parts of a container and what is rebuilt from them.
-/

namespace SigilExpr

/-! ### Data -/

/-- No array in the value, at any depth, is headed by the identifier of an interpreter. -/
def Registry.IsData (registry : Registry) (v : Json) : Prop :=
  ∀ id args, (Json.arr (.str id :: args)).PartOf v → registry.contains id = false

namespace Registry.IsData

variable {registry : Registry}

theorem of_partOf {u v : Json} (h : registry.IsData v) (hpart : u.PartOf v) : registry.IsData u :=
  fun id args harr => h id args (harr.trans hpart)

theorem null (registry : Registry) : registry.IsData .null := by
  intro id args h
  cases h

/-- A field of data is data, also if it is absent. -/
theorem getD {object : Fields Json} (h : registry.IsData (.obj object)) (key : String) :
    registry.IsData (Fields.getD key .null object) := by
  rw [Fields.getD]
  cases hget : Fields.get? key object with
  | none => exact null registry
  | some v => exact h.of_partOf (.field (Fields.mem_of_get? hget) (.refl v))

/-- The parts of data are data. -/
theorem of_mem_parts {t : TypeSpec} {v : Json} (h : registry.IsData v) {part : TypeSpec × Json}
    (hm : part ∈ t.parts v) : registry.IsData part.2 := by
  unfold TypeSpec.parts at hm
  split at hm
  · exact h.of_partOf (.item (List.of_mem_zip hm).2 (.refl _))
  · obtain ⟨w, hw, rfl⟩ := List.mem_map.1 hm
    exact h.of_partOf (.item hw (.refl w))
  · obtain ⟨entry, -, rfl⟩ := List.mem_map.1 hm
    exact h.getD entry.1
  · obtain ⟨entry, hentry, rfl⟩ := List.mem_map.1 hm
    exact h.of_partOf (.field hentry (.refl entry.2))
  · cases hm

/-- Data is no call. -/
theorem call?_eq_none {v : Json} (h : registry.IsData v) : registry.call? v = none := by
  unfold call?
  split
  · -- the array is part of itself, so its head is not registered either
    rename_i id args
    have hunknown : registry.contains id = false := h id args (.refl _)
    rw [contains, Fields.contains, Option.isSome_eq_false_iff, Option.isNone_iff_eq_none]
      at hunknown
    rw [get?, hunknown]
    rfl
  · rfl

end Registry.IsData

/-! ### The first clash -/

namespace TypeSpec

mutual

/-- The spec with the value, and all that is within: each container stands before its parts, which
follow from left to right. The fields of objects stand in the order of their keys. -/
def pairs : TypeSpec → Json → List (TypeSpec × Json)
  | .tuple items, .arr vs => (.tuple items, .arr vs) :: pairsEach items vs
  | .sequenceOf item, .arr vs => (.sequenceOf item, .arr vs) :: vs.flatMap fun v => item.pairs v
  | .record fields, .obj object => (.record fields, .obj object) :: pairsFields fields object
  | .recordOf item, .obj object =>
    (.recordOf item, .obj object) :: object.flatMap fun entry => item.pairs entry.2
  | t, v => [(t, v)]

/-- The same of several specs with a value each. -/
def pairsEach : List TypeSpec → List Json → List (TypeSpec × Json)
  | t :: ts, v :: vs => t.pairs v ++ pairsEach ts vs
  | _, _ => []

/-- The same of declared fields; one that is absent counts as null. -/
def pairsFields : List (String × TypeSpec) → Fields Json → List (TypeSpec × Json)
  | [], _ => []
  | (key, t) :: ts, object => t.pairs (Fields.getD key .null object) ++ pairsFields ts object

end

/-- The first spec within a spec whose value does not fit, with that value. -/
def firstClash? (t : TypeSpec) (v : Json) : Option (TypeSpec × Json) :=
  (t.pairs v).find? fun pair => !pair.1.fits pair.2

theorem pairs_eq (t : TypeSpec) (v : Json) :
    t.pairs v = (t, v) :: (t.parts v).flatMap fun part => part.1.pairs part.2 := by
  cases t with
  | tuple items =>
    cases v with
    | arr vs =>
      rw [pairs, parts]
      -- the container itself comes first on both sides
      congr 1
      induction items generalizing vs with
      | nil => rfl
      | cons t ts ih =>
        cases vs with
        | nil => rfl
        | cons v vs => rw [pairsEach, ih, List.zip_cons_cons, List.flatMap_cons]
    | _ => rfl
  | sequenceOf item =>
    cases v with
    | arr vs => rw [pairs, parts, List.flatMap_map]
    | _ => rfl
  | record fields =>
    cases v with
    | obj object =>
      rw [pairs, parts]
      congr 1
      induction fields with
      | nil => rfl
      | cons entry fields ih => rw [pairsFields, ih, List.map_cons, List.flatMap_cons]
    | _ => rfl
  | recordOf item =>
    cases v with
    | obj object => rw [pairs, parts, List.flatMap_map]
    | _ => rfl
  | _ => rfl

/-- The first clash among the parts of a value, taken from left to right. -/
def firstClashAmong? (ps : List (TypeSpec × Json)) : Option (TypeSpec × Json) :=
  ps.findSome? fun part => part.1.firstClash? part.2

/-- The first clash is with the whole value, or else the first among its parts. -/
theorem firstClash?_eq (t : TypeSpec) (v : Json) :
    t.firstClash? v = if t.fits v then firstClashAmong? (t.parts v) else some (t, v) := by
  rw [firstClash?, pairs_eq, List.find?_cons]
  cases t.fits v with
  | false => rfl
  | true =>
    show List.find? _ (List.flatMap _ (t.parts v)) = _
    rw [List.find?_flatMap]
    rfl

/-- **A value is accepted** if nothing in it clashes. -/
theorem firstClash?_eq_none_iff {t : TypeSpec} {v : Json} :
    t.firstClash? v = none ↔ t.accepts v = true := by
  induction t using inductionOnParts generalizing v with
  | step t ih =>
    rw [firstClash?_eq, accepts_eq]
    cases hfits : t.fits v with
    | false => simp
    | true =>
      rw [if_pos rfl, Bool.true_and, List.all_eq_true, firstClashAmong?, List.findSome?_eq_none_iff]
      exact forall₂_congr fun part hm => ih v part hm

end TypeSpec

/-! ### Ending at once -/

/-- The plan is over at once, with this verdict. -/
def Plan.EndsAtOnce (p : Plan) (verdict : Except Halt Json) : Prop :=
  p.Prompt ∧ p.run.verdict = verdict

/-- The call is over at once, with this verdict. -/
def Call.EndsAtOnce (call : Call) (verdict : Except Halt Json) : Prop :=
  call.Prompt ∧ call.body.run.verdict = verdict

namespace Plan.EndsAtOnce

theorem done (v : Json) : (Plan.done v).EndsAtOnce (.ok v) :=
  ⟨Simulation.prompt.done v, rfl⟩

theorem fail (e : EvalError) : (Plan.fail e).EndsAtOnce (.error (.failed e)) :=
  ⟨Simulation.prompt.halt _, rfl⟩

/-- What a plan goes on with is looked at for its own value only. -/
theorem bind {p : Plan} {v : Json} (hp : p.EndsAtOnce (.ok v)) {next : Json → Plan}
    {verdict : Except Halt Json} (hnext : (next v).EndsAtOnce verdict) :
    (p.bind next).EndsAtOnce verdict := by
  constructor
  · intro now turn
    rw [course_bind, run_bind]
    refine (hp.1 now turn).bind fun later w hw => ?_
    -- the plan has no other value than the one it has on the spot
    obtain rfl : v = w := Except.ok.inj (hp.2.symm.trans hw)
    exact hnext.1 now later
  · rw [run_bind, Run.bind, hp.2]
    exact hnext.2

/-- A failure is the end of it. -/
theorem bind_error {p : Plan} {why : Halt} (hp : p.EndsAtOnce (.error why)) (next : Json → Plan) :
    (p.bind next).EndsAtOnce (.error why) := by
  constructor
  · intro now turn
    rw [course_bind, run_bind]
    refine (hp.1 now turn).bind fun later w hw => ?_
    cases hp.2.symm.trans hw
  · rw [run_bind, Run.bind, hp.2]

/-- Whenever the plan is launched it ends at that time. -/
theorem launch {p : Plan} {verdict : Except Halt Json} (h : p.EndsAtOnce verdict) (time : Nat) :
    (p.launch time).settledAt = time ∧ (p.launch time).verdict = verdict := by
  obtain ⟨htime, hverdict, -⟩ := h.1.launchesAs rfl time
  exact ⟨htime, hverdict.trans h.2⟩

end Plan.EndsAtOnce

theorem Call.EndsAtOnce.ofPlan {p : Plan} {verdict : Except Halt Json} (h : p.EndsAtOnce verdict) :
    (Call.ofPlan p).EndsAtOnce verdict :=
  ⟨Simulation.prompt.ofPlan (q := p) h.1, h.2⟩

theorem Call.EndsAtOnce.plan {call : Call} {verdict : Except Halt Json}
    (h : call.EndsAtOnce verdict) : call.plan.EndsAtOnce verdict := by
  refine ⟨Simulation.prompt.made (d := call) h.1, ?_⟩
  rw [Call.plan, Plan.run_emitAll]
  exact h.2

/-! ### Resolving -/

/-- The value, unless there is a clash; then its error. -/
def TypeSpec.unlessClash {α : Type} (a : α) : Option (TypeSpec × Json) → Except Halt α
  | none => .ok a
  | some (t, v) => .error (.failed (.mismatch t v))

namespace TypeSpec

variable {mode : Mode} {eval : Json → Call}

/-- Checking finds the clash with the whole value. -/
theorem checked_endsAtOnce (t : TypeSpec) (v : Json) :
    (checked t v).EndsAtOnce (unlessClash v (if t.accepts v then none else some (t, v))) := by
  rw [checked, check]
  split
  · exact .done v
  · exact .fail _

/-- The parts resolve to themselves, up to the first that does not. -/
theorem verdict_runAll_parts {ps : List (TypeSpec × Json)}
    (h : ∀ part ∈ ps, (resolvePart mode eval part).EndsAtOnce
      (unlessClash part.2 (part.1.firstClash? part.2))) :
    (Plan.runAll (ps.map (resolvePart mode eval))).verdict =
      unlessClash (ps.map Prod.snd) (firstClashAmong? ps) := by
  induction ps with
  | nil => rfl
  | cons part ps ih =>
    obtain ⟨hfirst, hrest⟩ := List.forall_mem_cons.1 h
    have hverdict := hfirst.2
    rw [List.map_cons, firstClashAmong?, List.findSome?_cons]
    -- `runAll` stops at the first part that fails, as `findSome?` does at the first clash
    cases hclash : part.1.firstClash? part.2 with
    | some clash =>
      rw [hclash] at hverdict
      rw [Plan.runAll_cons_of_error hverdict]
      rfl
    | none =>
      rw [hclash] at hverdict
      rw [Plan.runAll_cons_of_ok hverdict, ih hrest, ← firstClashAmong?]
      cases firstClashAmong? ps <;> rfl

/-- A join of calls that are over at once is over at once. -/
theorem join_endsAtOnce {ps : List (TypeSpec × Json)}
    (h : ∀ part ∈ ps, (resolvePart mode eval part).EndsAtOnce
      (unlessClash part.2 (part.1.firstClash? part.2))) {rest : List Json → Plan} {v : Json}
    (hrest : firstClashAmong? ps = none → (rest (ps.map Prod.snd)).EndsAtOnce (.ok v)) :
    (Plan.join (ps.map (resolvePart mode eval)) rest).EndsAtOnce
      (unlessClash v (firstClashAmong? ps)) := by
  have hprompt : List.Forall₂ (fun c _ => c.Prompt) (ps.map (resolvePart mode eval))
      (ps.map (resolvePart mode eval)) := by
    rw [List.forall₂_same]
    intro call hm
    obtain ⟨part, hpart, rfl⟩ := List.mem_map.1 hm
    exact (h part hpart).1
  have hverdict := verdict_runAll_parts h
  constructor
  · refine Simulation.prompt.join (g := rest) hprompt fun vs hvs => ?_
    -- the join only goes on if there is no clash
    rw [hverdict] at hvs
    cases hclash : firstClashAmong? ps with
    | some clash =>
      rw [hclash] at hvs
      cases hvs
    | none =>
      rw [hclash] at hvs
      obtain rfl : ps.map Prod.snd = vs := Except.ok.inj hvs
      exact (hrest hclash).1
  · rw [Plan.run_join, Run.bind, hverdict]
    cases hclash : firstClashAmong? ps with
    | some clash => rfl
    | none => exact (hrest hclash).2

/-- Filling in a record that is data leaves it as it is. -/
theorem resolveInPlace_endsAtOnce {fields : List (String × TypeSpec)} {object : Fields Json}
    (h : ∀ part ∈ (TypeSpec.record fields).parts (.obj object),
      (resolvePart mode eval part).EndsAtOnce (unlessClash part.2 (part.1.firstClash? part.2))) :
    (resolveInPlace mode eval fields object).EndsAtOnce
      (unlessClash (.obj object)
        (firstClashAmong? ((TypeSpec.record fields).parts (.obj object)))) := by
  induction fields with
  | nil => exact .done _
  | cons entry fields ih =>
    obtain ⟨key, t⟩ := entry
    obtain ⟨hfirst, hrest⟩ := List.forall_mem_cons.1 h
    have hread := hfirst.plan
    rw [resolveInPlace]
    rw [parts, List.map_cons, firstClashAmong?, List.findSome?_cons]
    cases hclash : t.firstClash? (Fields.getD key .null object) with
    | some clash =>
      rw [hclash] at hread
      exact hread.bind_error _
    | none =>
      rw [hclash] at hread
      refine hread.bind ?_
      -- the field resolves to itself, so the object is the same for the next one
      rw [putBack_getD]
      exact ih hrest

/-- The parts of a value that fits are put back as they were, and the whole is accepted, or there is
a clash among them. -/
theorem assemble_endsAtOnce {t : TypeSpec} {v : Json} (hfits : t.fits v = true)
    (h : ∀ part ∈ t.parts v, (resolvePart mode eval part).EndsAtOnce
      (unlessClash part.2 (part.1.firstClash? part.2))) :
    (assemble mode eval t v (checked t)).EndsAtOnce (unlessClash v (t.firstClash? v)) := by
  rw [firstClash?_eq, if_pos hfits]
  have hwhole : firstClashAmong? (t.parts v) = none → (checked t v).EndsAtOnce (.ok v) := by
    intro hclash
    have haccepts : t.accepts v = true := by
      rw [← firstClash?_eq_none_iff, firstClash?_eq, if_pos hfits, hclash]
    have hchecked : (checked t v).EndsAtOnce _ := checked_endsAtOnce t v
    rw [if_pos haccepts] at hchecked
    exact hchecked
  unfold assemble
  split
  · -- a record on the spot, whose fields are put back one by one
    have hfilled := resolveInPlace_endsAtOnce h
    rename_i fields object
    cases hclash : firstClashAmong? ((TypeSpec.record fields).parts (.obj object)) with
    | some clash =>
      rw [hclash] at hfilled
      exact hfilled.bind_error _
    | none =>
      rw [hclash] at hfilled
      exact hfilled.bind (hwhole hclash)
  · refine join_endsAtOnce h fun hclash => ?_
    rw [rebuild_parts hfits]
    exact hwhole hclash

/-- **Resolving data is checking it:** it is over at once, with the data itself or with the first
clash in it. All that is asked of the evaluation of nodes is that data evaluates to itself. -/
theorem resolve_endsAtOnce {registry : Registry}
    (heval : ∀ v, registry.IsData v → (eval v).EndsAtOnce (.ok v)) (t : TypeSpec) {raw : Json}
    (hraw : registry.IsData raw) :
    (t.resolve mode eval raw).EndsAtOnce (unlessClash raw (t.firstClash? raw)) := by
  induction t using inductionOnParts generalizing raw with
  | step t ih =>
    by_cases hcontainer : t.isContainer = true
    · -- the argument evaluates to itself, then its parts resolve by induction
      rw [resolve_eq hcontainer]
      refine .ofPlan ((heval raw hraw).plan.bind ?_)
      rw [settle]
      split
      · rename_i hfits
        exact assemble_endsAtOnce hfits fun part hm => ih raw part hm (hraw.of_mem_parts hm)
      · rename_i hfits
        rw [firstClash?_eq, if_neg hfits]
        exact .fail _
    · -- a spec without parts is checked once the argument is evaluated
      have hleaf : ∀ t : TypeSpec,
          t.firstClash? raw = (if t.accepts raw then none else some (t, raw)) →
          (Call.ofPlan ((eval raw).plan.bind (checked t))).EndsAtOnce
            (unlessClash raw (t.firstClash? raw)) := by
        intro t hclash
        rw [hclash]
        exact .ofPlan ((heval raw hraw).plan.bind (checked_endsAtOnce t raw))
      cases t with
      | any delayed =>
        cases delayed with
        | true => exact .ofPlan (.done raw)
        | false => exact heval raw hraw
      | single type => exact hleaf _ (firstClash?_eq _ raw)
      | oneOf types => exact hleaf _ (firstClash?_eq _ raw)
      | oneValueOf options => exact hleaf _ (firstClash?_eq _ raw)
      | _ => exact absurd rfl hcontainer

end TypeSpec

/-! ### Registries -/

/-- With any budget but none, data evaluates to itself. -/
theorem Registry.IsData.evaluator_endsAtOnce {registry : Registry} {v : Json}
    (h : registry.IsData v) (budget : Nat) (mode : Mode) (scope : Scope) :
    (registry.evaluator (budget + 1) mode scope v).EndsAtOnce (.ok v) := by
  rw [evaluator, evaluateWith, h.call?_eq_none]
  have hcall : (Call.ofPlan (.done v)).EndsAtOnce (.ok v) := .ofPlan (.done v)
  exact ⟨(Simulation.prompt_fits registry).arrival (d := .ofPlan (.done v)) v hcall.1, hcall.2⟩

/-- Both resolvers give this verdict: the one on the spot, and the one on a clock at whatever time
it is launched, without waiting. -/
def Registry.ResolvesAtOnce (registry : Registry) (budget : Nat) (scope : Scope) (t : TypeSpec)
    (raw : Json) (verdict : Except Halt Json) : Prop :=
  (registry.planResolveWithin budget t .sync scope raw).run.verdict = verdict ∧
  ∀ time, ((registry.planResolveWithin budget t .async scope raw).launch time).settledAt = time ∧
    ((registry.planResolveWithin budget t .async scope raw).launch time).verdict = verdict

/-- **Resolving an argument without calls is checking it.** In any registry and scope, and within
any budget but none, such as the one that resolvers have (`Registry.budgetFor`), an argument in
which no array is a call resolves to itself, unchanged, if the spec accepts it. If not, the error is
the mismatch of the first spec and value in it that clash, tagged with no identifier. Both modes do
the same. -/
theorem Registry.IsData.resolves_as_checked {registry : Registry} {raw : Json}
    (h : registry.IsData raw) (t : TypeSpec) (scope : Scope) {budget : Nat}
    (hbudget : 0 < budget) :
    (t.accepts raw = true → registry.ResolvesAtOnce budget scope t raw (.ok raw)) ∧
    (t.accepts raw = false → ∃ u v, t.firstClash? raw = some (u, v) ∧
      registry.ResolvesAtOnce budget scope t raw (.error (.failed (.mismatch u v)))) := by
  have hends : ∀ mode, (registry.planResolveWithin budget t mode scope raw).EndsAtOnce
      (TypeSpec.unlessClash raw (t.firstClash? raw)) := by
    intro mode
    cases budget with
    | zero => exact absurd hbudget (Nat.lt_irrefl 0)
    | succ rest =>
      have heval : ∀ v, registry.IsData v →
          (registry.evaluator (rest + 1) mode scope v).EndsAtOnce (.ok v) :=
        fun v hv => hv.evaluator_endsAtOnce rest mode scope
      exact (TypeSpec.resolve_endsAtOnce heval t h).plan
  have hresolves : ∀ {verdict}, TypeSpec.unlessClash raw (t.firstClash? raw) = verdict →
      registry.ResolvesAtOnce budget scope t raw verdict := by
    rintro _ rfl
    exact ⟨(hends .sync).2, (hends .async).launch⟩
  -- what is left is to say in either case which clash there is
  constructor
  · intro haccepts
    refine hresolves ?_
    rw [TypeSpec.firstClash?_eq_none_iff.2 haccepts]
    rfl
  · intro haccepts
    cases hclash : t.firstClash? raw with
    | none => exact absurd (TypeSpec.firstClash?_eq_none_iff.1 hclash) (by simp [haccepts])
    | some clash =>
      refine ⟨clash.1, clash.2, rfl, hresolves ?_⟩
      rw [hclash, TypeSpec.unlessClash]

/-- A record without one of the fields that are declared below, and with an array that looks like a
call. -/
def Stock.plainRecord : Json := .obj [("a", .arr [.str "$nobody", .null])]

private theorem Stock.isData_plainRecord {registry : Registry}
    (h : registry.contains "$nobody" = false) : registry.IsData plainRecord := by
  intro id args hpart
  cases hpart with
  | field hm hpart =>
    obtain ⟨rfl, rfl⟩ := Prod.mk.inj (List.mem_singleton.1 hm)
    cases hpart with
    | refl => exact h
    | item hm hpart =>
      rcases List.mem_pair.1 hm with rfl | rfl
      · cases hpart
      · cases hpart

/-- The field that is absent is the first clash. -/
theorem Stock.resolves_plainRecord :
    ∃ registry, Stock.builder.build = .ok registry ∧
      registry.ResolvesAtOnce (Registry.budgetFor plainRecord) (.root .null)
        (.record [("a", .sequenceOf (.oneOf [.string, .null])), ("b", .boolean)]) plainRecord
        (.error (.failed (.mismatch .boolean .null))) := by
  obtain ⟨registry, hbuild, hunknown⟩ : ∃ registry, Stock.builder.build = .ok registry ∧
      registry.contains "$nobody" = false := ⟨_, rfl, rfl⟩
  refine ⟨registry, hbuild, ?_⟩
  have hdata : registry.IsData plainRecord := isData_plainRecord hunknown
  have hbudget : 0 < Registry.budgetFor plainRecord := by decide
  obtain ⟨u, v, hclash, h⟩ := (Registry.IsData.resolves_as_checked hdata
    (.record [("a", .sequenceOf (.oneOf [.string, .null])), ("b", .boolean)]) (.root .null)
    hbudget).2 rfl
  obtain ⟨rfl, rfl⟩ := Prod.mk.inj (Option.some.inj hclash)
  exact h

end SigilExpr
