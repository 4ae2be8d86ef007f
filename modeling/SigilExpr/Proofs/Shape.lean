import SigilExpr.Proofs.Defaults
import SigilExpr.Proofs.Recheck

/-!
# What resolving leaves as it is

A container that has been resolved has the shape of the value that its argument was evaluated to
(`TypeSpec.Filled`): as many items, and the same keys. Every part holds what the part before it was
resolved to, and fields that are not declared hold what they held. A declared field that is absent
stays so, though it is resolved like any other, with null in its place: null is resolved to null or
not at all (`TypeSpec.eq_null_of_resolve`). Hence it makes no difference to anything else whether
such a field is absent or is there with null for a value (`TypeSpec.verdictIn_settle_withNull`).

The main result is `Registry.resolve_keeps_shape`, about both modes.
-/

namespace SigilExpr

/-! ### Shapes -/

/-- A container with each part replaced, where `R` says of a spec what a part may be replaced
with. -/
inductive TypeSpec.Filled (R : TypeSpec → Json → Json → Prop) : TypeSpec → Json → Json → Prop where
  /-- Each item becomes what the spec in its place makes of it. -/
  | tuple {items : List TypeSpec} {vs ws : List Json} (length : vs.length = items.length)
    (each : List.Forall₂ (fun part w => R part.1 part.2 w) (items.zip vs) ws) :
    Filled R (.tuple items) (.arr vs) (.arr ws)
  /-- Each item becomes what the one spec makes of it. -/
  | sequenceOf {item : TypeSpec} {vs ws : List Json} (each : List.Forall₂ (R item) vs ws) :
    Filled R (.sequenceOf item) (.arr vs) (.arr ws)
  /-- The keys stay. A field that is not declared keeps its value, one that is declared and there
  becomes what its spec makes of it, and the spec of one that is absent makes null of null. -/
  | record {fields : List (String × TypeSpec)} {object filled : Fields Json}
    (keys : Fields.keys filled = Fields.keys object)
    (undeclared : ∀ key, key ∉ Fields.keys fields →
      Fields.get? key filled = Fields.get? key object)
    (present : ∀ entry ∈ fields, ∀ v, Fields.get? entry.1 object = some v →
      ∃ w, Fields.get? entry.1 filled = some w ∧ R entry.2 v w)
    (absent : ∀ entry ∈ fields, Fields.get? entry.1 object = none → R entry.2 .null .null) :
    Filled R (.record fields) (.obj object) (.obj filled)
  /-- The keys stay, and the value of each field becomes what the one spec makes of it. -/
  | recordOf {item : TypeSpec} {object filled : Fields Json}
    (each : List.Forall₂ (fun field other => field.1 = other.1 ∧ R item field.2 other.2)
      object filled) :
    Filled R (.recordOf item) (.obj object) (.obj filled)

/-- An object with null under a key; nothing else is changed. -/
def Json.withNull (key : String) : Json → Json
  | .obj object => .obj (Fields.insert key .null object)
  | v => v

namespace TypeSpec

variable {mode : Mode} {eval : Json → Call}

/-! ### Null -/

/-- Null is no container. -/
theorem fits_null {t : TypeSpec} (h : t.isContainer = true) : t.fits .null = false := by
  cases t with
  | tuple _ => rfl
  | sequenceOf _ => rfl
  | record _ => rfl
  | recordOf _ => rfl
  | _ => cases h

/-- A value that passes a check is passed on. -/
theorem eq_of_checked {t : TypeSpec} {v w : Json}
    (h : (checked t v).run.verdict = .ok w) : w = v := by
  rw [checked, check] at h
  split at h
  · exact (Except.ok.inj h).symm
  · cases h

/-- **Null is resolved to null or not at all,** where null evaluates to nothing but itself. -/
theorem eq_null_of_resolve
    (heval : ∀ v, (eval .null).plan.run.verdict = .ok v → v = .null) {t : TypeSpec} {w : Json}
    (h : (t.resolve mode eval .null).plan.run.verdict = .ok w) : w = .null := by
  -- what a spec without parts lets through is what null evaluates to
  have hleaf : ∀ t : TypeSpec,
      (Call.ofPlan ((eval .null).plan.bind (checked t))).plan.run.verdict = .ok w → w = .null := by
    intro t ht
    rw [Call.plan_ofPlan, Plan.run_bind, Run.verdict_bind_eq_ok_iff] at ht
    obtain ⟨v, hv, hw⟩ := ht
    rw [eq_of_checked hw, heval v hv]
  by_cases hcontainer : t.isContainer = true
  · rw [resolve_eq hcontainer, Call.plan_ofPlan, Plan.run_bind, Run.verdict_bind_eq_ok_iff] at h
    obtain ⟨v, hv, hw⟩ := h
    obtain rfl := heval v hv
    rw [settle, fits_null hcontainer] at hw
    cases hw
  · cases t with
    | any delayed =>
      cases delayed with
      | true => exact (Except.ok.inj h).symm
      | false => exact heval w h
    | single type => exact hleaf _ h
    | oneOf types => exact hleaf _ h
    | oneValueOf options => exact hleaf _ h
    | _ => exact absurd rfl hcontainer

/-! ### Fields that stay absent -/

theorem putBack_of_present {object : Fields Json} {key : String} {v : Json}
    (h : Fields.get? key object = some v) (w : Json) :
    putBack object key w = Fields.replace key w object := by
  have hcontains : Fields.contains key object = true := by rw [Fields.contains, h]; rfl
  rw [putBack, Fields.insert, hcontains]
  rfl

theorem putBack_null_of_absent {object : Fields Json} {key : String}
    (h : Fields.get? key object = none) : putBack object key .null = object := by
  rw [putBack, Fields.contains, h]
  rfl

/-- Putting a field back adds no key if an absent field is put back as null. -/
theorem keys_putBack {object : Fields Json} {key : String} {w : Json}
    (h : Fields.get? key object = none → w = .null) :
    Fields.keys (putBack object key w) = Fields.keys object := by
  cases hget : Fields.get? key object with
  | some v => rw [putBack_of_present hget, Fields.keys_replace]
  | none => rw [h hget, putBack_null_of_absent hget]

/-- A field is absent after others have been put back if it was absent before. -/
private theorem get?_eq_none_of_keys {object filled : Fields Json} {key : String}
    (hkeys : Fields.keys filled = Fields.keys object) (h : Fields.get? key filled = none) :
    Fields.get? key object = none := by
  rw [Fields.get?_eq_none_iff] at h ⊢
  rwa [← hkeys]

theorem keys_putBackAll {object : Fields Json} {keys : List String} {ws : List Json}
    (h : List.Forall₂ (fun key w => Fields.get? key object = none → w = .null) keys ws) :
    Fields.keys (putBackAll object keys ws) = Fields.keys object := by
  induction keys generalizing object ws with
  | nil => rfl
  | cons key keys ih =>
    obtain ⟨w, ws, hfirst, hrest, rfl⟩ := List.forall₂_cons_left_iff.1 h
    have hkeys := keys_putBack hfirst
    rw [putBackAll_cons, ih ?_, hkeys]
    exact hrest.imp fun other w hw habsent => hw (get?_eq_none_of_keys hkeys habsent)

/-! ### Filling in -/

section

variable {R : TypeSpec → Json → Json → Prop} (hnull : ∀ t w, R t .null w → w = .null)

include hnull

/-- What comes of absent fields is null. -/
theorem forall₂_null_of_absent {fields : List (String × TypeSpec)} {object : Fields Json}
    {ws : List Json} (h : List.Forall₂ (fun part w => R part.1 part.2 w)
      ((TypeSpec.record fields).parts (.obj object)) ws) :
    List.Forall₂ (fun key w => Fields.get? key object = none → w = .null) (Fields.keys fields)
      ws := by
  rw [parts, List.forall₂_map_left_iff] at h
  rw [Fields.keys, List.forall₂_map_left_iff]
  refine h.imp fun entry w hw habsent => ?_
  rw [Fields.getD, habsent] at hw
  exact hnull _ w hw

/-- **What is rebuilt from parts has their shape,** if null becomes nothing but null. -/
theorem filled_rebuild {t : TypeSpec} (ht : t.declaresOnce = true)
    (hcontainer : t.isContainer = true) {v : Json} (hfits : t.fits v = true) {ws : List Json}
    (h : List.Forall₂ (fun part w => R part.1 part.2 w) (t.parts v) ws) :
    t.Filled R v (t.rebuild v ws) := by
  cases t with
  | tuple items =>
    cases v with
    | arr vs => exact .tuple (by simpa [fits] using hfits) h
    | _ => cases hfits
  | sequenceOf item =>
    cases v with
    | arr vs =>
      rw [parts, List.forall₂_map_left_iff] at h
      exact .sequenceOf h
    | _ => cases hfits
  | record fields =>
    cases v with
    | obj object =>
      have hkeys := keys_putBackAll (forall₂_null_of_absent hnull h)
      rw [parts, List.forall₂_map_left_iff] at h
      have hheld := forall_fields_putBackAll ht object h
      refine .record hkeys (fun key hkey => get?_putBackAll_of_notMem hkey object ws) ?_ ?_
      · intro entry hentry v hv
        have hw := hheld entry hentry
        cases hget : Fields.get? entry.1 (putBackAll object (Fields.keys fields) ws) with
        | none =>
          -- no key is lost
          rw [get?_eq_none_of_keys hkeys hget] at hv
          cases hv
        | some w =>
          rw [Fields.getD, Fields.getD, hv, hget] at hw
          exact ⟨w, rfl, hw⟩
      · intro entry hentry habsent
        have hw := hheld entry hentry
        rw [Fields.getD, habsent] at hw
        have hheldNull := hnull _ _ hw
        rw [hheldNull] at hw
        exact hw
    | _ => cases hfits
  | recordOf item =>
    cases v with
    | obj object =>
      rw [parts, List.forall₂_map_left_iff] at h
      refine .recordOf ?_
      induction h with
      | nil => exact .nil
      | cons hfirst _ ih => exact .cons ⟨rfl, hfirst⟩ (ih rfl)
    | _ => cases hfits
  | _ => cases hcontainer

end

/-! ### A field that is there with null for a value -/

private theorem replace_place_comm {key k : String} (hne : key ≠ k) (v w : Json)
    (object : Fields Json) :
    Fields.replace k w (Fields.place key v object) =
      Fields.place key v (Fields.replace k w object) := by
  induction object with
  | nil => simp [Fields.place, Fields.replace, hne]
  | cons entry rest ih =>
    obtain ⟨l, u⟩ := entry
    by_cases hl : l = k
    · by_cases hlt : key < l
      · simp [Fields.place, Fields.replace, hne, hl, hl ▸ hlt]
      · simp [Fields.place, Fields.replace, hl, hl ▸ hlt]
    · by_cases hlt : key < l
      · simp [Fields.place, Fields.replace, hne, hl, hlt]
      · simp [Fields.place, Fields.replace, hl, hlt, ih]

/-- A field that is absent counts as null anyway. -/
theorem getD_insert_null {object : Fields Json} {key : String}
    (hkey : Fields.get? key object = none) (k : String) :
    Fields.getD k .null (Fields.insert key .null object) = Fields.getD k .null object := by
  by_cases hne : key = k
  · subst hne
    rw [Fields.getD, Fields.getD, Fields.get?_insert_self, hkey]
    rfl
  · rw [Fields.getD, Fields.getD, Fields.get?_insert_of_ne hne]

theorem parts_insert_null {fields : List (String × TypeSpec)} {object : Fields Json} {key : String}
    (hkey : Fields.get? key object = none) :
    (TypeSpec.record fields).parts (.obj (Fields.insert key .null object)) =
      (TypeSpec.record fields).parts (.obj object) := by
  rw [parts, parts]
  exact List.map_congr_left fun entry _ => by rw [getD_insert_null hkey]

/-- To add a field with null for a value and to put another field back may be done in any order. -/
theorem putBack_insert_null {object : Fields Json} {key k : String} {w : Json}
    (hkey : Fields.get? key object = none) (h : Fields.get? k object = none → w = .null) :
    putBack (Fields.insert key .null object) k w =
      Fields.insert key .null (putBack object k w) := by
  by_cases hne : key = k
  · -- the field that is added is put back as it is
    subst hne
    have hread : Fields.getD key .null (Fields.insert key .null object) = .null := by
      rw [getD_insert_null hkey, Fields.getD, hkey]
      rfl
    have hsame := putBack_getD (Fields.insert key .null object) key
    rw [hread] at hsame
    rw [h hkey, hsame, putBack_null_of_absent hkey]
  · have hother : Fields.get? k (Fields.insert key .null object) = Fields.get? k object :=
      Fields.get?_insert_of_ne hne .null object
    cases hget : Fields.get? k object with
    | none =>
      rw [h hget, putBack_null_of_absent hget, putBack_null_of_absent (hother.trans hget)]
    | some v =>
      have hplace : ∀ {object : Fields Json}, Fields.get? key object = none →
          Fields.insert key .null object = Fields.place key .null object := by
        intro object habsent
        rw [Fields.insert, Fields.contains, habsent]
        rfl
      rw [putBack_of_present hget, putBack_of_present (hother.trans hget), hplace hkey,
        hplace ((Fields.get?_replace_of_ne (Ne.symm hne) w object).trans hkey)]
      exact replace_place_comm hne .null w object

theorem putBackAll_insert_null {object : Fields Json} {key : String} {keys : List String}
    {ws : List Json} (hkey : Fields.get? key object = none)
    (h : List.Forall₂ (fun k w => Fields.get? k object = none → w = .null) keys ws) :
    putBackAll (Fields.insert key .null object) keys ws =
      Fields.insert key .null (putBackAll object keys ws) := by
  induction keys generalizing object ws with
  | nil => rfl
  | cons k keys ih =>
    obtain ⟨w, ws, hfirst, hrest, rfl⟩ := List.forall₂_cons_left_iff.1 h
    have hkeys := keys_putBack hfirst
    rw [putBackAll_cons, putBackAll_cons, putBack_insert_null hkey hfirst]
    refine ih ?_ (hrest.imp fun other w hw habsent => hw (get?_eq_none_of_keys hkeys habsent))
    rw [Fields.get?_eq_none_iff] at hkey ⊢
    rwa [hkeys]

/-! ### How a container ends -/

/-- **A container ends with what is rebuilt from its parts,** or like the parts if they come to
nothing. -/
theorem verdictIn_settle {t : TypeSpec} (ht : t.declaresOnce = true) {v : Json}
    (hfits : t.fits v = true) (time : Nat) :
    (t.settle mode eval v).verdictIn mode time =
      (t.rebuild v <$>
        Plan.verdictOfAll ((t.parts v).map (resolvePart mode eval)) mode time) := by
  have hchecked : ∀ {ws}, Plan.verdictOfAll ((t.parts v).map (resolvePart mode eval)) mode
      time = .ok ws → checked t (t.rebuild v ws) = .done (t.rebuild v ws) := by
    intro ws hws
    have hresolved := verdict_runAll_eq_ok_iff.1 (Plan.verdict_runAll_of_all hws)
    rw [checked, check_rebuild ht hfits hresolved]
    rfl
  rw [settle, if_pos hfits]
  cases hparts : Plan.verdictOfAll ((t.parts v).map (resolvePart mode eval)) mode time with
  | ok ws =>
    have hdone := hchecked hparts
    cases mode with
    | sync =>
      have hrun : (Plan.runAll ((t.parts v).map (resolvePart .sync eval))).verdict =
          .ok ws := hparts
      rw [Plan.verdictIn, run_assemble ht, Run.bind, hrun]
      simp only [hdone]
      rfl
    | async =>
      obtain ⟨later, hlater⟩ := Plan.verdictIn_join_of_ok hparts
        fun ws => checked t (t.rebuild v ws)
      rw [assemble_async, hlater, hdone, Plan.verdictIn_done]
      rfl
  | error why =>
    cases mode with
    | sync =>
      have hrun : (Plan.runAll ((t.parts v).map (resolvePart .sync eval))).verdict =
          .error why := hparts
      rw [Plan.verdictIn, run_assemble ht, Run.bind, hrun]
      rfl
    | async =>
      rw [assemble_async, Plan.verdictIn_join_of_error hparts]
      rfl

/-- **Success** means that the value fits and that each part comes to something. -/
theorem exists_of_verdictIn_settle {t : TypeSpec} (ht : t.declaresOnce = true) {v out : Json}
    {time : Nat} (h : (t.settle mode eval v).verdictIn mode time = .ok out) :
    t.fits v = true ∧ ∃ ws, List.Forall₂ (fun part w =>
      (resolvePart mode eval part).plan.run.verdict = .ok w) (t.parts v) ws ∧
        t.rebuild v ws = out := by
  cases hfits : t.fits v with
  | false =>
    rw [settle, hfits, if_neg Bool.false_ne_true, refuse, Plan.fail, Plan.verdictIn_halt] at h
    cases h
  | true =>
    rw [verdictIn_settle ht hfits] at h
    cases hparts : Plan.verdictOfAll ((t.parts v).map (resolvePart mode eval)) mode time with
    | error why =>
      rw [hparts] at h
      cases h
    | ok ws =>
      rw [hparts] at h
      exact ⟨rfl, ws, verdict_runAll_eq_ok_iff.1 (Plan.verdict_runAll_of_all hparts),
        Except.ok.inj h⟩

/-- **A field that is absent may as well be null.** Nothing else depends on it: the record is
refused with the same error, or it is filled in the same way. -/
theorem verdictIn_settle_withNull
    (heval : ∀ v, (eval .null).plan.run.verdict = .ok v → v = .null)
    {fields : List (String × TypeSpec)} (ht : (TypeSpec.record fields).declaresOnce = true)
    {object : Fields Json} {key : String} (hkey : Fields.get? key object = none) (time : Nat) :
    ((TypeSpec.record fields).settle mode eval
        (.obj (Fields.insert key .null object))).verdictIn mode time =
      (Json.withNull key <$>
        ((TypeSpec.record fields).settle mode eval (.obj object)).verdictIn mode time) := by
  -- the parts are the same, so they are resolved to the same
  rw [verdictIn_settle ht rfl, verdictIn_settle ht rfl, parts_insert_null hkey]
  cases hresolved : Plan.verdictOfAll (((TypeSpec.record fields).parts (.obj object)).map
      (resolvePart mode eval)) mode time with
  | error why => rfl
  | ok ws =>
    have heach := verdict_runAll_eq_ok_iff.1 (Plan.verdict_runAll_of_all hresolved)
    have habsent := forall₂_null_of_absent
      (R := fun t v w => (t.resolve mode eval v).plan.run.verdict = .ok w)
      (fun t w hw => eq_null_of_resolve heval hw) heach
    show Except.ok (Json.obj _) = Except.ok (Json.obj _)
    rw [putBackAll_insert_null hkey habsent]

end TypeSpec

/-! ### Registries -/

namespace Registry

/-- The resolver of a spec gives this value, whenever it is asked. -/
def Resolves (registry : Registry) (budget : Nat) (mode : Mode) (scope : Scope) (t : TypeSpec)
    (raw v : Json) : Prop :=
  ∀ time, (registry.planResolveWithin budget t mode scope raw).verdictIn mode time = .ok v

/-- **Resolving keeps the shape of a container,** in either mode, and touches only what is declared.
If an argument resolves to a value, then the argument evaluates to a container, and the value is
that container with each part replaced by what its own resolver gives (`TypeSpec.Filled`). And if of
two arguments, evaluated by the same time, one comes to a record with a field that is absent from
the other, with null under it, then both fail with the same error, or they resolve to records that
differ in no other field. -/
theorem resolve_keeps_shape (registry : Registry) (budget : Nat) (mode : Mode) (scope : Scope)
    {t : TypeSpec} (ht : t.declaresOnce = true) (hcontainer : t.isContainer = true) :
    (∀ raw out time, (registry.planResolveWithin budget t mode scope raw).verdictIn mode time =
        .ok out →
      ∃ v, (∀ later, (registry.planWithin budget mode scope raw).verdictIn mode later = .ok v) ∧
        t.Filled (registry.Resolves budget mode scope) v out) ∧
    ∀ fields, t = .record fields → ∀ object key, Fields.get? key object = none →
      ∀ raw other time,
        (registry.planWithin budget mode scope raw).verdictIn mode time = .ok (.obj object) →
        (registry.planWithin budget mode scope other).verdictIn mode time =
          .ok (.obj (Fields.insert key .null object)) →
        (registry.planWithin budget mode scope other).endIn mode time =
          (registry.planWithin budget mode scope raw).endIn mode time →
        (registry.planResolveWithin budget t mode scope other).verdictIn mode time =
          (Json.withNull key <$>
            (registry.planResolveWithin budget t mode scope raw).verdictIn mode time) := by
  -- to resolve is to evaluate first, and to go on from there
  have hplan : ∀ raw, registry.planResolveWithin budget t mode scope raw =
      (registry.planWithin budget mode scope raw).bind
        (t.settle mode (registry.evaluator budget mode scope)) := by
    intro raw
    rw [planResolveWithin, TypeSpec.resolve_eq hcontainer, Call.plan_ofPlan, planWithin]
  have hnull : ∀ v, (registry.evaluator budget mode scope .null).plan.run.verdict = .ok v →
      v = .null := fun v hv => verdict_evaluator_null hv
  constructor
  · intro raw out time h
    rw [hplan] at h
    cases hvalue : (registry.planWithin budget mode scope raw).verdictIn mode time with
    | error why =>
      rw [Plan.verdictIn_bind_of_error hvalue] at h
      cases h
    | ok v =>
      rw [Plan.verdictIn_bind hvalue] at h
      have hlater : ∀ later, (registry.planWithin budget mode scope raw).verdictIn mode later =
          .ok v := fun later => Plan.verdictIn_eq_ok_iff.2 (Plan.verdictIn_eq_ok_iff.1 hvalue)
      obtain ⟨hfits, ws, hparts, rfl⟩ := TypeSpec.exists_of_verdictIn_settle ht h
      -- what a part comes to once it comes to always
      have hresolves : List.Forall₂ (fun part w =>
          registry.Resolves budget mode scope part.1 part.2 w) (t.parts v) ws :=
        hparts.imp fun part w hw later => Plan.verdictIn_eq_ok_iff.2 hw
      refine ⟨v, hlater, TypeSpec.filled_rebuild ?_ ht hcontainer hfits hresolves⟩
      intro u w hw
      exact TypeSpec.eq_null_of_resolve hnull (Plan.verdictIn_eq_ok_iff.1 (hw 0))
  · rintro fields rfl object key hkey raw other time hraw hother htime
    rw [hplan, hplan, Plan.verdictIn_bind hraw, Plan.verdictIn_bind hother, htime]
    exact TypeSpec.verdictIn_settle_withNull hnull ht hkey _

end Registry

/-- The record with a pair keeps its shape, and may have its absent field as null. -/
theorem Stock.pair_keeps_shape :
    ∃ registry, Stock.builder.build = .ok registry ∧
      pairSpec.Filled (registry.Resolves 3 .async (.root (.bool true))) pairNode
        (.obj [("a", .arr [.bool true, .null]), ("c", .null)]) ∧
      (registry.planResolveWithin 3 pairSpec .async (.root (.bool true))
          (pairNode.withNull "b")).verdictIn .async 5 =
        .ok (.obj [("a", .arr [.bool true, .null]), ("b", .null), ("c", .null)]) := by
  obtain ⟨registry, hbuild, hvalue, hnull, htime, hrun⟩ :
      ∃ registry, Stock.builder.build = .ok registry ∧
        (registry.planWithin 3 .async (.root (.bool true)) pairNode).verdictIn .async 5 =
          .ok pairNode ∧
        (registry.planWithin 3 .async (.root (.bool true)) (pairNode.withNull "b")).verdictIn
          .async 5 = .ok (pairNode.withNull "b") ∧
        (registry.planWithin 3 .async (.root (.bool true)) (pairNode.withNull "b")).endIn .async 5 =
          (registry.planWithin 3 .async (.root (.bool true)) pairNode).endIn .async 5 ∧
        (registry.planResolveWithin 3 pairSpec .async (.root (.bool true)) pairNode).run.verdict =
          .ok (.obj [("a", .arr [.bool true, .null]), ("c", .null)]) := ⟨_, rfl, rfl, rfl, rfl, rfl⟩
  have hresolves := (Plan.verdict_launch_eq_ok_iff _ 5 _).2 hrun
  have hshape := registry.resolve_keeps_shape 3 .async (.root (.bool true))
    (by decide : pairSpec.declaresOnce = true) rfl
  refine ⟨registry, hbuild, ?_, ?_⟩
  · obtain ⟨v, hv, hfilled⟩ := hshape.1 pairNode _ 5 hresolves
    obtain rfl : pairNode = v := Except.ok.inj (hvalue.symm.trans (hv 5))
    exact hfilled
  · have hother := hshape.2 _ rfl _ "b" rfl pairNode (pairNode.withNull "b") 5 hvalue hnull htime
    rw [hother, Plan.verdictIn, hresolves]
    rfl

end SigilExpr
