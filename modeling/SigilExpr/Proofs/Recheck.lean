import SigilExpr.Proofs.Agreement
import SigilExpr.Proofs.Containers
import SigilExpr.Proofs.Flat.Extension
import SigilExpr.Proofs.Termination

/-!
# The check of a container that has been resolved

When the parts of a container have been resolved, the container is put together again and checked as
a whole. This check never rejects anything (`TypeSpec.recheck_never_rejects`): whatever a part is
resolved to has the shape of the part, an absent field that is resolved to null may stay absent, and
fields that are not declared are not looked at. So nothing changes if it is left out in every
container, at any depth of the spec.

`TypeSpec.resolveWith` leaves open what is done with a container that has been put together, and is
nothing but resolving if it is checked (`TypeSpec.resolveWith_checked`).
-/

namespace SigilExpr

namespace TypeSpec

/-! ### Another way to end a container -/

mutual

/-- Resolving an argument, where `close` decides what becomes of a container whose parts have been
resolved and put back. -/
def resolveWith (close : TypeSpec → Json → Plan) (mode : Mode) (eval : Json → Call) :
    TypeSpec → Json → Call
  | .any true, raw => .ofPlan (.done raw)
  | .any false, raw => eval raw
  | .tuple items, raw =>
    .ofPlan <| (eval raw).plan.bind fun v =>
      match v with
      | .arr vs =>
        if vs.length = items.length then
          .join (resolveEachWith close mode eval items vs) fun ws => close (.tuple items) (.arr ws)
        else refuse (.tuple items) v
      | _ => refuse (.tuple items) v
  | .sequenceOf item, raw =>
    .ofPlan <| (eval raw).plan.bind fun v =>
      match v with
      | .arr vs =>
        .join (vs.map fun w => item.resolveWith close mode eval w) fun ws =>
          close (.sequenceOf item) (.arr ws)
      | _ => refuse (.sequenceOf item) v
  | .record fields, raw =>
    .ofPlan <| (eval raw).plan.bind fun v =>
      match v with
      | .obj object =>
        match mode with
        | .sync => (resolveInPlaceWith close mode eval fields object).bind (close (.record fields))
        | .async =>
          .join (resolveFieldsWith close mode eval fields object) fun ws =>
            close (.record fields) (.obj (putBackAll object (Fields.keys fields) ws))
      | _ => refuse (.record fields) v
  | .recordOf item, raw =>
    .ofPlan <| (eval raw).plan.bind fun v =>
      match v with
      | .obj object =>
        .join (object.map fun entry => item.resolveWith close mode eval entry.2) fun ws =>
          close (.recordOf item) (.obj ((Fields.keys object).zip ws))
      | _ => refuse (.recordOf item) v
  | .single t, raw => .ofPlan ((eval raw).plan.bind (checked (.single t)))
  | .oneOf ts, raw => .ofPlan ((eval raw).plan.bind (checked (.oneOf ts)))
  | .oneValueOf options, raw => .ofPlan ((eval raw).plan.bind (checked (.oneValueOf options)))

/-- The same for the items of a tuple. -/
def resolveEachWith (close : TypeSpec → Json → Plan) (mode : Mode) (eval : Json → Call) :
    List TypeSpec → List Json → List Call
  | t :: ts, raw :: raws =>
    t.resolveWith close mode eval raw :: resolveEachWith close mode eval ts raws
  | _, _ => []

/-- The same for the declared fields of a record. -/
def resolveFieldsWith (close : TypeSpec → Json → Plan) (mode : Mode) (eval : Json → Call) :
    List (String × TypeSpec) → Fields Json → List Call
  | [], _ => []
  | (key, t) :: ts, object =>
    t.resolveWith close mode eval (Fields.getD key .null object) ::
      resolveFieldsWith close mode eval ts object

/-- The same for declared fields that are put back one by one. -/
def resolveInPlaceWith (close : TypeSpec → Json → Plan) (mode : Mode) (eval : Json → Call) :
    List (String × TypeSpec) → Fields Json → Plan
  | [], object => .done (.obj object)
  | (key, t) :: ts, object =>
    (t.resolveWith close mode eval (Fields.getD key .null object)).plan.bind fun v =>
      resolveInPlaceWith close mode eval ts (putBack object key v)

end

/-- Resolving an argument without the check of containers that have been put together. Arguments
that are no containers are checked as before, and so is the outer form of containers. -/
def resolveUnchecked : Mode → (Json → Call) → TypeSpec → Json → Call :=
  resolveWith fun _ v => .done v

variable {mode : Mode} {eval : Json → Call}

mutual

/-- With the check, it is resolving as it is. -/
theorem resolveWith_checked : (t : TypeSpec) → ∀ raw,
    t.resolveWith checked mode eval raw = t.resolve mode eval raw
  | .any true, _ => rfl
  | .any false, _ => rfl
  | .tuple items, raw => by
    rw [resolveWith, resolve]
    congr 2
    funext v
    cases v with
    | arr vs => simp only [resolveEachWith_checked items]
    | _ => rfl
  | .sequenceOf item, raw => by
    rw [resolveWith, resolve]
    congr 2
    funext v
    -- only an array gets as far as its items
    cases v with
    | arr vs => simp only [resolveWith_checked item]
    | _ => rfl
  | .record fields, raw => by
    rw [resolveWith, resolve]
    congr 2
    funext v
    cases v with
    | obj object =>
      have hinPlace := resolveInPlaceWith_checked fields object
      have hbeside := resolveFieldsWith_checked fields object
      cases mode with
      | sync => simp only [hinPlace]
      | async => simp only [hbeside]
    | _ => rfl
  | .recordOf item, raw => by
    rw [resolveWith, resolve]
    congr 2
    funext v
    cases v with
    | obj object => simp only [resolveWith_checked item]
    | _ => rfl
  | .single _, _ => rfl
  | .oneOf _, _ => rfl
  | .oneValueOf _, _ => rfl

private theorem resolveEachWith_checked : (ts : List TypeSpec) → ∀ raws,
    resolveEachWith checked mode eval ts raws = resolveEach mode eval ts raws
  | [], _ => rfl
  | _ :: _, [] => rfl
  | t :: ts, raw :: raws => by
    rw [resolveEachWith, resolveEach, resolveWith_checked t, resolveEachWith_checked ts]

private theorem resolveFieldsWith_checked : (ts : List (String × TypeSpec)) → ∀ object,
    resolveFieldsWith checked mode eval ts object = resolveFields mode eval ts object
  | [], _ => rfl
  | (_, t) :: ts, object => by
    rw [resolveFieldsWith, resolveFields, resolveWith_checked t, resolveFieldsWith_checked ts]

private theorem resolveInPlaceWith_checked : (ts : List (String × TypeSpec)) → ∀ object,
    resolveInPlaceWith checked mode eval ts object = resolveInPlace mode eval ts object
  | [], _ => rfl
  | (_, t) :: ts, object => by
    simp only [resolveInPlaceWith, resolveInPlace, resolveWith_checked t,
      resolveInPlaceWith_checked ts]

end

/-! ### The check makes no difference -/

/-- A container is closed in the same way if its check is left out. -/
private theorem checked_same {t : TypeSpec} {v : Json} (h : t.check v = .ok v) :
    (checked t v).Same (.done v) := by
  rw [checked, h]
  exact Plan.tracks_self _

/-- The value of an argument decides. -/
private theorem same_bind (raw : Json) {f g : Json → Plan} (h : ∀ v, (f v).Same (g v)) :
    (Call.ofPlan ((eval raw).plan.bind f)).Same (.ofPlan ((eval raw).plan.bind g)) :=
  Simulation.same.ofPlan (Plan.bind_tracks (Plan.tracks_self _) h)

/-- Leaving out the check of a container whose parts have been resolved. -/
private theorem same_join {t : TypeSpec} (ht : t.declaresOnce = true) {v : Json}
    (hfits : t.fits v = true) {cs ds : List Call}
    (hcs : cs = (t.parts v).map (resolvePart mode eval)) (h : List.Forall₂ Call.Same cs ds) :
    (Plan.join cs fun ws => checked t (t.rebuild v ws)).Same
      (.join ds fun ws => .done (t.rebuild v ws)) := by
  subst hcs
  exact Plan.join_tracks h fun ws hws =>
    checked_same (check_rebuild ht hfits (verdict_runAll_eq_ok_iff.1 hws))

mutual

/-- **The check of a container never makes a difference** once its parts have been resolved. -/
theorem resolve_same_unchecked : (t : TypeSpec) → t.declaresOnce = true → ∀ raw,
    (t.resolve mode eval raw).Same (resolveUnchecked mode eval t raw)
  | .any true, _, raw => ⟨rfl, Plan.tracks_self _⟩
  | .any false, _, raw => ⟨rfl, Plan.tracks_self _⟩
  | .single _, _, raw => ⟨rfl, Plan.tracks_self _⟩
  | .oneOf _, _, raw => ⟨rfl, Plan.tracks_self _⟩
  | .oneValueOf _, _, raw => ⟨rfl, Plan.tracks_self _⟩
  | .tuple items, ht, raw => by
    refine same_bind raw fun v => ?_
    cases v with
    | arr vs =>
      by_cases hlength : vs.length = items.length
      · have hfits : (tuple items).fits (.arr vs) = true := by simpa [fits] using hlength
        simp only [if_pos hlength]
        exact same_join ht hfits (resolveEach_eq items vs) (resolveEach_same_unchecked items ht vs)
      · -- what is refused by its outer form is refused in either case
        simp only [if_neg hlength]
        exact Plan.tracks_self _
    | _ => exact Plan.tracks_self _
  | .sequenceOf item, ht, raw => by
    refine same_bind raw fun v => ?_
    cases v with
    | arr vs =>
      have hfits : (sequenceOf item).fits (.arr vs) = true := rfl
      refine same_join ht hfits (by rw [parts, List.map_map]; rfl) ?_
      rw [List.forall₂_map_left_iff, List.forall₂_map_right_iff]
      exact List.forall₂_same.2 fun w _ => resolve_same_unchecked item ht w
    | _ => exact Plan.tracks_self _
  | .record fields, ht, raw => by
    have hfields : declareOnceFields fields = true := by
      rw [declaresOnce, Bool.and_eq_true] at ht
      exact ht.2
    refine same_bind raw fun v => ?_
    cases v with
    | obj object =>
      have hfits : (record fields).fits (.obj object) = true := rfl
      have hinPlace := resolveInPlace_same_unchecked fields hfields object
      have hbeside := resolveFields_same_unchecked fields hfields object
      cases mode with
      | sync =>
        refine Plan.bind_tracks_of_ok hinPlace fun w hw => ?_
        -- what the record has been filled in with was read from it in the first place
        rw [run_resolveInPlace (nodup_of_declaresOnce ht), resolveFields_eq] at hw
        obtain ⟨ws, hws, rfl⟩ := Run.verdict_map_eq_ok_iff.1 hw
        exact checked_same (check_rebuild ht hfits (verdict_runAll_eq_ok_iff.1 hws))
      | async => exact same_join ht hfits (resolveFields_eq fields object) hbeside
    | _ => exact Plan.tracks_self _
  | .recordOf item, ht, raw => by
    refine same_bind raw fun v => ?_
    cases v with
    | obj object =>
      have hfits : (recordOf item).fits (.obj object) = true := rfl
      refine same_join ht hfits (by rw [parts, List.map_map]; rfl) ?_
      rw [List.forall₂_map_left_iff, List.forall₂_map_right_iff]
      exact List.forall₂_same.2 fun entry _ => resolve_same_unchecked item ht entry.2
    | _ => exact Plan.tracks_self _

private theorem resolveEach_same_unchecked : (ts : List TypeSpec) → declareOnceEach ts = true →
    ∀ raws, List.Forall₂ Call.Same (resolveEach mode eval ts raws)
      (resolveEachWith (fun _ v => .done v) mode eval ts raws)
  | [], _, _ => .nil
  | _ :: _, _, [] => .nil
  | t :: ts, h, raw :: raws => by
    rw [declareOnceEach, Bool.and_eq_true] at h
    exact .cons (resolve_same_unchecked t h.1 raw) (resolveEach_same_unchecked ts h.2 raws)

private theorem resolveFields_same_unchecked : (ts : List (String × TypeSpec)) →
    declareOnceFields ts = true → ∀ object,
    List.Forall₂ Call.Same (resolveFields mode eval ts object)
      (resolveFieldsWith (fun _ v => .done v) mode eval ts object)
  | [], _, _ => .nil
  | (_, t) :: ts, h, object => by
    rw [declareOnceFields, Bool.and_eq_true] at h
    exact .cons (resolve_same_unchecked t h.1 _) (resolveFields_same_unchecked ts h.2 object)

private theorem resolveInPlace_same_unchecked : (ts : List (String × TypeSpec)) →
    declareOnceFields ts = true → ∀ object,
    (resolveInPlace mode eval ts object).Same
      (resolveInPlaceWith (fun _ v => .done v) mode eval ts object)
  | [], _, _ => Plan.tracks_self _
  | (_, t) :: ts, h, object => by
    rw [declareOnceFields, Bool.and_eq_true] at h
    exact Plan.bind_tracks (Simulation.same.made (resolve_same_unchecked t h.1 _)) fun v =>
      resolveInPlace_same_unchecked ts h.2 _

end

/-- **The check of a container that has been resolved never rejects anything.** Take any way to
evaluate nodes, such as that of a registry in some scope and within some budget, and either mode. If
a value has the outer form that a spec asks for, and each of its parts comes to something, then what
is rebuilt from that passes the check of the whole. So an argument resolves to the same without that
check, in all containers of the spec: the same happens, at the same time, with the same value or
error. -/
theorem recheck_never_rejects {t : TypeSpec} (ht : t.declaresOnce = true) (mode : Mode)
    (eval : Json → Call) :
    (∀ v ws, t.fits v = true →
      List.Forall₂ (fun part w =>
        ∃ time, (resolvePart mode eval part).plan.verdictIn mode time = .ok w) (t.parts v) ws →
      t.check (t.rebuild v ws) = .ok (t.rebuild v ws)) ∧
    ∀ raw, (t.resolve mode eval raw).plan.Alike (resolveUnchecked mode eval t raw).plan := by
  constructor
  · intro v ws hfits h
    -- a part has the same value in both modes and at all times, so it is enough to look on the spot
    have hresolved : List.Forall₂ (fun part w =>
        (resolvePart mode eval part).plan.run.verdict = .ok w) (t.parts v) ws := by
      refine h.imp fun part w hw => ?_
      obtain ⟨time, hw⟩ := hw
      exact Plan.verdictIn_eq_ok_iff.1 hw
    exact check_rebuild ht hfits hresolved
  · intro raw
    have hplans : (t.resolve mode eval raw).plan.Same (resolveUnchecked mode eval t raw).plan :=
      Simulation.same.made (resolve_same_unchecked t ht raw)
    exact hplans.alike

end TypeSpec

/-- A record with a pair in it, and a field that may be absent. -/
def Stock.pairSpec : TypeSpec :=
  .record [("a", .tuple [.boolean, .anything]), ("b", .oneOf [.null])]

/-- A pair with the current value, beside a field that is not declared. -/
def Stock.pairNode : Json :=
  .obj [("a", .arr [.arr [.str "$value", .null], .null]), ("c", .null)]

theorem Stock.recheck_pair :
    ∃ registry, Stock.builder.build = .ok registry ∧
      ((TypeSpec.resolveUnchecked .async (registry.evaluator 3 .async (.root (.bool true)))
        pairSpec pairNode).plan.launch 5).verdict =
          .ok (.obj [("a", .arr [.bool true, .null]), ("c", .null)]) := by
  obtain ⟨registry, hbuild, h⟩ : ∃ registry, Stock.builder.build = .ok registry ∧
      (registry.planResolveWithin 3 pairSpec .async (.root (.bool true)) pairNode).run.verdict =
        .ok (.obj [("a", .arr [.bool true, .null]), ("c", .null)]) := ⟨_, rfl, rfl⟩
  refine ⟨registry, hbuild, ?_⟩
  have hsame := (TypeSpec.recheck_never_rejects (by decide : Stock.pairSpec.declaresOnce = true)
    .async (registry.evaluator 3 .async (.root (.bool true)))).2 Stock.pairNode
  -- with the check it can be seen on the spot, where nothing is put off
  rw [← hsame.2 5]
  exact (Plan.verdict_launch_eq_ok_iff _ 5 _).2 h

end SigilExpr
