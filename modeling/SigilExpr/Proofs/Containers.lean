import SigilExpr.Proofs.Backends
import SigilExpr.Proofs.Resolving

/-!
# What all containers have in common

A tuple, a sequence, a record and a record of like fields are checked and resolved in the same three
steps, and differ only in what stands for these:

* the value has to have the outer form that is asked for (`TypeSpec.fits`);
* its parts are taken up one by one, each with the spec that is meant for it (`TypeSpec.parts`);
* the results are put back in the place of the parts (`TypeSpec.rebuild`).

So a value is accepted if it fits and its parts are accepted (`TypeSpec.accepts_eq`), and to resolve
an argument is to evaluate it and to go through the steps (`TypeSpec.resolve_eq`). What has been
rebuilt from accepted parts is accepted (`TypeSpec.accepts_rebuild`). For records this needs that no
field is declared twice, as then it is the later result that counts for both.
-/

namespace SigilExpr.TypeSpec

/-! ### The three steps -/

/-- The spec is one for values with parts. -/
def isContainer : TypeSpec → Bool
  | .tuple _ => true
  | .sequenceOf _ => true
  | .record _ => true
  | .recordOf _ => true
  | _ => false

/-- The value is all right as far as its parts are not concerned: it has the outer form of a
container, or is accepted by a spec without parts. -/
def fits : TypeSpec → Json → Bool
  | .tuple items, v =>
    match v with
    | .arr vs => vs.length == items.length
    | _ => false
  | .sequenceOf _, v =>
    match v with
    | .arr _ => true
    | _ => false
  | .record _, v =>
    match v with
    | .obj _ => true
    | _ => false
  | .recordOf _, v =>
    match v with
    | .obj _ => true
    | _ => false
  | t, v => t.accepts v

/-- The parts of a value, each with its spec. A declared field that is absent counts as null, and
fields that are not declared are no parts. -/
def parts : TypeSpec → Json → List (TypeSpec × Json)
  | .tuple items, .arr vs => items.zip vs
  | .sequenceOf item, .arr vs => vs.map fun v => (item, v)
  | .record fields, .obj object =>
    fields.map fun entry => (entry.2, Fields.getD entry.1 .null object)
  | .recordOf item, .obj object => object.map fun entry => (item, entry.2)
  | _, _ => []

/-- The value with other parts in the place of its own. -/
def rebuild : TypeSpec → Json → List Json → Json
  | .tuple _, _, ws => .arr ws
  | .sequenceOf _, _, ws => .arr ws
  | .record fields, .obj object, ws => .obj (putBackAll object (Fields.keys fields) ws)
  | .recordOf _, .obj object, ws => .obj ((Fields.keys object).zip ws)
  | _, v, _ => v

/-- **Induction on parts.** What holds of a spec if it holds of whatever its values have parts
for holds of every spec. -/
theorem inductionOnParts {motive : TypeSpec → Prop}
    (step : ∀ t : TypeSpec, (∀ v, ∀ part ∈ t.parts v, motive part.1) → motive t) (t : TypeSpec) :
    motive t := by
  induction t with
  | any delayed => exact step _ fun v part h => absurd h List.not_mem_nil
  | single type => exact step _ fun v part h => absurd h List.not_mem_nil
  | oneOf types => exact step _ fun v part h => absurd h List.not_mem_nil
  | oneValueOf options => exact step _ fun v part h => absurd h List.not_mem_nil
  -- a container has parts only in values of its own outer form
  | tuple items ih =>
    refine step _ fun v part h => ?_
    cases v with
    | arr vs => exact ih part.1 (List.of_mem_zip h).1
    | _ => cases h
  | sequenceOf item ih =>
    refine step _ fun v part h => ?_
    cases v with
    | arr vs =>
      obtain ⟨w, -, rfl⟩ := List.mem_map.1 h
      exact ih
    | _ => cases h
  | record fields ih =>
    refine step _ fun v part h => ?_
    cases v with
    | obj object =>
      obtain ⟨entry, hentry, rfl⟩ := List.mem_map.1 h
      exact ih entry hentry
    | _ => cases h
  | recordOf item ih =>
    refine step _ fun v part h => ?_
    cases v with
    | obj object =>
      obtain ⟨entry, -, rfl⟩ := List.mem_map.1 h
      exact ih
    | _ => cases h

/-! ### Checking -/

private theorem acceptsEach_eq {ts : List TypeSpec} {vs : List Json} :
    acceptsEach ts vs =
      (vs.length == ts.length && (ts.zip vs).all fun part => part.1.accepts part.2) := by
  induction ts generalizing vs with
  | nil => cases vs <;> rfl
  | cons t ts ih =>
    cases vs with
    | nil => rfl
    | cons v vs =>
      rw [acceptsEach, ih, List.zip_cons_cons, List.all_cons, Bool.and_left_comm]
      simp

private theorem acceptsFields_eq {fields : List (String × TypeSpec)} {object : Fields Json} :
    acceptsFields fields object =
      fields.all fun entry => entry.2.accepts (Fields.getD entry.1 .null object) := by
  induction fields with
  | nil => rfl
  | cons entry fields ih => rw [acceptsFields, ih, List.all_cons]

/-- **A value is accepted** if it fits and its parts are accepted. -/
theorem accepts_eq (t : TypeSpec) (v : Json) :
    t.accepts v = (t.fits v && (t.parts v).all fun part => part.1.accepts part.2) := by
  cases t with
  | tuple items =>
    cases v with
    -- the length is checked item by item in the one, and beforehand in the other
    | arr vs => rw [accepts, acceptsEach_eq]; rfl
    | _ => rfl
  | sequenceOf item =>
    cases v with
    | arr vs => simp [accepts, fits, parts, List.all_map, Function.comp_def]
    | _ => rfl
  | record fields =>
    cases v with
    | obj object =>
      rw [accepts, acceptsFields_eq]
      simp [fits, parts, List.all_map, Function.comp_def]
    | _ => rfl
  | recordOf item =>
    cases v with
    | obj object => simp [accepts, fits, parts, List.all_map, Function.comp_def]
    | _ => rfl
  | _ => simp [fits, parts]

/-! ### Resolving -/

variable {mode : Mode} {eval : Json → Call}

/-- The call by which a part becomes a value of its shape. -/
def resolvePart (mode : Mode) (eval : Json → Call) (part : TypeSpec × Json) : Call :=
  part.1.resolve mode eval part.2

/-- Resolves the parts of a value that fits, and goes on with the value rebuilt. The fields of a
record are put back one by one if the parts are resolved on the spot. -/
def assemble (mode : Mode) (eval : Json → Call) (t : TypeSpec) (v : Json)
    (next : Json → Plan) : Plan :=
  match t, v, mode with
  | .record fields, .obj object, .sync =>
    (resolveInPlace .sync eval fields object).bind next
  | t, v, mode =>
    .join ((t.parts v).map (resolvePart mode eval)) fun ws => next (t.rebuild v ws)

/-- What is done with the value of an argument. -/
def settle (mode : Mode) (eval : Json → Call) (t : TypeSpec) (v : Json) : Plan :=
  if t.fits v then assemble mode eval t v (checked t) else refuse t v

theorem resolveEach_eq (ts : List TypeSpec) (vs : List Json) :
    resolveEach mode eval ts vs = (ts.zip vs).map (resolvePart mode eval) := by
  induction ts generalizing vs with
  | nil => rfl
  | cons t ts ih =>
    cases vs with
    | nil => rfl
    | cons v vs => rw [resolveEach, ih, List.zip_cons_cons, List.map_cons, resolvePart]

theorem resolveFields_eq (fields : List (String × TypeSpec)) (object : Fields Json) :
    resolveFields mode eval fields object =
      ((TypeSpec.record fields).parts (.obj object)).map (resolvePart mode eval) := by
  induction fields with
  | nil => rfl
  | cons entry fields ih => rw [resolveFields, ih]; rfl

/-- **To resolve an argument to a container** is to evaluate it and to go through the steps. -/
theorem resolve_eq {t : TypeSpec} (h : t.isContainer = true) (raw : Json) :
    t.resolve mode eval raw = .ofPlan ((eval raw).plan.bind (t.settle mode eval)) := by
  cases t with
  | tuple items =>
    rw [resolve]
    congr 2
    funext v
    cases v with
    | arr vs =>
      simp only [settle, fits, beq_iff_eq]
      rw [resolveEach_eq]
      rfl
    | _ => rfl
  | sequenceOf item =>
    rw [resolve]
    congr 2
    funext v
    cases v with
    | arr vs =>
      show Plan.join (vs.map _) _ = Plan.join ((vs.map _).map _) _
      rw [List.map_map]
      rfl
    | _ => rfl
  | record fields =>
    rw [resolve]
    congr 2
    funext v
    cases v with
    | obj object =>
      -- the two modes go about a record in different ways
      cases mode with
      | sync => rfl
      | async =>
        simp only [settle, fits]
        rw [resolveFields_eq]
        rfl
    | _ => rfl
  | recordOf item =>
    rw [resolve]
    congr 2
    funext v
    cases v with
    | obj object =>
      show Plan.join (object.map _) _ = Plan.join ((object.map _).map _) _
      rw [List.map_map]
      rfl
    | _ => rfl
  | _ => cases h

/-! ### Putting parts back -/

/-- A field that is put back as it was read changes nothing. -/
theorem putBack_getD (object : Fields Json) (key : String) :
    putBack object key (Fields.getD key .null object) = object := by
  have hreplace : ∀ {object : Fields Json} {v : Json}, Fields.get? key object = some v →
      Fields.replace key v object = object := by
    intro object v h
    induction object with
    | nil => rfl
    | cons entry rest ih =>
      obtain ⟨k, w⟩ := entry
      rw [Fields.get?_cons] at h
      rw [Fields.replace]
      split at h
      · rename_i hk
        rw [if_pos hk, Option.some.inj h]
      · rename_i hk
        rw [if_neg hk, ih h]
  rw [putBack, Fields.contains, Fields.getD]
  cases hget : Fields.get? key object with
  -- an absent field is read as null, and null is not put back under a new key
  | none => rfl
  | some v =>
    show Fields.insert key v object = object
    rw [Fields.insert, Fields.contains, hget]
    exact hreplace hget

theorem putBackAll_cons (object : Fields Json) (key : String) (keys : List String) (w : Json)
    (ws : List Json) :
    putBackAll object (key :: keys) (w :: ws) = putBackAll (putBack object key w) keys ws := rfl

theorem putBackAll_getD (object : Fields Json) (keys : List String) :
    putBackAll object keys (keys.map fun key => Fields.getD key .null object) = object := by
  induction keys with
  | nil => rfl
  | cons key keys ih => rw [List.map_cons, putBackAll_cons, putBack_getD, ih]

/-- **Nothing changes** if the parts of a value are put back as they are. -/
theorem rebuild_parts {t : TypeSpec} {v : Json} (h : t.fits v = true) :
    t.rebuild v ((t.parts v).map Prod.snd) = v := by
  cases t with
  | tuple items =>
    cases v with
    | arr vs =>
      have hlength : vs.length = items.length := by simpa [fits] using h
      rw [parts, rebuild, List.map_snd_zip (Nat.le_of_eq hlength)]
    | _ => cases h
  | sequenceOf item =>
    cases v with
    | arr vs => simp [parts, rebuild, Function.comp_def]
    | _ => cases h
  | record fields =>
    cases v with
    | obj object =>
      rw [parts, rebuild, List.map_map]
      have hkeys := putBackAll_getD object (Fields.keys fields)
      rw [Fields.keys, List.map_map] at hkeys
      exact congrArg Json.obj hkeys
    | _ => cases h
  | recordOf item =>
    cases v with
    | obj object =>
      rw [parts, rebuild, List.map_map, Fields.keys, List.zip_map']
      exact congrArg Json.obj (List.map_id object)
    | _ => cases h
  | _ => rfl

/-- A field that was put back is there, or is null and stays absent. -/
theorem getD_putBack_self (object : Fields Json) (key : String) (w : Json) :
    Fields.getD key .null (putBack object key w) = w := by
  rw [putBack]
  split
  · rw [Fields.getD, Fields.get?_insert_self]
    rfl
  · -- nothing was put back, which only happens to a null
    rename_i h
    obtain ⟨habsent, hnull⟩ : Fields.contains key object = false ∧ w.isNull = true := by
      simpa using h
    have hget : Fields.get? key object = none := by simpa [Fields.contains] using habsent
    rw [Fields.getD, hget]
    cases w with
    | null => rfl
    | _ => cases hnull

/-- Fields under other keys are left alone. -/
theorem get?_putBackAll_of_notMem {key : String} {keys : List String} (h : key ∉ keys)
    (object : Fields Json) (ws : List Json) :
    Fields.get? key (putBackAll object keys ws) = Fields.get? key object := by
  induction keys generalizing object ws with
  | nil => rfl
  | cons k keys ih =>
    rw [List.mem_cons, not_or] at h
    cases ws with
    | nil => rfl
    | cons w ws => rw [putBackAll_cons, ih h.2, get?_putBack_of_ne (Ne.symm h.1)]

/-- **Each declared field holds what was put back for it,** if none is declared twice. -/
theorem map_getD_putBackAll {keys : List String} (h : keys.Nodup) (object : Fields Json)
    {ws : List Json} (hlength : ws.length = keys.length) :
    (keys.map fun key => Fields.getD key .null (putBackAll object keys ws)) = ws := by
  induction keys generalizing object ws with
  | nil => exact (List.eq_nil_of_length_eq_zero hlength).symm
  | cons key keys ih =>
    cases ws with
    | nil => cases hlength
    | cons w ws =>
      obtain ⟨hnew, hrest⟩ := List.nodup_cons.1 h
      -- the fields that are put back later have other keys
      rw [List.map_cons, putBackAll_cons, ih hrest _ (Nat.succ.inj hlength), Fields.getD,
        get?_putBackAll_of_notMem hnew, ← Fields.getD, getD_putBack_self]

theorem nodup_of_declaresOnce {fields : List (String × TypeSpec)}
    (h : (TypeSpec.record fields).declaresOnce = true) : (Fields.keys fields).Nodup := by
  rw [declaresOnce, Bool.and_eq_true, decide_eq_true_eq] at h
  exact h.1

/-- What is true of each declared field and what was put back for it is true of each declared field
and what it holds then. -/
theorem forall_fields_putBackAll {fields : List (String × TypeSpec)}
    (ht : (TypeSpec.record fields).declaresOnce = true) (object : Fields Json)
    {P : String × TypeSpec → Json → Prop} {ws : List Json} (h : List.Forall₂ P fields ws) :
    ∀ entry ∈ fields,
      P entry (Fields.getD entry.1 .null (putBackAll object (Fields.keys fields) ws)) := by
  have hlength : ws.length = (Fields.keys fields).length := by
    rw [Fields.keys, List.length_map, h.length_eq]
  have hheld := map_getD_putBackAll (nodup_of_declaresOnce ht) object hlength
  generalize putBackAll object (Fields.keys fields) ws = filled at hheld ⊢
  -- what was put back for the declared fields is what they hold now
  subst hheld
  rw [Fields.keys, List.map_map, List.forall₂_map_right_iff, List.forall₂_same] at h
  exact h

/-- **What is rebuilt from accepted parts is accepted.** -/
theorem accepts_rebuild {t : TypeSpec} (ht : t.declaresOnce = true) {v : Json}
    (hfits : t.fits v = true) {ws : List Json}
    (h : List.Forall₂ (fun part w => part.1.accepts w = true) (t.parts v) ws) :
    t.accepts (t.rebuild v ws) = true := by
  cases t with
  | tuple items =>
    cases v with
    | arr vs =>
      have hvs : vs.length = items.length := by simpa [fits] using hfits
      have hitems : List.Forall₂ (fun t w => t.accepts w = true) ((items.zip vs).map Prod.fst) ws :=
        List.forall₂_map_left_iff.2 h
      rw [List.map_fst_zip (Nat.le_of_eq hvs.symm), List.forall₂_iff_zip] at hitems
      rw [rebuild, accepts, acceptsEach_eq, Bool.and_eq_true, beq_iff_eq, List.all_eq_true]
      exact ⟨hitems.1.symm, fun part hm => hitems.2 hm⟩
    | _ => cases hfits
  | sequenceOf item =>
    cases v with
    | arr vs =>
      rw [parts, List.forall₂_map_left_iff] at h
      rw [rebuild, accepts, List.all_eq_true]
      intro w hw
      obtain ⟨v, -, haccepts⟩ := h.exists_left_of_mem hw
      exact haccepts
    | _ => cases hfits
  | record fields =>
    cases v with
    | obj object =>
      rw [parts, List.forall₂_map_left_iff] at h
      rw [rebuild, accepts, acceptsFields_eq, List.all_eq_true]
      exact forall_fields_putBackAll ht object h
    | _ => cases hfits
  | recordOf item =>
    cases v with
    | obj object =>
      rw [parts, List.forall₂_map_left_iff] at h
      rw [rebuild, accepts, List.all_eq_true]
      intro entry hentry
      obtain ⟨w, -, haccepts⟩ := h.exists_left_of_mem (List.of_mem_zip hentry).2
      exact haccepts
    | _ => cases hfits
  | _ => exact hfits

/-- Side by side all parts are there before any of them is put back. -/
theorem assemble_async (t : TypeSpec) (v : Json) (next : Json → Plan) :
    t.assemble .async eval v next =
      .join ((t.parts v).map (resolvePart .async eval)) fun ws => next (t.rebuild v ws) := by
  unfold assemble
  split
  · rename_i hmode
    cases hmode
  · rfl

/-- On the spot it makes no difference when the parts are put back. -/
theorem run_assemble {t : TypeSpec} (ht : t.declaresOnce = true) (v : Json)
    (next : Json → Plan) :
    (t.assemble mode eval v next).run =
      (Plan.runAll ((t.parts v).map (resolvePart mode eval))).bind fun ws =>
        (next (t.rebuild v ws)).run := by
  unfold assemble
  split
  · -- the keys are distinct, so no field is read after another was put back in its place
    rename_i fields object
    rw [Plan.run_bind, run_resolveInPlace (nodup_of_declaresOnce ht), Run.bind_map,
      resolveFields_eq]
    rfl
  · rw [Plan.run_join]

/-- Parts come to something together if each of them comes to something. -/
theorem verdict_runAll_eq_ok_iff {ps : List (TypeSpec × Json)} {ws : List Json} :
    (Plan.runAll (ps.map (resolvePart mode eval))).verdict = .ok ws ↔
      List.Forall₂ (fun part w => (resolvePart mode eval part).plan.run.verdict = .ok w) ps ws := by
  rw [Plan.verdict_runAll_eq_ok_iff, List.forall₂_map_left_iff]
  simp only [Call.plan, Plan.run_emitAll, Run.verdict_after]

/-- **Resolved parts pass the check of the whole.** -/
theorem check_rebuild {t : TypeSpec} (ht : t.declaresOnce = true) {v : Json}
    (hfits : t.fits v = true) {ws : List Json}
    (h : List.Forall₂ (fun part w => (resolvePart mode eval part).plan.run.verdict = .ok w)
      (t.parts v) ws) :
    t.check (t.rebuild v ws) = .ok (t.rebuild v ws) := by
  have haccepted : List.Forall₂ (fun part w => part.1.accepts w = true) (t.parts v) ws := by
    refine h.imp fun part w hw => yields_resolve mode eval part.1 part.2 w ?_
    rw [Call.plan, Plan.run_emitAll] at hw
    exact hw
  rw [check, if_pos (accepts_rebuild ht hfits haccepted)]

end SigilExpr.TypeSpec
