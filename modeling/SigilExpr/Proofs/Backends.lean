import SigilExpr.Proofs.Simulation

/-!
# The two modes resolve arguments alike

On the spot a record is filled in while it is read; side by side it is read as a whole and filled in
afterwards. Where every record declares each field once (`TypeSpec.declaresOnce`) nobody can tell
the difference: a field that is put back does not change what is read for the others
(`TypeSpec.run_resolveInPlace`). So an argument resolves to the same in both modes, with the same
events on the way (`TypeSpec.agrees_resolve`), as long as neither takes time.

`Simulation.agreement` is the relation of plans that come to the same on the spot. Evaluations are
related by it in different modes if the two sides of each interpreter are, which is the use that is
made of it in the end.
-/

namespace SigilExpr

open TypeSpec

/-! ### Plans that come to the same -/

/-- The same happens at the moment of the call and once the body is carried out on the spot. -/
def Call.Agrees (c d : Call) : Prop := c.opening = d.opening ∧ c.body.run = d.body.run

theorem Call.Agrees.trans {c d e : Call} (h : c.Agrees d) (h' : d.Agrees e) : c.Agrees e :=
  ⟨h.1.trans h'.1, h.2.trans h'.2⟩

theorem Plan.runAll_congr {cs ds : List Call} (h : List.Forall₂ Call.Agrees cs ds) :
    runAll cs = runAll ds := by
  induction h with
  | nil => rfl
  | cons hcd _ ih => rw [runAll, runAll, hcd.1, hcd.2, ih]

/-- Plans are related that come to the same on the spot. -/
def Simulation.agreement : Simulation where
  event _ := True
  plan p q := p.run = q.run
  call := Call.Agrees
  written a b := a.onCall = b.onCall ∧ a.action = b.action
  done _ := rfl
  halt _ := rfl
  emit _ h := by rw [Plan.run_emit, Plan.run_emit, h]
  ask hp h := by rw [Plan.run_ask, Plan.run_ask, hp, funext h]
  join {cs ds f g} hcs h := by
    rw [Plan.run_join, Plan.run_join, ← Plan.runAll_congr hcs]
    exact Run.bind_congr h
  bind hp h := by rw [Plan.run_bind, Plan.run_bind, hp, funext h]
  ofPlan h := ⟨rfl, h⟩
  made h := by rw [Call.plan, Call.plan, Plan.run_emitAll, Plan.run_emitAll, h.1, h.2]
  within id h := ⟨h.1, by simp [h.2]⟩
  breakOff h := ⟨h.1, rfl⟩
  logged _ := trivial
  action_eq h := h.2
  perform hw h := ⟨by rw [hw.1], h⟩

instance Simulation.agreement_fits (registry : Registry) : agreement.Fits registry where
  arrival node h := ⟨by rw [Call.after, Call.after, h.1], h.2⟩
  invoked _ _ := trivial

/-! ### Records -/

namespace TypeSpec

mutual

/-- Every record in a spec declares each of its fields once. Declared fields are meant as a map, and
whatever is built by `Fields.ofList` is one (`Fields.ordered_ofList`); a bare list of entries can
have a key twice. -/
def declaresOnce : TypeSpec → Bool
  | .tuple items => declareOnceEach items
  | .sequenceOf item => item.declaresOnce
  | .record fields => (Fields.keys fields).Nodup && declareOnceFields fields
  | .recordOf item => item.declaresOnce
  | _ => true

/-- The same of several specs. -/
def declareOnceEach : List TypeSpec → Bool
  | [] => true
  | t :: ts => t.declaresOnce && declareOnceEach ts

/-- The same of the specs of declared fields. -/
def declareOnceFields : List (String × TypeSpec) → Bool
  | [] => true
  | (_, t) :: ts => t.declaresOnce && declareOnceFields ts

end

variable {mode : Mode} {eval : Json → Call}

/-- A field that is put back makes no difference to the others. -/
theorem get?_putBack_of_ne {key other : String} (hne : key ≠ other) (object : Fields Json)
    (v : Json) : Fields.get? other (putBack object key v) = Fields.get? other object := by
  unfold putBack
  split
  · exact Fields.get?_insert_of_ne hne v object
  · rfl

theorem getD_putBack_of_ne {key other : String} (hne : key ≠ other) (object : Fields Json)
    (v d : Json) : Fields.getD other d (putBack object key v) = Fields.getD other d object := by
  rw [Fields.getD, get?_putBack_of_ne hne, Fields.getD]

theorem resolveFields_putBack {key : String} {ts : List (String × TypeSpec)}
    (hkey : key ∉ Fields.keys ts) (object : Fields Json) (v : Json) :
    resolveFields mode eval ts (putBack object key v) = resolveFields mode eval ts object := by
  induction ts with
  | nil => rfl
  | cons field ts ih =>
    obtain ⟨other, t⟩ := field
    -- no field that is still to be read is the one put back
    rw [Fields.keys, List.map_cons, List.mem_cons, not_or] at hkey
    rw [resolveFields, resolveFields, getD_putBack_of_ne hkey.1, ih hkey.2]

/-- **Filling in a record while reading it** comes to the same as reading it first. -/
theorem run_resolveInPlace {ts : List (String × TypeSpec)} (h : (Fields.keys ts).Nodup)
    (object : Fields Json) :
    (resolveInPlace mode eval ts object).run =
      (Plan.runAll (resolveFields mode eval ts object)).map fun vs =>
        .obj (putBackAll object (Fields.keys ts) vs) := by
  -- over all objects at once, since each field is read from another
  induction ts generalizing object with
  | nil => rfl
  | cons field ts ih =>
    obtain ⟨key, t⟩ := field
    rw [Fields.keys, List.map_cons, List.nodup_cons] at h
    rw [resolveInPlace, resolveFields, Plan.run_bind, Plan.runAll, Call.plan, Plan.run_emitAll]
    rw [Run.map_bind]
    refine Run.bind_congr fun v _ => ?_
    -- the other fields are read from an object in which this one is put back already
    rw [ih h.2, resolveFields_putBack h.1, Run.map_map]
    rfl

end TypeSpec

/-! ### Arguments -/

private theorem agrees_bind {call : Call} {f g : Json → Plan} (h : ∀ v, (f v).run = (g v).run) :
    (Call.ofPlan (call.plan.bind f)).Agrees (.ofPlan (call.plan.bind g)) := by
  refine ⟨rfl, ?_⟩
  rw [Call.ofPlan, Call.ofPlan, Plan.run_bind, Plan.run_bind, funext h]

private theorem run_join_congr {cs ds : List Call} (h : List.Forall₂ Call.Agrees cs ds)
    (rest : List Json → Plan) : (Plan.join cs rest).run = (Plan.join ds rest).run := by
  rw [Plan.run_join, Plan.run_join, Plan.runAll_congr h]

namespace TypeSpec

section

variable {eval : Json → Call}

mutual

/-- **An argument resolves to the same in both modes,** whatever evaluates the nodes. -/
theorem agrees_resolve : (t : TypeSpec) → t.declaresOnce = true → ∀ raw,
    (t.resolve .sync eval raw).Agrees (t.resolve .async eval raw)
  -- only records are filled in differently, so elsewhere it is the parts that need an argument
  | .any true, _, _ => ⟨rfl, rfl⟩
  | .any false, _, _ => ⟨rfl, rfl⟩
  | .single _, _, _ => ⟨rfl, rfl⟩
  | .oneOf _, _, _ => ⟨rfl, rfl⟩
  | .oneValueOf _, _, _ => ⟨rfl, rfl⟩
  | .tuple items, ht, raw => by
    refine agrees_bind fun v => ?_
    split
    · split
      · exact run_join_congr (agrees_resolveEach items ht _) _
      · rfl
    · rfl
  | .sequenceOf item, ht, raw => by
    refine agrees_bind fun v => ?_
    split
    · refine run_join_congr ?_ _
      rw [List.forall₂_map_left_iff, List.forall₂_map_right_iff]
      exact List.forall₂_same.2 fun w _ => agrees_resolve item ht w
    · rfl
  | .record fields, ht, raw => by
    have hkeys : (Fields.keys fields).Nodup ∧ declareOnceFields fields = true := by
      simpa [declaresOnce] using ht
    refine agrees_bind fun v => ?_
    split
    · -- the one mode fills in the object as it goes, the other when all fields are there
      rename_i object
      simp only [Plan.run_bind, run_resolveInPlace hkeys.1, Run.bind_map, Plan.run_join]
      rw [Plan.runAll_congr (agrees_resolveFields fields hkeys.2 object)]
    · rfl
  | .recordOf item, ht, raw => by
    refine agrees_bind fun v => ?_
    split
    · refine run_join_congr ?_ _
      rw [List.forall₂_map_left_iff, List.forall₂_map_right_iff]
      exact List.forall₂_same.2 fun entry _ => agrees_resolve item ht entry.2
    · rfl

theorem agrees_resolveEach : (ts : List TypeSpec) → declareOnceEach ts = true → ∀ raws,
    List.Forall₂ Call.Agrees (resolveEach .sync eval ts raws) (resolveEach .async eval ts raws)
  | [], _, _ => .nil
  | _ :: _, _, [] => .nil
  | t :: ts, h, raw :: raws => by
    rw [declareOnceEach, Bool.and_eq_true] at h
    exact .cons (agrees_resolve t h.1 raw) (agrees_resolveEach ts h.2 raws)

theorem agrees_resolveFields : (ts : List (String × TypeSpec)) → declareOnceFields ts = true →
    ∀ object, List.Forall₂ Call.Agrees (resolveFields .sync eval ts object)
      (resolveFields .async eval ts object)
  | [], _, _ => .nil
  | (_, t) :: ts, h, object => by
    rw [declareOnceFields, Bool.and_eq_true] at h
    exact .cons (agrees_resolve t h.1 _) (agrees_resolveFields ts h.2 object)

end

end

end TypeSpec

namespace Simulation

/-- Related ways to evaluate nodes resolve an argument to the same in different modes. -/
theorem agreement_resolves {t : TypeSpec} (h : t.declaresOnce = true) :
    agreement.Resolves .sync .async t := fun _ _ he raw =>
  (agrees_resolve t h raw).trans (agreement.resolves .async t _ _ he raw)

end Simulation

end SigilExpr
