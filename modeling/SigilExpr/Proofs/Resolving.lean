import SigilExpr.Resolve

/-!
# What is true of resolving an argument

Resolving an argument goes down its spec: it evaluates nodes, checks values, and puts plans together
for the parts. `TypeSpec.ResolveClosed` says that a property of plans is kept by all of that, and
`TypeSpec.ResolveClosed.resolve` that it is then a property of resolving. The property may depend on
the spec that a plan has to do with, as long as what is true on account of a part is true on account
of the whole.
-/

namespace SigilExpr.TypeSpec

/-- **Induction.** What holds of a spec if it holds of its parts holds of every spec. -/
@[elab_as_elim, induction_eliminator]
theorem inductionOn {motive : TypeSpec → Prop}
    (any : ∀ delayed, motive (.any delayed))
    (single : ∀ type, motive (.single type))
    (oneOf : ∀ types, motive (.oneOf types))
    (oneValueOf : ∀ options, motive (.oneValueOf options))
    (tuple : ∀ items, (∀ t ∈ items, motive t) → motive (.tuple items))
    (sequenceOf : ∀ item, motive item → motive (.sequenceOf item))
    (record : ∀ fields, (∀ entry ∈ fields, motive entry.2) → motive (.record fields))
    (recordOf : ∀ item, motive item → motive (.recordOf item))
    (t : TypeSpec) : motive t :=
  @TypeSpec.rec motive (fun items => ∀ t ∈ items, motive t)
    (fun fields => ∀ entry ∈ fields, motive entry.2) (fun entry => motive entry.2)
    any single oneOf oneValueOf tuple sequenceOf record recordOf
    (fun _ h => nomatch h) (fun _ _ head tail => List.forall_mem_cons.2 ⟨head, tail⟩)
    (fun _ h => nomatch h) (fun _ _ head tail => List.forall_mem_cons.2 ⟨head, tail⟩)
    (fun _ _ h => h) t

/-- The spec is the other or a part of it, at any depth. -/
inductive PartOf : TypeSpec → TypeSpec → Prop where
  | refl (t : TypeSpec) : PartOf t t
  | tuple {u t : TypeSpec} {items : List TypeSpec} (hm : t ∈ items) (h : PartOf u t) :
    PartOf u (.tuple items)
  | sequenceOf {u t : TypeSpec} (h : PartOf u t) : PartOf u (.sequenceOf t)
  | record {u t : TypeSpec} {key : String} {fields : List (String × TypeSpec)}
    (hm : (key, t) ∈ fields) (h : PartOf u t) : PartOf u (.record fields)
  | recordOf {u t : TypeSpec} (h : PartOf u t) : PartOf u (.recordOf t)

theorem PartOf.trans {u t s : TypeSpec} (h : u.PartOf t) (h' : t.PartOf s) : u.PartOf s := by
  induction h' with
  | refl => exact h
  | tuple hm _ ih => exact .tuple hm ih
  | sequenceOf _ ih => exact .sequenceOf ih
  | record hm _ ih => exact .record hm ih
  | recordOf _ ih => exact .recordOf ih

/-- A property of plans, on account of a spec, is kept by everything that resolving does. -/
structure ResolveClosed (P : TypeSpec → Plan → Prop) : Prop where
  done : ∀ t v, P t (.done v)
  refuse : ∀ t v, t.accepts v = false → P t (refuse t v)
  bind : ∀ {t p f}, P t p → (∀ v, P t (f v)) → P t (p.bind f)
  join : ∀ {t calls rest}, (∀ call ∈ calls, P t call.plan) → (∀ vs, P t (rest vs)) →
    P t (.join calls rest)
  part : ∀ {u t p}, u.PartOf t → P u p → P t p

/-- The call of resolving an argument to one of several specs. -/
theorem exists_of_mem_resolveEach {mode : Mode} {eval : Json → Call}
    {ts : List TypeSpec} {raws : List Json} {call : Call}
    (h : call ∈ resolveEach mode eval ts raws) :
    ∃ t ∈ ts, ∃ raw, call = t.resolve mode eval raw := by
  induction ts generalizing raws with
  | nil => exact nomatch h
  | cons t ts ih =>
    cases raws with
    | nil => exact nomatch h
    | cons raw raws =>
      rw [resolveEach, List.mem_cons] at h
      rcases h with rfl | h
      · exact ⟨t, List.mem_cons_self, raw, rfl⟩
      · obtain ⟨u, hu, hcall⟩ := ih h
        exact ⟨u, List.mem_cons_of_mem _ hu, hcall⟩

theorem exists_of_mem_resolveFields {mode : Mode} {eval : Json → Call}
    {ts : List (String × TypeSpec)} {object : Fields Json} {call : Call}
    (h : call ∈ resolveFields mode eval ts object) :
    ∃ entry ∈ ts, ∃ raw, call = entry.2.resolve mode eval raw := by
  induction ts with
  | nil => exact nomatch h
  | cons entry ts ih =>
    obtain ⟨key, t⟩ := entry
    rw [resolveFields, List.mem_cons] at h
    rcases h with rfl | h
    · exact ⟨(key, t), List.mem_cons_self, _, rfl⟩
    · obtain ⟨u, hu, hcall⟩ := ih h
      exact ⟨u, List.mem_cons_of_mem _ hu, hcall⟩

theorem length_eq_of_acceptsEach {ts : List TypeSpec} {vs : List Json}
    (h : acceptsEach ts vs = true) : vs.length = ts.length := by
  induction ts generalizing vs with
  | nil =>
    cases vs with
    | nil => rfl
    | cons v vs => simp [acceptsEach] at h
  | cons t ts ih =>
    cases vs with
    | nil => simp [acceptsEach] at h
    | cons v vs =>
      rw [acceptsEach, Bool.and_eq_true] at h
      simp [ih h.2]

namespace ResolveClosed

variable {mode : Mode} {eval : Json → Call} {P : TypeSpec → Plan → Prop} (hP : ResolveClosed P)

include hP

theorem checked (t : TypeSpec) (v : Json) : P t (checked t v) := by
  rw [TypeSpec.checked, check]
  split
  · exact hP.done t v
  · rename_i h
    exact hP.refuse t v (by simpa using h)

/-- The parts of a container are resolved, then it is checked as a whole. -/
private theorem parts {t : TypeSpec} {calls : List Call}
    (h : ∀ call ∈ calls, ∃ u, u.PartOf t ∧ P u call.plan) (whole : List Json → Json) :
    P t (.join calls fun ws => TypeSpec.checked t (whole ws)) := by
  refine hP.join (fun call hm => ?_) fun ws => hP.checked t (whole ws)
  obtain ⟨u, hu, hcall⟩ := h call hm
  exact hP.part hu hcall

private theorem resolveInPlace {t : TypeSpec} {ts : List (String × TypeSpec)}
    (h : ∀ entry ∈ ts, entry.2.PartOf t ∧
      ∀ raw, P entry.2 (entry.2.resolve mode eval raw).plan) (object : Fields Json) :
    P t (resolveInPlace mode eval ts object) := by
  induction ts generalizing object with
  | nil => exact hP.done t _
  | cons entry ts ih =>
    obtain ⟨⟨hpart, hentry⟩, hrest⟩ := List.forall_mem_cons.1 h
    exact hP.bind (hP.part hpart (hentry _)) fun v => ih hrest _

/-- **To resolve an argument** has every property that resolving keeps and that evaluating nodes
has. -/
theorem resolve (heval : ∀ t node, P t (eval node).plan) (t : TypeSpec) (raw : Json) :
    P t (t.resolve mode eval raw).plan := by
  -- a container is evaluated first; what is no container of the kind asked for is refused
  have hcontainer : ∀ {t : TypeSpec} {f : Json → Plan}, (∀ v, P t (f v)) → ∀ raw,
      P t (Call.ofPlan ((eval raw).plan.bind f)).plan :=
    fun hf raw => hP.bind (heval _ raw) hf
  induction t generalizing raw with
  | any delayed =>
    cases delayed with
    | true => exact hP.done _ raw
    | false => exact heval _ raw
  | single type => exact hcontainer (hP.checked _) raw
  | oneOf types => exact hcontainer (hP.checked _) raw
  | oneValueOf options => exact hcontainer (hP.checked _) raw
  | tuple items ih =>
    refine hcontainer (fun v => ?_) raw
    cases v with
    | arr vs =>
      simp only
      split
      · refine hP.parts (fun call hm => ?_) .arr
        obtain ⟨t, ht, raw, rfl⟩ := exists_of_mem_resolveEach hm
        exact ⟨t, .tuple ht (.refl t), ih t ht raw⟩
      · -- an array of another length is refused, and rightly so
        rename_i hlength
        refine hP.refuse _ _ (Bool.eq_false_iff.2 fun haccepts => hlength ?_)
        exact length_eq_of_acceptsEach haccepts
    | _ => exact hP.refuse _ _ rfl
  | sequenceOf item ih =>
    refine hcontainer (fun v => ?_) raw
    cases v with
    | arr vs =>
      refine hP.parts (fun call hm => ?_) .arr
      obtain ⟨w, -, rfl⟩ := List.mem_map.1 hm
      exact ⟨item, .sequenceOf (.refl item), ih w⟩
    | _ => exact hP.refuse _ _ rfl
  | record fields ih =>
    refine hcontainer (fun v => ?_) raw
    have hpart : ∀ entry ∈ fields, entry.2.PartOf (.record fields) :=
      fun entry hm => .record hm (.refl entry.2)
    cases v with
    | obj object =>
      -- on the spot the fields come one after the other, in the other mode they are joined
      cases mode with
      | sync =>
        refine hP.bind ?_ (hP.checked _)
        exact hP.resolveInPlace (fun entry hm => ⟨hpart entry hm, ih entry hm⟩) object
      | async =>
        have hcalls : ∀ call ∈ resolveFields .async eval fields object,
            ∃ u, u.PartOf (.record fields) ∧ P u call.plan := by
          intro call hm
          obtain ⟨entry, hentry, raw, rfl⟩ := exists_of_mem_resolveFields hm
          exact ⟨entry.2, hpart entry hentry, ih entry hentry raw⟩
        exact hP.parts hcalls fun ws => .obj (putBackAll object (Fields.keys fields) ws)
    | _ => exact hP.refuse _ _ rfl
  | recordOf item ih =>
    refine hcontainer (fun v => ?_) raw
    cases v with
    | obj object =>
      refine hP.parts (fun call hm => ?_) fun ws => .obj ((Fields.keys object).zip ws)
      obtain ⟨entry, -, rfl⟩ := List.mem_map.1 hm
      exact ⟨item, .recordOf (.refl item), ih entry.2⟩
    | _ => exact hP.refuse _ _ rfl

end ResolveClosed

end SigilExpr.TypeSpec
