import SigilExpr.Proofs.Containers
import SigilExpr.Proofs.Flat.Written
import SigilExpr.Proofs.Grammar

/-!
# Specs that some value has the shape of

Validation looks for empty choices, of types or of values, and for nothing else
(`TypeSpec.validate_eq_ok_iff`). No value is one of no values, so a spec with such a part has a part
that nothing matches, although the spec as a whole may well match something: an empty array is a
sequence of whatever the items would have to be.

Where there is no empty choice, nothing else is in the way. `TypeSpec.sample` is a value that
matches: containers are put together from the samples of their parts, and those that may be empty
are. So a spec is valid exactly if each of its parts matches some value
(`TypeSpec.validate_eq_ok_iff_matchable`).

The values meant here are those whose objects list their fields in the order of the keys, as all
objects do that were built (`Json.Ordered`). Samples are such values if the values to choose from
are.
-/

namespace SigilExpr

/-! ### Values in order -/

/-- Every object in the value lists its fields in the order of their keys. -/
def Json.Ordered (v : Json) : Prop :=
  ∀ fields, (Json.obj fields).PartOf v → Fields.Ordered fields

namespace Json

theorem ordered_arr {vs : List Json} (h : ∀ v ∈ vs, v.Ordered) : (Json.arr vs).Ordered := by
  intro fields hpart
  cases hpart with
  | item hm hpart => exact h _ hm fields hpart

theorem ordered_obj {object : Fields Json} (hkeys : Fields.Ordered object)
    (h : ∀ entry ∈ object, entry.2.Ordered) : (Json.obj object).Ordered := by
  intro fields hpart
  cases hpart with
  | refl => exact hkeys
  | field hm hpart => exact h _ hm fields hpart

theorem Ordered.fields {object : Fields Json} (h : (Json.obj object).Ordered) :
    Fields.Ordered object :=
  h object (.refl _)

theorem Ordered.of_mem {object : Fields Json} (h : (Json.obj object).Ordered)
    {entry : String × Json} (hm : entry ∈ object) : entry.2.Ordered :=
  fun fields hpart => h fields (.field hm hpart)

/-- Setting a field keeps the order. -/
theorem Ordered.insert {object : Fields Json} (h : (Json.obj object).Ordered) (key : String)
    {v : Json} (hv : v.Ordered) : (Json.obj (Fields.insert key v object)).Ordered := by
  have hkeys : Fields.Ordered (Fields.insert key v object) := Fields.ordered_insert key v h.fields
  refine ordered_obj hkeys fun entry hm => ?_
  -- each key stands once, so an entry is what is found under its key
  have hget := (Fields.get?_eq_some_iff (Fields.nodup_keys hkeys)).2 hm
  by_cases hkey : key = entry.1
  · rw [← hkey, Fields.get?_insert_self] at hget
    exact Option.some.inj hget ▸ hv
  · rw [Fields.get?_insert_of_ne hkey] at hget
    exact h.of_mem (Fields.mem_of_get? hget)

/-- So does putting resolved fields back. -/
theorem Ordered.putBackAll {object : Fields Json} (h : (Json.obj object).Ordered)
    (keys : List String) {vs : List Json} (hvs : ∀ v ∈ vs, v.Ordered) :
    (Json.obj (TypeSpec.putBackAll object keys vs)).Ordered := by
  induction keys generalizing object vs with
  | nil => exact h
  | cons key keys ih =>
    cases vs with
    | nil => exact h
    | cons v vs =>
      obtain ⟨hv, hrest⟩ := List.forall_mem_cons.1 hvs
      rw [TypeSpec.putBackAll_cons]
      refine ih ?_ hrest
      unfold TypeSpec.putBack
      split
      · exact h.insert key hv
      · exact h

end Json

/-! ### Samples -/

/-- A value of the type. -/
def ValueType.sample : ValueType → Json
  | null => .null
  | boolean => .bool false
  | number => .num (.whole 0)
  | string => .str ""
  | array => .arr []
  | object => .obj []

theorem ValueType.of_sample (t : ValueType) : ValueType.of t.sample = t := by
  cases t <;> rfl

theorem ValueType.ordered_sample (t : ValueType) : t.sample.Ordered := by
  intro fields hpart
  cases t with
  | object =>
    cases hpart with
    | refl => exact List.Pairwise.nil
    | field hm _ => cases hm
  | array =>
    cases hpart with
    | item hm _ => cases hm
  | _ => cases hpart

namespace TypeSpec

/-- There is nothing to choose from. -/
def isEmptyChoice : TypeSpec → Bool
  | .oneOf types => types.isEmpty
  | .oneValueOf options => options.isEmpty
  | _ => false

mutual

/-- A value that matches, unless there is an empty choice. -/
def sample : TypeSpec → Json
  | .any _ => .null
  | .single type => type.sample
  | .oneOf types => (types.map ValueType.sample).headD .null
  | .oneValueOf options => options.headD .null
  | .tuple items => .arr (sampleEach items)
  | .sequenceOf _ => .arr []
  | .record fields => .obj (putBackAll [] (Fields.keys fields) (sampleFields fields))
  | .recordOf _ => .obj []

/-- The samples of several specs. -/
def sampleEach : List TypeSpec → List Json
  | [] => []
  | t :: ts => t.sample :: sampleEach ts

/-- The samples of the specs of declared fields. -/
def sampleFields : List (String × TypeSpec) → List Json
  | [] => []
  | (_, t) :: ts => t.sample :: sampleFields ts

end

theorem sampleEach_eq (items : List TypeSpec) : sampleEach items = items.map sample := by
  induction items with
  | nil => rfl
  | cons t ts ih => rw [sampleEach, ih, List.map_cons]

theorem sampleFields_eq (fields : List (String × TypeSpec)) :
    sampleFields fields = fields.map fun entry => entry.2.sample := by
  induction fields with
  | nil => rfl
  | cons entry fields ih => rw [sampleFields, ih, List.map_cons]

/-! ### Validation -/

/-- A spec for values without parts is its only part. -/
theorem PartOf.eq_of_no_container {u t : TypeSpec} (hpart : u.PartOf t)
    (h : t.isContainer = false) : u = t := by
  cases hpart with
  | refl => rfl
  | _ => cases h

/-- **Validation looks for empty choices,** at any depth, and for nothing else. -/
theorem validate_eq_ok_iff {t : TypeSpec} :
    t.validate = .ok () ↔ ∀ u : TypeSpec, u.PartOf t → u.isEmptyChoice = false := by
  -- a container is no choice itself, so what is to be found in it is found in its parts
  induction t with
  | any delayed => exact iff_of_true rfl fun u hpart => hpart.eq_of_no_container rfl ▸ rfl
  | single type => exact iff_of_true rfl fun u hpart => hpart.eq_of_no_container rfl ▸ rfl
  | oneOf types =>
    cases types with
    | nil => exact iff_of_false nofun fun h => absurd (h _ (.refl _)) (by decide)
    | cons t ts => exact iff_of_true rfl fun u hpart => hpart.eq_of_no_container rfl ▸ rfl
  | oneValueOf options =>
    cases options with
    | nil => exact iff_of_false nofun fun h => absurd (h _ (.refl _)) (by decide)
    | cons v vs => exact iff_of_true rfl fun u hpart => hpart.eq_of_no_container rfl ▸ rfl
  | tuple items ih =>
    rw [validate, validateEach_eq_ok_iff]
    constructor
    · intro h u hpart
      cases hpart with
      | refl => rfl
      | tuple hm hpart => exact (ih _ hm).1 (h _ hm) u hpart
    · exact fun h t hm => (ih t hm).2 fun u hpart => h u (.tuple hm hpart)
  | sequenceOf item ih =>
    rw [validate, ih]
    constructor
    · intro h u hpart
      cases hpart with
      | refl => rfl
      | sequenceOf hpart => exact h u hpart
    · exact fun h u hpart => h u (.sequenceOf hpart)
  | record fields ih =>
    rw [validate, validateFields_eq_ok_iff]
    constructor
    · intro h u hpart
      cases hpart with
      | refl => rfl
      | record hm hpart => exact (ih _ hm).1 (h _ hm) u hpart
    · exact fun h entry hm => (ih entry hm).2 fun u hpart => h u (.record hm hpart)
  | recordOf item ih =>
    rw [validate, ih]
    constructor
    · intro h u hpart
      cases hpart with
      | refl => rfl
      | recordOf hpart => exact h u hpart
    · exact fun h u hpart => h u (.recordOf hpart)

/-- Nothing is one of no types, or one of no values. -/
theorem accepts_of_isEmptyChoice {t : TypeSpec} (h : t.isEmptyChoice = true) (v : Json) :
    t.accepts v = false := by
  cases t with
  | oneOf types =>
    obtain rfl : types = [] := List.isEmpty_iff.1 h
    rfl
  | oneValueOf options =>
    obtain rfl : options = [] := List.isEmpty_iff.1 h
    rfl
  | _ => cases h

/-! ### Parts -/

private theorem declareOnceEach_eq (ts : List TypeSpec) :
    declareOnceEach ts = ts.all declaresOnce := by
  induction ts with
  | nil => rfl
  | cons t ts ih => rw [declareOnceEach, ih, List.all_cons]

private theorem declareOnceFields_eq (fields : List (String × TypeSpec)) :
    declareOnceFields fields = fields.all fun entry => entry.2.declaresOnce := by
  induction fields with
  | nil => rfl
  | cons entry fields ih => rw [declareOnceFields, ih, List.all_cons]

/-- A spec that declares each field once has parts that do. -/
theorem PartOf.declaresOnce {u t : TypeSpec} (h : u.PartOf t) (ht : t.declaresOnce = true) :
    u.declaresOnce = true := by
  induction h with
  | refl => exact ht
  | tuple hm _ ih =>
    rw [TypeSpec.declaresOnce, declareOnceEach_eq, List.all_eq_true] at ht
    exact ih (ht _ hm)
  | sequenceOf _ ih => exact ih ht
  | record hm _ ih =>
    rw [TypeSpec.declaresOnce, Bool.and_eq_true, declareOnceFields_eq, List.all_eq_true] at ht
    exact ih (ht.2 _ hm)
  | recordOf _ ih => exact ih ht

/-- The values to choose from are in order, wherever there is a choice. -/
def OptionsOrdered (t : TypeSpec) : Prop :=
  ∀ options, (oneValueOf options).PartOf t → ∀ v ∈ options, v.Ordered

theorem OptionsOrdered.of_partOf {u t : TypeSpec} (h : t.OptionsOrdered) (hpart : u.PartOf t) :
    u.OptionsOrdered :=
  fun options hchoice => h options (hchoice.trans hpart)

/-! ### Samples match -/

/-- **The sample matches** unless there is an empty choice. -/
theorem accepts_sample {t : TypeSpec} (honce : t.declaresOnce = true)
    (h : ∀ u : TypeSpec, u.PartOf t → u.isEmptyChoice = false) : t.accepts t.sample = true := by
  induction t with
  | any delayed => rfl
  | single type => rw [sample, accepts, ValueType.of_sample, beq_self_eq_true]
  | oneOf types =>
    cases types with
    | nil => exact absurd (h _ (.refl _)) (by decide)
    | cons t ts =>
      rw [accepts, List.contains_iff_mem]
      exact List.mem_cons.2 (.inl t.of_sample)
  | oneValueOf options =>
    cases options with
    | nil => exact absurd (h _ (.refl _)) (by decide)
    | cons v vs =>
      rw [accepts, List.any_cons, Bool.or_eq_true]
      exact .inl v.same_self
  | tuple items ih =>
    have hitems : ∀ t ∈ items, t.accepts t.sample = true := fun t hm =>
      ih t hm (PartOf.declaresOnce (.tuple hm (.refl t)) honce) fun u hpart => h u (.tuple hm hpart)
    -- as many samples as there are items, each beside its own
    rw [sample, sampleEach_eq, accepts_eq, Bool.and_eq_true, List.all_eq_true]
    refine ⟨by simp [fits], fun part hpart => ?_⟩
    rw [parts, ← List.map_prod_left_eq_zip] at hpart
    obtain ⟨t, hm, rfl⟩ := List.mem_map.1 hpart
    exact hitems t hm
  | sequenceOf item _ => rfl
  | record fields ih =>
    have hfields : ∀ entry ∈ fields, entry.2.accepts entry.2.sample = true := fun entry hm =>
      ih entry hm (PartOf.declaresOnce (.record hm (.refl _)) honce)
        fun u hpart => h u (.record hm hpart)
    -- the sample is the empty object with the samples of the fields put back
    rw [sample, sampleFields_eq]
    refine accepts_rebuild honce (v := .obj []) rfl ?_
    rw [parts, List.forall₂_map_left_iff, List.forall₂_map_right_iff, List.forall₂_same]
    exact hfields
  | recordOf item _ => rfl

theorem ordered_sample {t : TypeSpec} (h : t.OptionsOrdered) : t.sample.Ordered := by
  have hnull : Json.null.Ordered := ValueType.null.ordered_sample
  induction t with
  | any delayed => exact hnull
  | single type => exact type.ordered_sample
  | oneOf types =>
    cases types with
    | nil => exact hnull
    | cons t ts => exact t.ordered_sample
  | oneValueOf options =>
    cases options with
    | nil => exact hnull
    | cons v vs => exact h _ (.refl _) v List.mem_cons_self
  | tuple items ih =>
    rw [sample, sampleEach_eq]
    refine Json.ordered_arr fun v hv => ?_
    obtain ⟨t, hm, rfl⟩ := List.mem_map.1 hv
    exact ih t hm (h.of_partOf (.tuple hm (.refl t)))
  | sequenceOf item _ => exact ValueType.array.ordered_sample
  | record fields ih =>
    rw [sample, sampleFields_eq]
    refine ValueType.object.ordered_sample.putBackAll _ fun v hv => ?_
    obtain ⟨entry, hm, rfl⟩ := List.mem_map.1 hv
    exact ih entry hm (h.of_partOf (.record hm (.refl _)))
  | recordOf item _ => exact ValueType.object.ordered_sample

/-- Some value matches. -/
def Matchable (t : TypeSpec) : Prop := ∃ v : Json, v.Ordered ∧ t.accepts v = true

/-- **Validation accepts exactly the specs that can be matched throughout:** a spec has no flaw if
and only if each of its parts, the spec itself among them, matches some value. So every spec without
a flaw matches some value. The converse of the latter does not hold: a flaw may be where a value
need not have a part. -/
theorem validate_eq_ok_iff_matchable {t : TypeSpec} (honce : t.declaresOnce = true)
    (hoptions : t.OptionsOrdered) :
    (t.validate = .ok () ↔ ∀ u : TypeSpec, u.PartOf t → u.Matchable) ∧
      (t.validate = .ok () → t.Matchable) := by
  have hparts : t.validate = .ok () ↔ ∀ u : TypeSpec, u.PartOf t → u.Matchable := by
    rw [validate_eq_ok_iff]
    constructor
    · intro h u hpart
      refine ⟨u.sample, ordered_sample (hoptions.of_partOf hpart), ?_⟩
      exact accepts_sample (hpart.declaresOnce honce) fun s hs => h s (hs.trans hpart)
    · intro h u hpart
      -- an empty choice would be a part that nothing matches
      obtain ⟨v, -, haccepts⟩ := h u hpart
      rw [← Bool.not_eq_true]
      intro hempty
      rw [accepts_of_isEmptyChoice hempty v] at haccepts
      cases haccepts
  exact ⟨hparts, fun h => hparts.1 h t (.refl t)⟩

/-- A choice of one object, and tags. -/
def label : TypeSpec :=
  .record [("kind", .oneValueOf [.obj [("code", .null)]]), ("tags", .sequenceOf .string)]

example : label.sample = .obj [("kind", .obj [("code", .null)]), ("tags", .arr [])] := rfl

/-- A label can be matched. An empty array is a sequence of items of no type, but such a sequence
has a flaw. -/
theorem matchable_label :
    label.declaresOnce = true ∧ label.OptionsOrdered ∧ label.Matchable ∧
      (sequenceOf (oneOf [])).accepts (.arr []) = true ∧
      (sequenceOf (oneOf [])).validate ≠ .ok () := by
  have honce : label.declaresOnce = true := by decide
  have hoptions : label.OptionsOrdered := by
    intro options hpart v hv
    cases hpart with
    | record hm hpart =>
      rcases List.mem_cons.1 hm with hkind | htags
      · obtain ⟨rfl, rfl⟩ := Prod.mk.inj hkind
        cases hpart
        obtain rfl := List.mem_singleton.1 hv
        refine Json.ordered_obj (List.pairwise_singleton _ _) fun entry hentry => ?_
        obtain rfl := List.mem_singleton.1 hentry
        exact ValueType.null.ordered_sample
      · obtain ⟨rfl, rfl⟩ := Prod.mk.inj (List.mem_singleton.1 htags)
        cases hpart with
        | sequenceOf hpart => cases hpart
  have hnone : (sequenceOf (oneOf [])).OptionsOrdered := by
    intro options hpart
    cases hpart with
    | sequenceOf hpart => cases hpart
  refine ⟨honce, hoptions, (validate_eq_ok_iff_matchable honce hoptions).2 rfl, rfl, ?_⟩
  intro hvalid
  obtain ⟨v, -, haccepts⟩ :=
    (validate_eq_ok_iff_matchable rfl hnone).1.1 hvalid (.oneOf []) (.sequenceOf (.refl _))
  cases haccepts

end TypeSpec

end SigilExpr
