import Mathlib.Data.Set.List
import SigilExpr.Proofs.Build
import SigilExpr.Proofs.Forms

/-!
# The grammar of type specs

`Json.IsForm` is the grammar that forms of specs are written in, as the least set of values with
the rules below, and `Json.canonical` is the one form among those of equal meaning that specs are
written in. The reader accepts exactly the grammar, whatever it reads is a valid spec, and writing
that spec gives the canonical form of what was read (`TypeSpec.read_grammar`).

The reader takes one layer off a form and reads the parts. `TypeSpec.Layer` is what it finds there:
the kind of the form decides the kind of the spec, and the parts of the form are read as the parts
of the spec. Both directions and the canonical form follow by induction, on the spec where a form
has been read and on the grammar where it is yet to be.
-/

namespace SigilExpr

namespace Json

/-! ### The grammar -/

/-- The flag among the options of `any` is a truth value, if it is there at all. Nothing is asked of
the other options. -/
def FlagIsBoolean (options : Fields Json) : Prop :=
  ∀ v, Fields.get? "delayEvaluation" options = some v → ∃ flag, v = .bool flag

/-- The forms of type specs. -/
inductive IsForm : Json → Prop where
  /-- The name for any value. -/
  | any : IsForm (.str "any")
  /-- The name of a type. -/
  | type (t : ValueType) : IsForm (.str t.name)
  /-- A choice of types, by their names. -/
  | types {entries : List Json} (nonempty : entries ≠ [])
    (names : ∀ entry ∈ entries, ∃ t : ValueType, entry = .str t.name) : IsForm (.arr entries)
  /-- Any value, with options. -/
  | options {options : Fields Json} (flag : FlagIsBoolean options) :
    IsForm (.obj [("any", .obj options)])
  /-- A choice of values. -/
  | values {values : List Json} (nonempty : values ≠ []) : IsForm (.obj [("enum", .arr values)])
  /-- One form for each item. -/
  | tuple {forms : List Json} (items : ∀ form ∈ forms, IsForm form) :
    IsForm (.obj [("tuple", .arr forms)])
  /-- One form for all items. -/
  | sequenceOf {form : Json} (item : IsForm form) : IsForm (.obj [("sequenceOf", form)])
  /-- Forms under the keys of fields. -/
  | record {forms : Fields Json} (fields : ∀ entry ∈ forms, IsForm entry.2) :
    IsForm (.obj [("record", .obj forms)])
  /-- One form for all fields. -/
  | recordOf {form : Json} (item : IsForm form) : IsForm (.obj [("recordOf", form)])

/-! ### Canonical forms -/

/-- The flag that options of `any` set. -/
def delayFlag (options : Fields Json) : Bool :=
  match Fields.get? "delayEvaluation" options with
  | some (.bool flag) => flag
  | _ => false

mutual

/-- The form with the options of each `any` in it reduced to what the flag says. Forms are looked
for where a spec can have parts; values to choose from are no forms, whatever they look like. -/
def canonical : Json → Json
  | .obj [("any", .obj options)] =>
    if delayFlag options then .obj [("any", .obj [("delayEvaluation", .bool true)])]
    else .str "any"
  | .obj [("tuple", .arr forms)] => .obj [("tuple", .arr (canonicalEach forms))]
  | .obj [("sequenceOf", form)] => .obj [("sequenceOf", form.canonical)]
  | .obj [("record", .obj forms)] => .obj [("record", .obj (canonicalFields forms))]
  | .obj [("recordOf", form)] => .obj [("recordOf", form.canonical)]
  | form => form

/-- The canonical forms of forms. -/
def canonicalEach : List Json → List Json
  | [] => []
  | form :: forms => form.canonical :: canonicalEach forms

/-- The canonical forms of forms under their keys. -/
def canonicalFields : List (String × Json) → List (String × Json)
  | [] => []
  | (key, form) :: forms => (key, form.canonical) :: canonicalFields forms

end

end Json

namespace TypeSpec

/-! ### Parts -/

/-- A reader in steps ends well if each step does. -/
theorem bind_eq_ok_iff {α β : Type} {first : Except Flaw α} {next : α → Except Flaw β} {b : β} :
    first >>= next = .ok b ↔ ∃ a, first = .ok a ∧ next a = .ok b := by
  cases first with
  | error flaw => simp [bind, Except.bind]
  | ok a => simp [bind, Except.bind]

theorem validated_eq_ok_iff {s t : TypeSpec} :
    validated s = .ok t ↔ s.validate = .ok () ∧ s = t := by
  rw [validated, bind_eq_ok_iff]
  constructor
  · rintro ⟨⟨⟩, hvalid, h⟩
    exact ⟨hvalid, Except.ok.inj h⟩
  · rintro ⟨hvalid, rfl⟩
    exact ⟨(), hvalid, rfl⟩

theorem validateFields_eq_ok_iff {fields : List (String × TypeSpec)} :
    validateFields fields = .ok () ↔ ∀ entry ∈ fields, entry.2.validate = .ok () := by
  induction fields with
  | nil => simp [validateFields]
  | cons entry fields ih =>
    obtain ⟨key, t⟩ := entry
    rw [validateFields, bind_eq_ok_iff, List.forall_mem_cons, ih]
    constructor
    · rintro ⟨⟨⟩, hfirst, hrest⟩
      exact ⟨hfirst, hrest⟩
    · rintro ⟨hfirst, hrest⟩
      exact ⟨(), hfirst, hrest⟩

/-- An entry of a choice names a type exactly if it is the name of one. -/
theorem choiceEntry_eq_ok_iff {entry : Json} {t : ValueType} :
    choiceEntry entry = .ok t ↔ entry = .str t.name := by
  constructor
  · intro h
    cases entry with
    | str name =>
      rw [choiceEntry, namedType] at h
      split at h
      · rename_i found hfound
        obtain rfl : found = t := Except.ok.inj h
        rw [ValueType.name_of_ofName? hfound]
      · cases h
    | _ => cases h
  · rintro rfl
    rw [choiceEntry, namedType, ValueType.ofName?_name]

/-- The entries of a choice that can be read are the names of the types. -/
theorem eq_map_of_mapM_choiceEntry {entries : List Json} {types : List ValueType}
    (h : entries.mapM choiceEntry = .ok types) : entries = types.map fun t => .str t.name := by
  induction entries generalizing types with
  | nil =>
    obtain rfl : [] = types := Except.ok.inj h
    rfl
  | cons entry entries ih =>
    rw [List.mapM_cons] at h
    obtain ⟨t, hentry, h⟩ := bind_eq_ok_iff.1 h
    obtain ⟨ts, hrest, h⟩ := bind_eq_ok_iff.1 h
    obtain rfl : t :: ts = types := Except.ok.inj h
    rw [choiceEntry_eq_ok_iff.1 hentry, ih hrest, List.map_cons]

/-- Forms are read one by one. -/
theorem ofJsonEach_eq_ok_iff {forms : List Json} {items : List TypeSpec} :
    ofJsonEach forms = .ok items ↔
      List.Forall₂ (fun form t => ofJson form = .ok t) forms items := by
  induction forms generalizing items with
  | nil => simp [ofJsonEach, eq_comm]
  | cons form forms ih =>
    rw [ofJsonEach, bind_eq_ok_iff, List.forall₂_cons_left_iff]
    simp only [bind_eq_ok_iff, ih, pure, Except.pure, Except.ok.injEq]
    constructor
    · rintro ⟨t, ht, ts, hts, rfl⟩
      exact ⟨t, ts, ht, hts, rfl⟩
    · rintro ⟨t, ts, ht, hts, rfl⟩
      exact ⟨t, ht, ts, hts, rfl⟩

/-- Forms under keys are read one by one and keep their keys. -/
theorem ofJsonFields_eq_ok_iff {forms : Fields Json} {fields : List (String × TypeSpec)} :
    ofJsonFields forms = .ok fields ↔
      List.Forall₂ (fun form entry => form.1 = entry.1 ∧ ofJson form.2 = .ok entry.2)
        forms fields := by
  induction forms generalizing fields with
  | nil => simp [ofJsonFields, eq_comm]
  | cons form forms ih =>
    obtain ⟨key, form⟩ := form
    rw [ofJsonFields, bind_eq_ok_iff, List.forall₂_cons_left_iff]
    simp only [bind_eq_ok_iff, ih, pure, Except.pure, Except.ok.injEq]
    constructor
    · rintro ⟨t, ht, ts, hts, rfl⟩
      exact ⟨(key, t), ts, ⟨rfl, ht⟩, hts, rfl⟩
    · rintro ⟨⟨_, t⟩, ts, ⟨rfl, ht⟩, hts, rfl⟩
      exact ⟨t, ht, ts, hts, rfl⟩

/-! ### One layer of a form -/

/-- What a reader makes of one layer of a form. -/
inductive Layer : Json → TypeSpec → Prop where
  | any : Layer (.str "any") (.any false)
  | single (t : ValueType) : Layer (.str t.name) (.single t)
  | oneOf {types : List ValueType} (nonempty : types ≠ []) :
    Layer (.arr (types.map fun t => .str t.name)) (.oneOf types)
  | options {options : Fields Json} (flag : Json.FlagIsBoolean options) :
    Layer (.obj [("any", .obj options)]) (.any (Json.delayFlag options))
  | oneValueOf {values : List Json} (nonempty : values ≠ []) :
    Layer (.obj [("enum", .arr values)]) (.oneValueOf values)
  | tuple {forms : List Json} {items : List TypeSpec}
    (parts : List.Forall₂ (fun form t => ofJson form = .ok t) forms items) :
    Layer (.obj [("tuple", .arr forms)]) (.tuple items)
  | sequenceOf {form : Json} {item : TypeSpec} (part : ofJson form = .ok item) :
    Layer (.obj [("sequenceOf", form)]) (.sequenceOf item)
  | record {forms : Fields Json} {fields : List (String × TypeSpec)}
    (parts : List.Forall₂ (fun form entry => form.1 = entry.1 ∧ ofJson form.2 = .ok entry.2)
      forms fields) :
    Layer (.obj [("record", .obj forms)]) (.record fields)
  | recordOf {form : Json} {item : TypeSpec} (part : ofJson form = .ok item) :
    Layer (.obj [("recordOf", form)]) (.recordOf item)

/-- A layer that was validated once it had been put together. -/
private theorem Layer.of_validated {form : Json} {s t : TypeSpec} (h : validated s = .ok t)
    (hlayer : s.validate = .ok () → Layer form s) : Layer form t ∧ t.validate = .ok () := by
  obtain ⟨hvalid, rfl⟩ := validated_eq_ok_iff.1 h
  exact ⟨hlayer hvalid, hvalid⟩

private theorem Layer.of_name {name : String} {t : TypeSpec} (h : ofJson (.str name) = .ok t) :
    Layer (.str name) t ∧ t.validate = .ok () := by
  rw [ofJson] at h
  split at h
  · -- the one name that is no name of a type
    rename_i hany
    obtain rfl : TypeSpec.any false = t := Except.ok.inj h
    subst hany
    exact ⟨.any, rfl⟩
  · cases htype : namedType name with
    | error flaw =>
      rw [htype] at h
      cases h
    | ok type =>
      rw [htype] at h
      obtain rfl : TypeSpec.single type = t := Except.ok.inj h
      obtain rfl : name = type.name := Json.str.inj (choiceEntry_eq_ok_iff.1 htype)
      exact ⟨.single type, rfl⟩

private theorem Layer.of_names {entries : List Json} {t : TypeSpec}
    (h : ofJson (.arr entries) = .ok t) : Layer (.arr entries) t ∧ t.validate = .ok () := by
  rw [ofJson] at h
  obtain ⟨types, hentries, h⟩ := bind_eq_ok_iff.1 h
  refine Layer.of_validated h fun hvalid => ?_
  rw [eq_map_of_mapM_choiceEntry hentries]
  refine .oneOf ?_
  -- an empty choice has a flaw
  rintro rfl
  cases hvalid

private theorem Layer.of_options {body : Json} {t : TypeSpec} (h : ofOptions body = .ok t) :
    Layer (.obj [("any", body)]) t ∧ t.validate = .ok () := by
  cases body with
  | obj options =>
    -- whatever the flag is read as, it is the one that the options set
    have hread : ∀ flag, Json.FlagIsBoolean options → Json.delayFlag options = flag →
        (.ok (.any flag) : Except Flaw TypeSpec) = .ok t →
        Layer (.obj [("any", .obj options)]) t ∧ t.validate = .ok () := by
      intro flag hboolean hflag h
      obtain rfl : TypeSpec.any flag = t := Except.ok.inj h
      rw [← hflag]
      exact ⟨.options hboolean, rfl⟩
    rw [ofOptions] at h
    split at h
    · rename_i hnone
      refine hread false (fun v hv => ?_) (by rw [Json.delayFlag, hnone]) h
      rw [hnone] at hv
      cases hv
    · rename_i flag hsome
      refine hread flag (fun v hv => ?_) (by rw [Json.delayFlag, hsome]) h
      exact ⟨flag, Option.some.inj (hv.symm.trans hsome)⟩
    · cases h
  | _ => cases h

private theorem Layer.of_values {body : Json} {t : TypeSpec}
    (h : ofJson (.obj [("enum", body)]) = .ok t) :
    Layer (.obj [("enum", body)]) t ∧ t.validate = .ok () := by
  cases body with
  | arr values =>
    refine Layer.of_validated h fun hvalid => .oneValueOf ?_
    rintro rfl
    cases hvalid
  | _ => cases h

private theorem Layer.of_tuple {body : Json} {t : TypeSpec}
    (h : ofJson (.obj [("tuple", body)]) = .ok t) :
    Layer (.obj [("tuple", body)]) t ∧ t.validate = .ok () := by
  cases body with
  | arr forms =>
    obtain ⟨items, hitems, h⟩ := bind_eq_ok_iff.1 h
    exact Layer.of_validated h fun _ => .tuple (ofJsonEach_eq_ok_iff.1 hitems)
  | _ => cases h

private theorem Layer.of_record {body : Json} {t : TypeSpec}
    (h : ofJson (.obj [("record", body)]) = .ok t) :
    Layer (.obj [("record", body)]) t ∧ t.validate = .ok () := by
  cases body with
  | obj forms =>
    obtain ⟨fields, hfields, h⟩ := bind_eq_ok_iff.1 h
    exact Layer.of_validated h fun _ => .record (ofJsonFields_eq_ok_iff.1 hfields)
  | _ => cases h

/-- No other key makes an object a form. -/
private theorem ofJson_unknownTag {tag : String} (body : Json)
    (h : tag ∉ ["any", "enum", "tuple", "sequenceOf", "record", "recordOf"]) :
    ofJson (.obj [(tag, body)]) = .error (.unknownTag tag) := by
  simp only [List.mem_cons, List.not_mem_nil, or_false, not_or] at h
  obtain ⟨h1, h2, h3, h4, h5, h6⟩ := h
  cases body <;> simp only [ofJson, h1, h2, h3, h4, h5, h6, if_false]

private theorem Layer.of_tagged {tag : String} {body : Json} {t : TypeSpec}
    (h : ofJson (.obj [(tag, body)]) = .ok t) :
    Layer (.obj [(tag, body)]) t ∧ t.validate = .ok () := by
  by_cases htag : tag ∈ ["any", "enum", "tuple", "sequenceOf", "record", "recordOf"]
  · simp only [List.mem_cons, List.not_mem_nil, or_false] at htag
    rcases htag with rfl | rfl | rfl | rfl | rfl | rfl
    · have hoptions : ofJson (.obj [("any", body)]) = ofOptions body := by cases body <;> rfl
      exact Layer.of_options (hoptions ▸ h)
    · exact Layer.of_values h
    · exact Layer.of_tuple h
    · rw [ofJson_sequenceOf] at h
      obtain ⟨item, hitem, h⟩ := bind_eq_ok_iff.1 h
      exact Layer.of_validated h fun _ => .sequenceOf hitem
    · exact Layer.of_record h
    · rw [ofJson_recordOf] at h
      obtain ⟨item, hitem, h⟩ := bind_eq_ok_iff.1 h
      exact Layer.of_validated h fun _ => .recordOf hitem
  · rw [ofJson_unknownTag body htag] at h
    cases h

/-- **What a form is read as has one layer for each layer of the form,** and no flaw: each layer is
validated as a whole once it has been put together. -/
theorem Layer.of_ofJson {form : Json} {t : TypeSpec} (h : ofJson form = .ok t) :
    Layer form t ∧ t.validate = .ok () := by
  cases form with
  | str name => exact Layer.of_name h
  | arr entries => exact Layer.of_names h
  | obj entries =>
    -- an object form has one key, no more and no less
    cases entries with
    | nil => cases h
    | cons entry rest =>
      obtain ⟨tag, body⟩ := entry
      cases rest with
      | nil => exact Layer.of_tagged h
      | cons other rest => cases h
  | _ => cases h

/-! ### Soundness, completeness and the canonical form -/

/-- What can be read is in the grammar. -/
theorem isForm_of_ofJson {form : Json} {t : TypeSpec} (h : ofJson form = .ok t) : form.IsForm := by
  -- the outermost layer has the rule, and the parts are in the grammar by induction on the spec
  induction t generalizing form with
  | any delayed =>
    cases (Layer.of_ofJson h).1 with
    | any => exact .any
    | options hflag => exact .options hflag
  | single type =>
    cases (Layer.of_ofJson h).1 with
    | single => exact .type type
  | oneOf types =>
    cases (Layer.of_ofJson h).1 with
    | oneOf hnonempty =>
      refine .types (by simpa using hnonempty) fun entry hentry => ?_
      obtain ⟨t, -, rfl⟩ := List.mem_map.1 hentry
      exact ⟨t, rfl⟩
  | oneValueOf values =>
    cases (Layer.of_ofJson h).1 with
    | oneValueOf hnonempty => exact .values hnonempty
  | tuple items ih =>
    cases (Layer.of_ofJson h).1 with
    | tuple hparts =>
      refine .tuple fun form hform => ?_
      obtain ⟨t, ht, hread⟩ := hparts.flip.exists_left_of_mem hform
      exact ih t ht hread
  | sequenceOf item ih =>
    cases (Layer.of_ofJson h).1 with
    | sequenceOf hpart => exact .sequenceOf (ih hpart)
  | record fields ih =>
    cases (Layer.of_ofJson h).1 with
    | record hparts =>
      refine .record fun form hform => ?_
      obtain ⟨entry, hentry, -, hread⟩ := hparts.flip.exists_left_of_mem hform
      exact ih entry hentry hread
  | recordOf item ih =>
    cases (Layer.of_ofJson h).1 with
    | recordOf hpart => exact .recordOf (ih hpart)

/-- Parts that can each be read can be read together. -/
private theorem exists_ofJsonEach {forms : List Json}
    (h : ∀ form ∈ forms, ∃ t, ofJson form = .ok t) : ∃ items, ofJsonEach forms = .ok items := by
  induction forms with
  | nil => exact ⟨[], rfl⟩
  | cons form forms ih =>
    obtain ⟨⟨t, ht⟩, hrest⟩ := List.forall_mem_cons.1 h
    obtain ⟨items, hitems⟩ := ih hrest
    exact ⟨t :: items, by rw [ofJsonEach, ht, hitems]; rfl⟩

private theorem exists_ofJsonFields {forms : Fields Json}
    (h : ∀ form ∈ forms, ∃ t, ofJson form.2 = .ok t) :
    ∃ fields, ofJsonFields forms = .ok fields := by
  induction forms with
  | nil => exact ⟨[], rfl⟩
  | cons form forms ih =>
    obtain ⟨key, form⟩ := form
    obtain ⟨⟨t, ht⟩, hrest⟩ := List.forall_mem_cons.1 h
    obtain ⟨fields, hfields⟩ := ih hrest
    exact ⟨(key, t) :: fields, by rw [ofJsonFields, ht, hfields]; rfl⟩

/-- Whatever is in the grammar can be read. -/
theorem exists_ofJson {form : Json} (h : form.IsForm) : ∃ t, ofJson form = .ok t := by
  -- a container of parts that have been read has no flaw of its own
  have hwhole : ∀ {whole : TypeSpec}, whole.validate = .ok () → validated whole = .ok whole :=
    fun hvalid => validated_eq_ok_iff.2 ⟨hvalid, rfl⟩
  induction h with
  | any => exact ⟨.any false, rfl⟩
  | type t =>
    refine ⟨.single t, ?_⟩
    cases t <;> rfl
  | @types entries hnonempty hnames =>
    obtain ⟨types, rfl⟩ : entries ∈ Set.range (List.map fun t : ValueType => .str t.name) := by
      rw [Set.range_list_map]
      intro entry hentry
      obtain ⟨t, rfl⟩ := hnames entry hentry
      exact ⟨t, rfl⟩
    refine ⟨.oneOf types, ?_⟩
    rw [ofJson, mapM_choiceEntry]
    cases types with
    | nil => exact absurd rfl hnonempty
    | cons t types => rfl
  | @options options hflag =>
    have hread : ofJson (.obj [("any", .obj options)]) = ofOptions (.obj options) := rfl
    rw [hread, ofOptions]
    cases hget : Fields.get? "delayEvaluation" options with
    | none => exact ⟨.any false, rfl⟩
    | some v =>
      obtain ⟨flag, rfl⟩ := hflag v hget
      exact ⟨.any flag, rfl⟩
  | @values values hnonempty =>
    cases values with
    | nil => exact absurd rfl hnonempty
    | cons v values => exact ⟨.oneValueOf (v :: values), rfl⟩
  | @tuple forms _ ih =>
    obtain ⟨items, hitems⟩ := exists_ofJsonEach ih
    have hvalid : (TypeSpec.tuple items).validate = .ok () := by
      refine validateEach_eq_ok_iff.2 fun t ht => ?_
      obtain ⟨form, -, hread⟩ := (ofJsonEach_eq_ok_iff.1 hitems).exists_left_of_mem ht
      exact (Layer.of_ofJson hread).2
    exact ⟨.tuple items, bind_eq_ok_iff.2 ⟨items, hitems, hwhole hvalid⟩⟩
  | @sequenceOf form _ ih =>
    obtain ⟨item, hitem⟩ := ih
    have hvalid : (TypeSpec.sequenceOf item).validate = .ok () := (Layer.of_ofJson hitem).2
    refine ⟨.sequenceOf item, ?_⟩
    rw [ofJson_sequenceOf]
    exact bind_eq_ok_iff.2 ⟨item, hitem, hwhole hvalid⟩
  | @record forms _ ih =>
    obtain ⟨fields, hfields⟩ := exists_ofJsonFields ih
    have hvalid : (TypeSpec.record fields).validate = .ok () := by
      refine validateFields_eq_ok_iff.2 fun entry hentry => ?_
      obtain ⟨form, -, hread⟩ := (ofJsonFields_eq_ok_iff.1 hfields).exists_left_of_mem hentry
      exact (Layer.of_ofJson hread.2).2
    exact ⟨.record fields, bind_eq_ok_iff.2 ⟨fields, hfields, hwhole hvalid⟩⟩
  | @recordOf form _ ih =>
    obtain ⟨item, hitem⟩ := ih
    have hvalid : (TypeSpec.recordOf item).validate = .ok () := (Layer.of_ofJson hitem).2
    refine ⟨.recordOf item, ?_⟩
    rw [ofJson_recordOf]
    exact bind_eq_ok_iff.2 ⟨item, hitem, hwhole hvalid⟩

/-- What has been read is written in the canonical form. -/
theorem toJson_of_ofJson {form : Json} {t : TypeSpec} (h : ofJson form = .ok t) :
    t.toJson = form.canonical := by
  induction t generalizing form with
  | any delayed =>
    cases (Layer.of_ofJson h).1 with
    | any => rfl
    | @options options hflag =>
      rw [Json.canonical]
      cases Json.delayFlag options <;> rfl
  | single type =>
    cases (Layer.of_ofJson h).1 with
    | single => rfl
  | oneOf types =>
    cases (Layer.of_ofJson h).1 with
    | oneOf hnonempty => rfl
  | oneValueOf values =>
    cases (Layer.of_ofJson h).1 with
    | oneValueOf hnonempty => rfl
  | tuple items ih =>
    cases (Layer.of_ofJson h).1 with
    | @tuple forms _ hparts =>
      have heach : toJsonEach items = Json.canonicalEach forms := by
        -- the tuple as a whole has no place in the induction on its items
        clear h
        induction hparts with
        | nil => rfl
        | cons hread _ ihrest =>
          obtain ⟨ihfirst, ihothers⟩ := List.forall_mem_cons.1 ih
          rw [toJsonEach, Json.canonicalEach, ihfirst hread, ihrest ihothers]
      rw [toJson, Json.canonical, heach]
  | sequenceOf item ih =>
    cases (Layer.of_ofJson h).1 with
    | sequenceOf hpart => rw [toJson, Json.canonical, ih hpart]
  | record fields ih =>
    cases (Layer.of_ofJson h).1 with
    | @record forms _ hparts =>
      have heach : toJsonFields fields = Json.canonicalFields forms := by
        clear h
        induction hparts with
        | nil => rfl
        | cons hread _ ihrest =>
          obtain ⟨ihfirst, ihothers⟩ := List.forall_mem_cons.1 ih
          obtain ⟨hkey, hread⟩ := hread
          rw [toJsonFields, Json.canonicalFields, ihfirst hread, ihrest ihothers, hkey]
      rw [toJson, Json.canonical, heach]
  | recordOf item ih =>
    cases (Layer.of_ofJson h).1 with
    | recordOf hpart => rw [toJson, Json.canonical, ih hpart]

/-- **The reader of specs accepts exactly the grammar.** A value that is no form is refused for a
flaw, and the error names no interpreter. What a form is read as has no flaw itself and is written
in the canonical form of what was read. -/
theorem read_grammar (form : Json) :
    ((∃ t, read form = .ok t) ↔ form.IsForm) ∧
    (¬ form.IsForm → ∃ e, read form = .error e ∧ e.kind = .invalidTypeSpec ∧ e.id = none) ∧
    ∀ t, read form = .ok t → t.validate = .ok () ∧ t.toJson = form.canonical := by
  rw [read]
  cases hread : ofJson form with
  | ok t =>
    have hform : form.IsForm := isForm_of_ofJson hread
    refine ⟨⟨fun _ => hform, fun _ => ⟨t, rfl⟩⟩, fun hnot => absurd hform hnot, ?_⟩
    rintro _ ⟨⟩
    exact ⟨(Layer.of_ofJson hread).2, toJson_of_ofJson hread⟩
  | error flaw =>
    have hform : ¬ form.IsForm := by
      intro hform
      obtain ⟨t, ht⟩ := exists_ofJson hform
      rw [hread] at ht
      cases ht
    refine ⟨⟨?_, fun h => absurd h hform⟩, fun _ => ⟨.flawed flaw, rfl, rfl, rfl⟩, ?_⟩
    · rintro ⟨t, ⟨⟩⟩
    · rintro t ⟨⟩

example :
    (Json.obj [("tuple", .arr [.obj [("any", .obj [("note", .null)])],
      .obj [("enum", .arr [.obj [("any", .obj [])]])]])]).canonical =
    .obj [("tuple", .arr [.str "any", .obj [("enum", .arr [.obj [("any", .obj [])]])]])] := rfl

end TypeSpec

end SigilExpr
