import SigilExpr.Error
import SigilExpr.Proofs.Resolving

/-!
# Reading the form that a spec is written in

The form of a spec is read back as the spec, with everything in its place, if the spec has no flaw;
if it has, reading finds the flaw that validation finds. So no form is read as another kind of spec,
and it makes no difference that a reader checks every level of a form as it goes, from the innermost
outwards, while validation goes through the spec once (`TypeSpec.read_toJson`).

What carries the induction is that to read the form of a spec is to validate it
(`TypeSpec.ofJson_toJson`). The parts of a container have been validated by the time it is looked at
as a whole, and a second look at them finds nothing new (`TypeSpec.bind_validated`).
-/

namespace SigilExpr.TypeSpec

/-! ### Parts -/

/-- The names of types are read back as the types. -/
theorem mapM_choiceEntry (types : List ValueType) :
    (types.map fun t => Json.str t.name).mapM choiceEntry = .ok types := by
  induction types with
  | nil => rfl
  | cons t types ih =>
    have hfirst : choiceEntry (.str t.name) = .ok t := by
      rw [choiceEntry, namedType, ValueType.ofName?_name]
    rw [List.map_cons, List.mapM_cons, hfirst, ih]
    rfl

/-- To read forms from left to right is to validate the specs from left to right. -/
theorem ofJsonEach_toJsonEach {ts : List TypeSpec} (h : ∀ t ∈ ts, ofJson t.toJson = t.validated) :
    ofJsonEach (toJsonEach ts) = (do validateEach ts; return ts) := by
  induction ts with
  | nil => rfl
  | cons t ts ih =>
    obtain ⟨hfirst, hrest⟩ := List.forall_mem_cons.1 h
    rw [toJsonEach, ofJsonEach, hfirst, ih hrest, validateEach, validated]
    cases t.validate with
    | error flaw => rfl -- the others are not looked at
    | ok _ => cases validateEach ts <;> rfl

/-- To read forms under keys is to validate the specs in the order of the keys. -/
theorem ofJsonFields_toJsonFields {fields : List (String × TypeSpec)}
    (h : ∀ entry ∈ fields, ofJson entry.2.toJson = entry.2.validated) :
    ofJsonFields (toJsonFields fields) = (do validateFields fields; return fields) := by
  induction fields with
  | nil => rfl
  | cons entry fields ih =>
    obtain ⟨key, t⟩ := entry
    obtain ⟨hfirst, hrest⟩ := List.forall_mem_cons.1 h
    rw [toJsonFields, ofJsonFields, hfirst, ih hrest, validateFields, validated]
    cases t.validate with
    | error flaw => rfl
    | ok _ => cases validateFields fields <;> rfl

/-- Parts that were found valid are not validated once more with the container: if all that there is
to find in a container is found in its parts, reading the parts decides. -/
theorem bind_validated {α : Type} {parts : α} {found : Except Flaw Unit} (whole : α → TypeSpec)
    (h : (whole parts).validate = found) :
    ((do found; return parts : Except Flaw α) >>= fun ps => validated (whole ps)) =
      validated (whole parts) := by
  rw [validated, h]
  cases found with
  | error flaw => rfl
  | ok _ =>
    show validated (whole parts) = _
    rw [validated, h]

/-! ### Specs -/

/-- What stands under `sequenceOf` may be any form. -/
theorem ofJson_sequenceOf (form : Json) :
    ofJson (.obj [("sequenceOf", form)]) = ofJson form >>= fun t => validated (.sequenceOf t) := by
  cases form <;> rfl

/-- So it may under `recordOf`. -/
theorem ofJson_recordOf (form : Json) :
    ofJson (.obj [("recordOf", form)]) = ofJson form >>= fun t => validated (.recordOf t) := by
  cases form <;> rfl

/-- **To read the form of a spec is to validate the spec,** whatever is nested in it. -/
theorem ofJson_toJson (t : TypeSpec) : ofJson t.toJson = t.validated := by
  induction t with
  | any delayed => cases delayed <;> rfl
  | single type => cases type <;> rfl
  | oneOf types =>
    -- no name of a type is refused, so an empty choice is all there is to find
    rw [toJson, ofJson, mapM_choiceEntry]
    rfl
  | oneValueOf options => rfl
  | tuple items ih =>
    rw [toJson, ofJson]
    show (ofJsonEach (toJsonEach items) >>= fun ts => validated (.tuple ts)) = _
    -- the items have been validated by now, and the tuple has nothing else to validate
    rw [ofJsonEach_toJsonEach ih]
    exact bind_validated .tuple rfl
  | sequenceOf item ih =>
    rw [toJson, ofJson_sequenceOf, ih]
    exact bind_validated .sequenceOf rfl
  | record fields ih =>
    rw [toJson, ofJson]
    show (ofJsonFields (toJsonFields fields) >>= fun ts => validated (.record ts)) = _
    rw [ofJsonFields_toJsonFields ih]
    exact bind_validated .record rfl
  | recordOf item ih =>
    rw [toJson, ofJson_recordOf, ih]
    exact bind_validated .recordOf rfl

/-- **Writing a spec and reading it back is validation.** What is read is the spec itself, with the
same kinds of specs, the same order, repetitions, options and flags, if validation finds no flaw in
it; otherwise it is the error of the very flaw that validation finds, which names no interpreter. -/
theorem read_toJson (t : TypeSpec) :
    read t.toJson = (t.validate.mapError EvalError.flawed).map fun _ => t := by
  rw [read, ofJson_toJson, validated]
  cases t.validate <;> rfl

end SigilExpr.TypeSpec
