import SigilExpr.Json.Path
import SigilExpr.Proofs.Course.Ending

/-!
# Paths as addresses

A value is a tree, and the way from it down to a part of it is a list of steps (`Path.Step`), each
to the field under a key or to the item at an index (`Json.Reaches`). A path is such a way as a
text: the steps with dots between them.

To look up a path that is not empty is to go down a way that the path spells, segment by segment
(`Json.getPath?_eq_some_iff`). A segment spells a key as it is and an index in decimal, so which of
the two it is read as depends on the container that it is looked up in; an index has more than one
spelling, as zeros and one plus sign may stand in front of it (`Path.Spells`). The empty path is set
apart: it stands for the value itself and not for the field under the empty key, although the text
of the way to this field is empty as well. That is why paths compose only if neither of them is
empty.
-/

namespace SigilExpr

namespace Path

/-! ### Segments -/

/-- A path is cut into the texts between its dots. -/
theorem split_eq_splitOn (path : List Char) : split path = path.splitOn '.' := by
  induction path with
  | nil => rw [split, List.splitOn_nil]
  | cons c rest ih =>
    rw [split, ih, List.splitOn_cons_eq_if_modifyHead]
    by_cases hc : c = '.'
    · rw [if_pos hc, if_pos (beq_iff_eq.2 hc)]
    · rw [if_neg hc, if_neg (mt beq_iff_eq.1 hc)]
      -- there is a first text for `c` to join
      obtain ⟨segment, more, hsplit⟩ := List.exists_cons_of_ne_nil (List.splitOn_ne_nil '.' rest)
      rw [hsplit, List.modifyHead_cons]

/-- No dot is left in a segment. -/
theorem dot_notMem_of_mem_split {path segment : List Char} (h : segment ∈ split path) :
    '.' ∉ segment := by
  induction path generalizing segment with
  | nil =>
    obtain rfl := List.mem_singleton.1 h
    exact List.not_mem_nil
  | cons c rest ih =>
    rw [split] at h
    by_cases hc : c = '.'
    · rw [if_pos hc] at h
      rcases List.mem_cons.1 h with rfl | hrest
      · exact List.not_mem_nil
      · exact ih hrest
    · rw [if_neg hc] at h
      obtain ⟨first, more, hsplit⟩ := List.exists_cons_of_ne_nil (split_ne_nil rest)
      rw [hsplit] at h ih
      rcases List.mem_cons.1 h with rfl | hmore
      · intro hdot
        rcases List.mem_cons.1 hdot with heq | hfirst
        · exact hc heq.symm
        · exact ih List.mem_cons_self hfirst
      · exact ih (List.mem_cons_of_mem _ hmore)

/-- The digits spell the number in decimal, with or without zeros in front. -/
structure Numeral (digits : List Char) (n : Nat) : Prop where
  nonempty : digits ≠ []
  decimal : ∀ c ∈ digits, c.isDigit = true
  value : Nat.ofDigitChars 10 digits 0 = n

theorem decimal?_eq_some_iff {digits : List Char} {n : Nat} :
    decimal? digits = some n ↔ Numeral digits n := by
  have hguard : (digits.isEmpty || digits.any (fun c => !c.isDigit)) = false ↔
      digits ≠ [] ∧ ∀ c ∈ digits, c.isDigit = true := by
    simp
  rw [decimal?]
  constructor
  · intro h
    split at h
    · cases h
    · rename_i hdigits
      obtain ⟨hnonempty, hdecimal⟩ := hguard.1 (by simpa using hdigits)
      exact ⟨hnonempty, hdecimal, Option.some.inj h⟩
  · intro h
    rw [hguard.2 ⟨h.nonempty, h.decimal⟩]
    exact congrArg some h.value

/-- The decimal digits of a number spell it. -/
theorem numeral_digits (n : Nat) : Numeral (Decimal.digits n) n where
  nonempty := Nat.toDigits_ne_nil
  decimal _ hc := Nat.isDigit_of_mem_toDigits (by decide) (by decide) hc
  value := Nat.ofDigitChars_toDigits (by decide) (by decide)

/-- An index is spelled in decimal, with or without a plus sign, and is a number of 64 bits. -/
theorem index?_eq_some_iff {segment : List Char} {n : Nat} :
    index? segment = some n ↔
      (Numeral segment n ∨ ∃ digits, segment = '+' :: digits ∧ Numeral digits n) ∧
        n < Nat.pow 2 64 := by
  unfold index?
  rw [Option.filter_eq_some_iff, decimal?_eq_some_iff, decide_eq_true_iff]
  refine and_congr_left fun _ => ?_
  split
  · rename_i digits
    -- the sign is no digit
    have hsigned : ¬ Numeral ('+' :: digits) n := by
      intro h
      exact absurd (h.decimal '+' List.mem_cons_self) (by decide)
    simp [hsigned]
  · rename_i hplain
    have hunsigned : ¬ ∃ digits, segment = '+' :: digits ∧ Numeral digits n := by
      rintro ⟨digits, rfl, -⟩
      exact hplain digits rfl
    simp [hunsigned]

/-! ### Steps -/

/-- A step from a container to one of its parts. An index is a machine word, as no array has more
items than these can count. -/
inductive Step where
  /-- To the field under a key. -/
  | key (name : String)
  /-- To the item at an index. -/
  | index (i : UInt64)

/-- The text of a step: the key itself, and the index in decimal. -/
def Step.text : Step → String
  | .key name => name
  | .index i => String.ofList (Decimal.digits i.toNat)

/-- The path with these steps. -/
def joined (steps : List Step) : String :=
  ".".intercalate (steps.map Step.text)

/-- A segment that can be read as a step. -/
inductive Spells : List Char → Step → Prop where
  /-- Every text is the spelling of one key. -/
  | key (name : String) : Spells name.toList (.key name)
  /-- Digits, for an index. -/
  | index {digits : List Char} {i : UInt64} (h : Numeral digits i.toNat) : Spells digits (.index i)
  /-- Digits after a plus sign, for an index. -/
  | signed {digits : List Char} {i : UInt64} (h : Numeral digits i.toNat) :
    Spells ('+' :: digits) (.index i)

/-- The text of a step spells it. -/
theorem spells_text (step : Step) : Spells step.text.toList step := by
  cases step with
  | key name => exact .key name
  | index i =>
    rw [Step.text, String.toList_ofList]
    exact .index (numeral_digits i.toNat)

/-- The steps can be written as a path: there are some, no key has a dot in it, and they are not the
empty key alone, whose text is that of no steps at all. -/
structure Writable (steps : List Step) : Prop where
  nonempty : steps ≠ []
  notEmptyKey : steps ≠ [.key ""]
  undotted : ∀ name, .key name ∈ steps → '.' ∉ name.toList

namespace Writable

variable {steps : List Step}

theorem dot_notMem_text (h : Writable steps) {step : Step} (hm : step ∈ steps) :
    '.' ∉ step.text.toList := by
  cases step with
  | key name => exact h.undotted name hm
  | index i =>
    rw [Step.text, String.toList_ofList]
    intro hdot
    exact absurd ((numeral_digits i.toNat).decimal '.' hdot) (by decide)

/-- What was joined is cut into the texts of the steps. -/
theorem splitOn_joined (h : Writable steps) :
    (joined steps).toList.splitOn '.' = steps.map fun step => step.text.toList := by
  have hjoined : (joined steps).toList =
      ['.'].intercalate (steps.map fun step => step.text.toList) := by
    rw [joined, String.toList_intercalate, List.map_map]
    rfl
  rw [hjoined]
  refine List.splitOn_intercalate '.' ?_ (by simpa using h.nonempty)
  intro segment hsegment
  obtain ⟨step, hstep, rfl⟩ := List.mem_map.1 hsegment
  exact h.dot_notMem_text hstep

theorem joined_ne_empty (h : Writable steps) : joined steps ≠ "" := by
  intro hjoined
  -- the empty text has one segment, which is empty, so there is one step with the empty text
  have hsegments : steps.map (fun step => step.text.toList) = [[]] := by
    rw [← h.splitOn_joined, hjoined]
    rfl
  obtain ⟨step, rfl, htext⟩ := List.map_eq_singleton_iff.1 hsegments
  cases step with
  | key name =>
    obtain rfl : name = "" := String.toList_eq_nil_iff.1 htext
    exact h.notEmptyKey rfl
  | index i =>
    rw [Step.text, String.toList_ofList] at htext
    exact (numeral_digits i.toNat).nonempty htext

/-- Whatever a path spells that is not empty can be written. -/
theorem of_spells {path : String} (hpath : path ≠ "")
    (h : List.Forall₂ Spells (path.toList.splitOn '.') steps) : Writable steps where
  nonempty := by
    rintro rfl
    exact List.splitOn_ne_nil '.' path.toList (List.forall₂_nil_right_iff.1 h)
  notEmptyKey := by
    rintro rfl
    obtain ⟨segment, rest, hspells, hrest, hsplit⟩ := List.forall₂_cons_right_iff.1 h
    obtain rfl := List.forall₂_nil_right_iff.1 hrest
    cases hspells
    -- the empty key is spelled by the empty text, and a single segment is the whole path
    have hempty : path.toList = [] :=
      calc path.toList
        _ = ['.'].intercalate (path.toList.splitOn '.') := (List.intercalate_splitOn '.').symm
        _ = ['.'].intercalate [[]] := by rw [hsplit]; rfl
        _ = [] := rfl
    exact hpath (String.toList_eq_nil_iff.1 hempty)
  undotted := by
    intro name hname
    obtain ⟨segment, hsegment, hspells⟩ := h.exists_left_of_mem hname
    cases hspells
    rw [← split_eq_splitOn] at hsegment
    exact dot_notMem_of_mem_split hsegment

end Writable

end Path

namespace Json

/-! ### Ways down -/

/-- A step leads from a container to a part of it. -/
inductive Leads : Json → Path.Step → Json → Prop where
  | key {name : String} {fields : Fields Json} {w : Json} (h : Fields.get? name fields = some w) :
    Leads (.obj fields) (.key name) w
  | index {i : UInt64} {items : List Json} {w : Json} (h : items[i.toNat]? = some w) :
    Leads (.arr items) (.index i) w

/-- Steps lead from a value to one that stands in it, one after the other. -/
inductive Reaches : Json → List Path.Step → Json → Prop where
  | here (v : Json) : Reaches v [] v
  | step {v w x : Json} {step : Path.Step} {steps : List Path.Step} (first : v.Leads step w)
    (rest : Reaches w steps x) : Reaches v (step :: steps) x

/-- **One segment** leads where a step leads that it spells. The container decides which step. -/
theorem child?_eq_some_iff {v w : Json} {segment : List Char} :
    v.child? segment = some w ↔ ∃ step, Path.Spells segment step ∧ v.Leads step w := by
  constructor
  · intro h
    cases v with
    | obj fields =>
      -- an object takes the segment for a key, whatever it looks like
      refine ⟨.key (String.ofList segment), ?_, .key h⟩
      have hkey := Path.Spells.key (String.ofList segment)
      rwa [String.toList_ofList] at hkey
    | arr items =>
      obtain ⟨n, hindex, hitem⟩ := Option.bind_eq_some_iff.1 h
      obtain ⟨hspelled, hlt⟩ := Path.index?_eq_some_iff.1 hindex
      -- what an array takes it for is small enough to be the value of a word
      have hword : (UInt64.ofNat n).toNat = n := UInt64.toNat_ofNat_of_lt' hlt
      refine ⟨.index (UInt64.ofNat n), ?_, .index (by rwa [hword])⟩
      rcases hspelled with hplain | ⟨digits, rfl, hsigned⟩
      · exact .index (by rwa [hword])
      · exact .signed (by rwa [hword])
    | _ => cases h
  · rintro ⟨step, hspells, hleads⟩
    cases hleads with
    | @key name fields _ hfield =>
      cases hspells
      rw [child?, String.ofList_toList, hfield]
    | @index i items _ hitem =>
      have hindex : Path.index? segment = some i.toNat := by
        refine Path.index?_eq_some_iff.2 ⟨?_, i.toNat_lt⟩
        cases hspells with
        | index hplain => exact .inl hplain
        | signed hsigned => exact .inr ⟨_, rfl, hsigned⟩
      rw [child?, hindex]
      exact hitem

/-- Segments lead where steps lead that they spell one by one. -/
theorem descend?_eq_some_iff {segments : List (List Char)} {v x : Json} :
    v.descend? segments = some x ↔
      ∃ steps, List.Forall₂ Path.Spells segments steps ∧ v.Reaches steps x := by
  -- the steps are taken in the order of the segments, each from where the last one has led
  induction segments generalizing v with
  | nil =>
    constructor
    · intro h
      obtain rfl : v = x := Option.some.inj h
      exact ⟨[], .nil, .here v⟩
    · rintro ⟨steps, hspells, hreaches⟩
      cases hspells
      cases hreaches
      rfl
  | cons segment segments ih =>
    rw [descend?, Option.bind_eq_some_iff]
    constructor
    · rintro ⟨w, hfirst, hrest⟩
      obtain ⟨step, hspells, hleads⟩ := child?_eq_some_iff.1 hfirst
      obtain ⟨steps, hothers, hreaches⟩ := ih.1 hrest
      exact ⟨step :: steps, .cons hspells hothers, .step hleads hreaches⟩
    · rintro ⟨steps, hspells, hreaches⟩
      cases hspells with
      | cons hfirst hothers =>
        cases hreaches with
        | step hleads hrest =>
          exact ⟨_, child?_eq_some_iff.2 ⟨_, hfirst, hleads⟩, ih.2 ⟨_, hothers, hrest⟩⟩

/-- A path that is not empty is looked up segment by segment. -/
theorem getPath?_of_ne_empty {path : String} (h : path ≠ "") (v : Json) :
    v.getPath? path = v.descend? (Path.split path.toList) := by
  have hnonempty : path.toList.isEmpty = false := by simpa using h
  rw [getPath?, at?, Path.segments, hnonempty]
  rfl

/-- **A path leads where the ways lead that it spells.** -/
theorem getPath?_eq_some_iff {path : String} (h : path ≠ "") {root x : Json} :
    root.getPath? path = some x ↔
      ∃ steps, List.Forall₂ Path.Spells (path.toList.splitOn '.') steps ∧ root.Reaches steps x := by
  rw [getPath?_of_ne_empty h, Path.split_eq_splitOn]
  exact descend?_eq_some_iff

/-- A dot between two paths is where the second goes on from where the first has led. -/
theorem getPath?_append {p q : String} (hp : p ≠ "") (hq : q ≠ "") (root : Json) :
    root.getPath? (p ++ "." ++ q) = (root.getPath? p).bind fun v => v.getPath? q := by
  have hjoined : p ++ "." ++ q ≠ "" := by simp
  have hcut : (p ++ "." ++ q).toList = p.toList ++ '.' :: q.toList := by simp
  simp only [getPath?_of_ne_empty hjoined, getPath?_of_ne_empty hp, getPath?_of_ne_empty hq]
  rw [hcut, Path.split_append_dot, descend?_append]

/-- **Paths compose and address every part of a value.**

* A path of two parts, neither of them empty, leads where the second part leads from where the first
  leads, and misses if one of them does.
* Whatever some steps lead to is found at the path with these steps, if they can be written as one.
* Whatever is found at a path that is not empty is reached by such steps: the path spells them, one
  for each of the texts between its dots. -/
theorem getPath?_addresses (root : Json) :
    (∀ p q, p ≠ "" → q ≠ "" →
      root.getPath? (p ++ "." ++ q) = (root.getPath? p).bind fun v => v.getPath? q) ∧
    (∀ steps x, Path.Writable steps → root.Reaches steps x →
      root.getPath? (Path.joined steps) = some x) ∧
    ∀ path x, path ≠ "" → root.getPath? path = some x →
      ∃ steps, Path.Writable steps ∧
        List.Forall₂ Path.Spells (path.toList.splitOn '.') steps ∧ root.Reaches steps x := by
  refine ⟨fun p q hp hq => getPath?_append hp hq root, ?_, ?_⟩
  · intro steps x hsteps hreaches
    have hspells : List.Forall₂ Path.Spells (steps.map fun step => step.text.toList) steps := by
      rw [List.forall₂_map_left_iff, List.forall₂_same]
      exact fun step _ => Path.spells_text step
    refine (getPath?_eq_some_iff hsteps.joined_ne_empty).2 ⟨steps, ?_, hreaches⟩
    rwa [hsteps.splitOn_joined]
  · intro path x hpath hfound
    obtain ⟨steps, hspells, hreaches⟩ := (getPath?_eq_some_iff hpath).1 hfound
    exact ⟨steps, .of_spells hpath hspells, hspells, hreaches⟩

/-- The field under the empty key is not at the empty path. -/
example : (Json.obj [("", .null)]).getPath? "" = some (.obj [("", .null)]) := rfl

/-- Items, one of them an object with an empty key. -/
def inventory : Json :=
  .obj [("items", .arr [.null, .obj [("", .bool true), ("n", .num (.whole 7))]])]

/-- What the inventory holds is found at the texts of the ways to it, and at other spellings. -/
theorem getPath?_inventory :
    inventory.getPath? ("items" ++ "." ++ "+01.n") =
      (inventory.getPath? "items").bind (fun v => v.getPath? "+01.n") ∧
    inventory.getPath? "items.1." = some (.bool true) ∧
    ∃ steps, Path.Writable steps ∧
      List.Forall₂ Path.Spells ["items".toList, "+01".toList, "n".toList] steps ∧
      inventory.Reaches steps (.num (.whole 7)) := by
  obtain ⟨hcompose, hreached, hfound⟩ := getPath?_addresses inventory
  refine ⟨hcompose "items" "+01.n" (by decide) (by decide), ?_, ?_⟩
  · have hwritable : Path.Writable [.key "items", .index 1, .key ""] := by
      refine ⟨by simp, by simp, fun name hname => ?_⟩
      have hname : name = "items" ∨ name = "" := by simpa using hname
      rcases hname with rfl | rfl <;> decide
    have hway : inventory.Reaches [.key "items", .index 1, .key ""] (.bool true) :=
      .step (.key rfl) (.step (.index rfl) (.step (.key rfl) (.here _)))
    have htext : Path.joined [.key "items", .index 1, .key ""] = "items.1." := by decide +kernel
    rw [← htext]
    exact hreached _ _ hwritable hway
  · exact hfound "items.+01.n" _ (by decide) rfl

end Json

end SigilExpr
