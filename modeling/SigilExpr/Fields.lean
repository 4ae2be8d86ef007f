/-!
# Key-ordered fields

A map from strings is a list of pairs in which each key stands once and keys ascend by code point,
the order in which every answer of this library lists them. JSON objects, declared record fields,
the bindings of a scope and the interpreters of a registry all have this form, so the operations are
generic in the payload.

`Fields.insert` replaces the entry of a key that is already there and otherwise puts the new entry
before the first larger key. The lookup laws `get?_insert_self` and `get?_insert_of_ne` therefore
hold of every list, ordered or not. That the keys ascend is `Fields.Ordered`: setting a payload
keeps it (`ordered_insert`), so fields that are built from entries have it (`ordered_ofList`).
-/

namespace SigilExpr

/-- Entries under string keys. -/
abbrev Fields (α : Type) := List (String × α)

namespace Fields

variable {α β : Type}

/-- The payload of the first entry under `key`. -/
def get? (key : String) : Fields α → Option α
  | [] => none
  | (k, a) :: rest => if k = key then some a else get? key rest

/-- Whether some entry stands under `key`. -/
def contains (key : String) (fields : Fields α) : Bool :=
  (fields.get? key).isSome

/-- The payload under `key`, or `fallback` if there is none. -/
def getD (key : String) (fallback : α) (fields : Fields α) : α :=
  (fields.get? key).getD fallback

/-- Puts `a` before the first key larger than `key`. -/
def place (key : String) (a : α) : Fields α → Fields α
  | [] => [(key, a)]
  | (k, b) :: rest => if key < k then (key, a) :: (k, b) :: rest else (k, b) :: place key a rest

/-- Puts `a` in the place of the first entry under `key`. -/
def replace (key : String) (a : α) : Fields α → Fields α
  | [] => []
  | (k, b) :: rest => if k = key then (k, a) :: rest else (k, b) :: replace key a rest

/-- Sets the payload of `key`: an entry that is there is replaced, a new one takes its place in the
order of keys. -/
def insert (key : String) (a : α) (fields : Fields α) : Fields α :=
  if fields.contains key then fields.replace key a else fields.place key a

/-- The fields with these entries; of two under one key the later wins. -/
def ofList (entries : List (String × α)) : Fields α :=
  entries.foldl (fun fields entry => fields.insert entry.1 entry.2) []

/-- The keys, in order. -/
def keys (fields : Fields α) : List String :=
  fields.map Prod.fst

/-- The payloads, in the order of their keys. -/
def values (fields : Fields α) : List α :=
  fields.map Prod.snd

/-! ### Lookup after an update -/

@[simp] theorem get?_nil (key : String) : get? key ([] : Fields α) = none := rfl

theorem get?_cons (key k : String) (a : α) (rest : Fields α) :
    get? key ((k, a) :: rest) = if k = key then some a else get? key rest := rfl

theorem get?_place_self (key : String) (a : α) (fields : Fields α)
    (h : get? key fields = none) : get? key (place key a fields) = some a := by
  induction fields with
  | nil => simp [place, get?]
  | cons entry rest ih =>
    obtain ⟨k, b⟩ := entry
    by_cases hk : k = key
    · simp [get?, hk] at h
    · simp only [get?, hk, if_false] at h
      by_cases hlt : key < k <;> simp [place, hlt, get?, hk, ih h]

theorem get?_place_of_ne {key other : String} (hne : key ≠ other) (a : α) (fields : Fields α) :
    get? other (place key a fields) = get? other fields := by
  induction fields with
  | nil => simp [place, get?, hne]
  | cons entry rest ih =>
    obtain ⟨k, b⟩ := entry
    by_cases hlt : key < k
    · simp [place, hlt, get?, hne]
    · simp [place, hlt, get?, ih]

theorem get?_replace_self (key : String) (a : α) (fields : Fields α) {b : α}
    (h : get? key fields = some b) : get? key (replace key a fields) = some a := by
  induction fields with
  | nil => simp at h
  | cons entry rest ih =>
    obtain ⟨k, c⟩ := entry
    by_cases hk : k = key
    · simp [replace, get?, hk]
    · simp only [get?, hk, if_false] at h
      simp [replace, get?, hk, ih h]

theorem get?_replace_of_ne {key other : String} (hne : key ≠ other) (a : α) (fields : Fields α) :
    get? other (replace key a fields) = get? other fields := by
  induction fields with
  | nil => rfl
  | cons entry rest ih =>
    obtain ⟨k, b⟩ := entry
    by_cases hk : k = key
    · subst hk
      simp [replace, get?, hne]
    · simp [replace, get?, hk, ih]

@[simp] theorem get?_insert_self (key : String) (a : α) (fields : Fields α) :
    get? key (insert key a fields) = some a := by
  unfold insert contains
  cases h : get? key fields with
  | none => simpa using get?_place_self key a fields h
  | some b => simpa using get?_replace_self key a fields h

theorem get?_insert_of_ne {key other : String} (hne : key ≠ other) (a : α) (fields : Fields α) :
    get? other (insert key a fields) = get? other fields := by
  unfold insert
  split
  · exact get?_replace_of_ne hne a fields
  · exact get?_place_of_ne hne a fields

/-- Replacing an entry leaves the keys as they are. -/
@[simp] theorem keys_replace (key : String) (a : α) (fields : Fields α) :
    keys (replace key a fields) = keys fields := by
  induction fields with
  | nil => rfl
  | cons entry rest ih =>
    obtain ⟨k, b⟩ := entry
    by_cases hk : k = key
    · simp [replace, hk, keys]
    · simpa [replace, hk, keys] using ih

/-! ### Order of keys -/

/-- Each key is smaller than every key after it. -/
def Ordered (fields : Fields α) : Prop :=
  fields.keys.Pairwise (· < ·)

theorem get?_eq_none_iff {key : String} {fields : Fields α} :
    get? key fields = none ↔ key ∉ keys fields := by
  induction fields with
  | nil => simp [keys]
  | cons entry rest ih =>
    obtain ⟨k, a⟩ := entry
    by_cases hk : k = key
    · simp [get?, keys, hk]
    · have hne : key ≠ k := fun h => hk h.symm
      simp only [get?_cons, hk, if_false, ih, keys, List.map_cons, List.mem_cons, hne, false_or]

theorem mem_keys_place {key k : String} {a : α} {fields : Fields α} :
    k ∈ keys (place key a fields) ↔ k = key ∨ k ∈ keys fields := by
  induction fields with
  | nil => simp [place, keys]
  | cons entry rest ih =>
    obtain ⟨l, b⟩ := entry
    by_cases hlt : key < l
    · simp [place, hlt, keys]
    · have : k ∈ keys (place key a ((l, b) :: rest)) ↔ k = l ∨ k ∈ keys (place key a rest) := by
        simp [place, hlt, keys]
      rw [this, ih]
      simp only [keys, List.map_cons, List.mem_cons]
      exact or_left_comm

/-- A new key takes its place in the order. -/
theorem ordered_place {key : String} {a : α} {fields : Fields α} (hnew : key ∉ keys fields)
    (h : Ordered fields) : Ordered (place key a fields) := by
  induction fields with
  | nil => simp [place, Ordered, keys]
  | cons entry rest ih =>
    obtain ⟨k, b⟩ := entry
    simp only [keys, List.map_cons, List.mem_cons, not_or] at hnew
    obtain ⟨hbelow, hrest⟩ := List.pairwise_cons.1 h
    by_cases hlt : key < k
    · simp only [place, hlt, if_true]
      refine List.pairwise_cons.2 ⟨?_, h⟩
      intro l hl
      rcases List.mem_cons.1 hl with rfl | hl
      · exact hlt
      · exact String.lt_trans hlt (hbelow l hl)
    · -- the key is new, so it is above `k` and goes further down
      have hgt : k < key := by
        rcases String.le_total key k with hle | hle
        · exact absurd (String.le_antisymm hle (String.not_lt.1 hlt)) hnew.1
        · exact String.not_le.1 fun hge => hnew.1 (String.le_antisymm hge hle)
      simp only [place, hlt, if_false]
      refine List.pairwise_cons.2 ⟨?_, ih hnew.2 hrest⟩
      intro l hl
      rcases mem_keys_place.1 hl with rfl | hl
      · exact hgt
      · exact hbelow l hl

/-- Setting a payload keeps the keys in order. -/
theorem ordered_insert (key : String) (a : α) {fields : Fields α} (h : Ordered fields) :
    Ordered (insert key a fields) := by
  unfold insert
  split
  · simpa [Ordered] using h
  · rename_i hc
    refine ordered_place ?_ h
    simpa [contains, get?_eq_none_iff] using hc

/-- Fields that are built from entries are in order. -/
theorem ordered_ofList (entries : List (String × α)) : Ordered (ofList entries) := by
  suffices h : ∀ fields : Fields α, Ordered fields →
      Ordered (entries.foldl (fun fields entry => fields.insert entry.1 entry.2) fields) from
    h [] List.Pairwise.nil
  induction entries with
  | nil => exact fun _ h => h
  | cons entry rest ih => exact fun fields h => ih _ (ordered_insert entry.1 entry.2 h)

/-- The keys of ordered fields are all different. -/
theorem nodup_keys {fields : Fields α} (h : Ordered fields) : (keys fields).Nodup :=
  List.Pairwise.imp (fun hlt => String.ne_of_lt hlt) h

/-! ### Fields as maps -/

theorem get?_append (key : String) (xs ys : Fields α) :
    get? key (xs ++ ys) = (get? key xs).or (get? key ys) := by
  induction xs with
  | nil => rfl
  | cons entry rest ih =>
    obtain ⟨k, a⟩ := entry
    rw [List.cons_append, get?_cons, get?_cons]
    split
    · rfl
    · exact ih

theorem mem_of_get? {key : String} {a : α} {fields : Fields α} (h : get? key fields = some a) :
    (key, a) ∈ fields := by
  induction fields with
  | nil => simp at h
  | cons entry rest ih =>
    obtain ⟨k, b⟩ := entry
    rw [get?_cons] at h
    split at h
    · rename_i hk
      obtain rfl := Option.some.inj h
      exact hk ▸ List.mem_cons_self
    · exact List.mem_cons_of_mem _ (ih h)

/-- Where the keys are all different, lookup finds every entry. -/
theorem get?_eq_some_iff {key : String} {a : α} {fields : Fields α} (h : (keys fields).Nodup) :
    get? key fields = some a ↔ (key, a) ∈ fields := by
  refine ⟨mem_of_get?, fun hm => ?_⟩
  induction fields with
  | nil => simp at hm
  | cons entry rest ih =>
    obtain ⟨k, b⟩ := entry
    rw [keys, List.map_cons, List.nodup_cons] at h
    rw [get?_cons]
    rcases List.mem_cons.1 hm with heq | hm
    · obtain ⟨rfl, rfl⟩ := Prod.mk.inj heq
      rw [if_pos rfl]
    · -- the key stands further down, so it is not the first one
      have hne : k ≠ key := fun hk => h.1 (List.mem_map.2 ⟨_, hm, hk.symm⟩)
      rw [if_neg hne]
      exact ih h.2 hm

/-- The order in which entries are listed makes no difference to lookup. -/
theorem get?_perm {xs ys : Fields α} (h : xs.Perm ys) (hys : (keys ys).Nodup) (key : String) :
    get? key xs = get? key ys := by
  have hxs : (keys xs).Nodup := (h.map Prod.fst).nodup_iff.2 hys
  refine Option.ext fun a => ?_
  rw [get?_eq_some_iff hxs, get?_eq_some_iff hys, h.mem_iff]

private theorem get?_eq_none_of_lt {key : String} {fields : Fields α}
    (h : ∀ k ∈ keys fields, key < k) : get? key fields = none :=
  get?_eq_none_iff.2 fun hm => String.lt_irrefl _ (h key hm)

private theorem le_of_get?_eq {k l : String} {a b : α} {xs ys : Fields α}
    (hxs : Ordered ((k, a) :: xs)) (h : get? l ((k, a) :: xs) = get? l ((l, b) :: ys)) : k ≤ l := by
  refine String.not_lt.1 fun hlt => ?_
  have hnone : get? l ((k, a) :: xs) = none := by
    refine get?_eq_none_of_lt fun key hm => ?_
    rcases List.mem_cons.1 hm with rfl | hm
    · exact hlt
    · exact String.lt_trans hlt ((List.pairwise_cons.1 hxs).1 key hm)
  rw [hnone, get?_cons, if_pos rfl] at h
  exact absurd h (by simp)

/-- **Ordered fields are maps:** those with the same lookups are the same. -/
theorem ordered_ext {xs ys : Fields α} (hxs : Ordered xs) (hys : Ordered ys)
    (h : ∀ key, get? key xs = get? key ys) : xs = ys := by
  induction xs generalizing ys with
  | nil =>
    cases ys with
    | nil => rfl
    | cons y ys =>
      obtain ⟨l, b⟩ := y
      have hfirst := h l
      simp [get?_cons] at hfirst
  | cons x xs ih =>
    obtain ⟨k, a⟩ := x
    cases ys with
    | nil =>
      have hfirst := h k
      simp [get?_cons] at hfirst
    | cons y ys =>
      obtain ⟨l, b⟩ := y
      obtain rfl : k = l := String.le_antisymm (le_of_get?_eq hxs (h l))
        (le_of_get?_eq hys (h k).symm)
      obtain rfl : a = b := by
        have hfirst := h k
        rw [get?_cons, if_pos rfl, get?_cons, if_pos rfl] at hfirst
        exact Option.some.inj hfirst
      obtain ⟨hk, hxs⟩ := List.pairwise_cons.1 hxs
      obtain ⟨hl, hys⟩ := List.pairwise_cons.1 hys
      have hrest : xs = ys := by
        refine ih hxs hys fun key => ?_
        by_cases hkey : k = key
        · -- the first key stands nowhere else
          subst hkey
          rw [get?_eq_none_of_lt hk, get?_eq_none_of_lt hl]
        · have hlater := h key
          rwa [get?_cons, if_neg hkey, get?_cons, if_neg hkey] at hlater
      rw [hrest]

/-! ### An entry between others -/

section

variable {key other : String} {before : Fields α} (after : Fields α)

/-- What stands under other keys does not depend on the entry. -/
theorem get?_between_of_ne (hne : key ≠ other) (a : α) :
    get? other (before ++ (key, a) :: after) = get? other (before ++ after) := by
  rw [get?_append, get?_append, get?_cons, if_neg hne]

theorem get?_between_self (hbefore : get? key before = none) (a : α) :
    get? key (before ++ (key, a) :: after) = some a := by
  rw [get?_append, hbefore, Option.none_or, get?_cons, if_pos rfl]

theorem replace_between_self (hbefore : get? key before = none) (a b : α) :
    replace key b (before ++ (key, a) :: after) = before ++ (key, b) :: after := by
  induction before with
  | nil => simp [replace]
  | cons entry rest ih =>
    obtain ⟨k, c⟩ := entry
    rw [get?_cons] at hbefore
    split at hbefore
    · exact absurd hbefore (by simp)
    · rename_i hk
      simp [replace, hk, ih hbefore]

/-- Setting the payload of the entry leaves it between the others. -/
theorem insert_between_self (hbefore : get? key before = none) (a b : α) :
    insert key b (before ++ (key, a) :: after) = before ++ (key, b) :: after := by
  have hset : contains key (before ++ (key, a) :: after) = true := by
    rw [contains, get?_between_self after hbefore]
    rfl
  rw [insert, if_pos hset, replace_between_self after hbefore]

theorem exists_replace_between (hne : key ≠ other) (hbefore : get? key before = none) (b : α) :
    ∃ before' after', get? key before' = none ∧
      ∀ a, replace other b (before ++ (key, a) :: after) = before' ++ (key, a) :: after' := by
  induction before with
  | nil => exact ⟨[], replace other b after, rfl, fun a => by simp [replace, hne]⟩
  | cons entry rest ih =>
    obtain ⟨k, c⟩ := entry
    rw [get?_cons] at hbefore
    split at hbefore
    · exact absurd hbefore (by simp)
    · rename_i hk
      by_cases hother : k = other
      · refine ⟨(k, b) :: rest, after, ?_, fun a => by simp [replace, hother]⟩
        rw [get?_cons, if_neg hk, hbefore]
      · obtain ⟨before', after', hbefore', heq⟩ := ih hbefore
        refine ⟨(k, c) :: before', after', ?_, fun a => by simp [replace, hother, heq]⟩
        rw [get?_cons, if_neg hk, hbefore']

theorem exists_place_between (hne : key ≠ other) (hbefore : get? key before = none) (b : α) :
    ∃ before' after', get? key before' = none ∧
      ∀ a, place other b (before ++ (key, a) :: after) = before' ++ (key, a) :: after' := by
  induction before with
  | nil =>
    by_cases hlt : other < key
    · refine ⟨[(other, b)], after, ?_, fun a => by simp [place, hlt]⟩
      rw [get?_cons, if_neg hne.symm, get?_nil]
    · exact ⟨[], place other b after, rfl, fun a => by simp [place, hlt]⟩
  | cons entry rest ih =>
    obtain ⟨k, c⟩ := entry
    rw [get?_cons] at hbefore
    split at hbefore
    · exact absurd hbefore (by simp)
    · rename_i hk
      by_cases hlt : other < k
      · refine ⟨(other, b) :: (k, c) :: rest, after, ?_, fun a => by simp [place, hlt]⟩
        rw [get?_cons, if_neg hne.symm, get?_cons, if_neg hk, hbefore]
      · obtain ⟨before', after', hbefore', heq⟩ := ih hbefore
        refine ⟨(k, c) :: before', after', ?_, fun a => by simp [place, hlt, heq]⟩
        rw [get?_cons, if_neg hk, hbefore']

/-- Setting another payload leaves the entry, whatever it is, between others. -/
theorem exists_insert_between (hne : key ≠ other) (hbefore : get? key before = none) (b : α) :
    ∃ before' after', get? key before' = none ∧
      ∀ a, insert other b (before ++ (key, a) :: after) = before' ++ (key, a) :: after' := by
  by_cases hset : (get? other (before ++ after)).isSome = true
  · obtain ⟨before', after', hbefore', heq⟩ := exists_replace_between after hne hbefore b
    refine ⟨before', after', hbefore', fun a => ?_⟩
    have hcontains : contains other (before ++ (key, a) :: after) = true := by
      rw [contains, get?_between_of_ne after hne, hset]
    rw [insert, if_pos hcontains, heq]
  · obtain ⟨before', after', hbefore', heq⟩ := exists_place_between after hne hbefore b
    refine ⟨before', after', hbefore', fun a => ?_⟩
    have hcontains : ¬ contains other (before ++ (key, a) :: after) = true := by
      rwa [contains, get?_between_of_ne after hne]
    rw [insert, if_neg hcontains, heq]

end

end Fields

end SigilExpr
