import SigilExpr.Proofs.Course.Narrow

/-!
# How a group ends that is served from a queue

A group that is served from a queue takes the ends of its members in the order of positions, and in
whatever order they come about. So it has all values when the last of them is there, and it fails
with the member at the lowest position that fails, once everybody before that has a value too:
`Course.wide_settles`, with `Ending.Delivers` and `Ending.LowestFailed`. Only the end of the budget
ends it at once.

Nothing here depends on how the queue is kept, on who is served in vain or on when the attendant
gives up a turn. `Crowd.Accounts` is the invariant that says why: every position either counts, or
has an end that was put aside, or belongs to a member that is still there and is going to end as
promised; and the position whose end counts next belongs to a member.
-/

namespace SigilExpr

variable {α : Type}

namespace Ending

/-- The failure at the lowest position, and the time when it and everything before it are there. -/
structure LowestFailed (endings : List (Ending α)) (e : Ending α) (time : Nat) : Prop where
  /-- It is a failure. -/
  failed : e.Failed
  /-- Everybody at a lower position has a value. -/
  split : ∃ front back, endings = front ++ e :: back ∧ (∀ f ∈ front, ∃ v, f.verdict = .ok v) ∧
    (∀ f ∈ front ++ [e], f.time ≤ time) ∧ ∃ f ∈ front ++ [e], f.time = time

/-- The end of a group that is served from a queue. -/
def SettlesInOrder (endings : List (Ending α)) (now : Nat) (out : Ending (List α)) : Prop :=
  (∃ vs, out.verdict = .ok vs ∧ Delivers endings now vs out.time) ∨
    (∃ e why, LowestFailed endings e out.time ∧ e.verdict = .error why ∧
      out.verdict = .error why) ∨
    (out.verdict = .error .exhausted ∧
      ∃ e ∈ endings, e.verdict = .error .exhausted ∧ e.time = out.time)

theorem SettlesInOrder.of_later {endings : List (Ending α)} {now time : Nat}
    {out : Ending (List α)} (h : SettlesInOrder endings time out)
    (hlate : ∃ e ∈ endings, time ≤ e.time) : SettlesInOrder endings now out := by
  rcases h with hok | hrest
  · have hs : Settles endings now out := Settles.of_later (.inl hok) hlate
    rcases hs with hok | ⟨e, why, -, -, hv, -⟩
    · exact .inl hok
    · obtain ⟨vs, hvs, -⟩ := hok
      rw [hv] at hvs
      exact absurd hvs (by simp)
  · exact .inr hrest

end Ending

open Ending

/-- How a member is going to end that is still there at `now`. -/
def Strand.Promises (now : Nat) (endings : List (Ending α)) (strand : Strand α) : Prop :=
  now ≤ strand.alarm.time ∧ (strand.rest ()).Forward strand.alarm.time ∧
    ∃ e, endings[strand.position]? = some e ∧
      ((strand.rest ()).ending strand.alarm.time 0).time = e.time ∧
      ((strand.rest ()).ending strand.alarm.time 0).verdict = e.verdict

namespace Crowd

/-! ### The books of a group -/

/-- An end that has come about by `now`. -/
def Past (now : Nat) (endings : List (Ending α)) (position : Nat) (verdict : Except Halt α) :
    Prop :=
  ∃ e, endings[position]? = some e ∧ e.verdict = verdict ∧ e.time ≤ now

/-- What the values that count and the ends that were put aside say of the endings of all. -/
structure Entries (values : List α) (counted : Nat) (aside : List (Nat × Except Halt α)) (now : Nat)
    (endings : List (Ending α)) : Prop where
  /-- The values that count are those at the lowest positions. -/
  delivered : List.Forall₂ (fun e v => e.verdict = .ok v ∧ e.time ≤ now) (endings.take counted)
    values.reverse
  /-- There are as many values as positions that count. -/
  size : values.length = counted
  /-- The ends that were put aside have come about, at positions that do not count yet. -/
  kept : ∀ entry ∈ aside, counted ≤ entry.1 ∧ Past now endings entry.1 entry.2
  /-- They are in the order of positions. -/
  sorted : (aside.map Prod.fst).Pairwise (· < ·)

/-- What the values, the ends and the members that are still there say of the endings of all. -/
structure Accounts (values : List α) (counted : Nat) (aside : List (Nat × Except Halt α))
    (strands : List (Strand α)) (now : Nat) (endings : List (Ending α)) : Prop
    extends Entries values counted aside now endings where
  /-- Whoever is still there ends as promised. -/
  promise : ∀ strand ∈ strands, strand.Promises now endings
  /-- The position that counts next is not among those with an end. -/
  above : ∀ entry ∈ aside, counted < entry.1
  /-- Every position that does not count has an end or a member. -/
  cover : (aside.map Prod.fst ++ strands.map (·.position)).Perm
    (List.range' counted (endings.length - counted))

variable {values : List α} {counted now : Nat} {aside : List (Nat × Except Halt α)}
  {strands : List (Strand α)} {endings : List (Ending α)}

theorem Past.mono {position : Nat} {verdict : Except Halt α} {time : Nat}
    (h : Past now endings position verdict) (hle : now ≤ time) :
    Past time endings position verdict := by
  obtain ⟨e, he, hv, ht⟩ := h
  exact ⟨e, he, hv, Nat.le_trans ht hle⟩

namespace Accounts

theorem perm {others : List (Strand α)} (h : Accounts values counted aside strands now endings)
    (hp : strands.Perm others) : Accounts values counted aside others now endings where
  toEntries := h.toEntries
  promise := fun strand hs => h.promise strand (hp.mem_iff.2 hs)
  above := h.above
  cover := ((hp.map _).append_left _).symm.trans h.cover

/-- A member has a turn and stays. -/
theorem move {strand other : Strand α}
    (h : Accounts values counted aside (strand :: strands) now endings)
    (hpos : other.position = strand.position) (hother : other.Promises now endings) :
    Accounts values counted aside (other :: strands) now endings where
  toEntries := h.toEntries
  promise := fun s hs => by
    rcases List.mem_cons.1 hs with rfl | hs
    · exact hother
    · exact h.promise s (List.mem_cons_of_mem _ hs)
  above := h.above
  cover := by
    rw [List.map_cons, hpos, ← List.map_cons]
    exact h.cover

/-- Time goes on to the next alarm. -/
theorem advance {time : Nat} (h : Accounts values counted aside strands now endings)
    (hnow : now ≤ time) (htime : ∀ strand ∈ strands, time ≤ strand.alarm.time) :
    Accounts values counted aside strands time endings where
  delivered := h.delivered.imp fun _ _ hev => ⟨hev.1, Nat.le_trans hev.2 hnow⟩
  size := h.size
  kept := fun entry he => ⟨(h.kept entry he).1, (h.kept entry he).2.mono hnow⟩
  sorted := h.sorted
  promise := fun strand hs => ⟨htime strand hs, (h.promise strand hs).2⟩
  above := h.above
  cover := h.cover

/-- When nobody is there any more, all positions count. -/
theorem delivers (h : Accounts values counted aside [] now endings) :
    Delivers endings now values.reverse now := by
  -- otherwise the position that counts next is among those put aside, which are higher
  have hall : endings.length ≤ counted := by
    by_contra hlt
    have hmem : counted ∈ List.range' counted (endings.length - counted) :=
      List.mem_range'_1.2 (by omega)
    have hpos : counted ∈ aside.map Prod.fst := by
      simpa using h.cover.mem_iff.2 hmem
    obtain ⟨entry, he, hfst⟩ := List.mem_map.1 hpos
    have hgt := h.above entry he
    omega
  have hvalues := h.delivered
  rw [List.take_of_length_le hall] at hvalues
  refine ⟨hvalues.imp fun _ _ hev => hev.1, fun e he => ?_, .inl rfl⟩
  have hflip := List.Forall₂.flip (R := fun (v : α) (e : Ending α) =>
    e.verdict = .ok v ∧ e.time ≤ now) hvalues
  obtain ⟨v, -, hev⟩ := hflip.exists_left_of_mem he
  exact hev.2

end Accounts

/-! ### Ends that come about -/

theorem perm_putAside (position : Nat) (verdict : Except Halt α)
    (aside : List (Nat × Except Halt α)) :
    (putAside position verdict aside).Perm ((position, verdict) :: aside) := by
  induction aside with
  | nil => exact .refl _
  | cons first others ih =>
    unfold putAside
    split
    · exact .refl _
    · exact (ih.cons first).trans (.swap _ _ _)

theorem sorted_putAside {position : Nat} {verdict : Except Halt α}
    {aside : List (Nat × Except Halt α)} (h : (aside.map Prod.fst).Pairwise (· < ·))
    (hnew : position ∉ aside.map Prod.fst) :
    ((putAside position verdict aside).map Prod.fst).Pairwise (· < ·) := by
  induction aside with
  | nil => simp [putAside]
  | cons first others ih =>
    rw [List.map_cons, List.pairwise_cons] at h
    rw [List.map_cons, List.mem_cons, not_or] at hnew
    unfold putAside
    split
    · rename_i hlt
      rw [List.map_cons, List.map_cons, List.pairwise_cons, List.pairwise_cons]
      refine ⟨fun q hq => ?_, h⟩
      rcases List.mem_cons.1 hq with rfl | hq
      · exact hlt
      · exact Nat.lt_trans hlt (h.1 q hq)
    · rename_i hnlt
      rw [List.map_cons, List.pairwise_cons]
      refine ⟨fun q hq => ?_, ih h.2 hnew.2⟩
      have hmem := ((perm_putAside position verdict others).map Prod.fst).mem_iff.1 hq
      rcases List.mem_cons.1 hmem with rfl | hmem
      · exact Nat.lt_of_le_of_ne (Nat.not_lt.1 hnlt) fun heq => hnew.1 heq.symm
      · exact h.1 q hmem

theorem recount_of_lt {values : List α} {counted : Nat} {aside : List (Nat × Except Halt α)}
    (h : ∀ entry ∈ aside, counted < entry.1) :
    recount values counted aside = .ok (values, counted, aside) := by
  cases aside with
  | nil => rfl
  | cons first others =>
    obtain ⟨position, verdict⟩ := first
    have hne : position ≠ counted := Nat.ne_of_gt (h (position, verdict) List.mem_cons_self)
    simp [recount, hne]

namespace Entries

/-- A position that counts has a value. -/
theorem exists_past (h : Entries values counted aside now endings) {position : Nat}
    (hp : position < counted) : ∃ v, Past now endings position (.ok v) := by
  have hlen : (endings.take counted).length = values.length := by
    rw [h.delivered.length_eq, List.length_reverse]
  have hlt : position < (endings.take counted).length := by
    rw [hlen, h.size]
    exact hp
  have hend := h.delivered.get hlt (by rw [List.length_reverse, ← hlen]; exact hlt)
  refine ⟨_, (endings.take counted)[position], ?_, hend⟩
  rw [List.getElem_take, List.getElem?_eq_getElem]

/-- There are no more positions that count than positions. -/
theorem counted_le (h : Entries values counted aside now endings) : counted ≤ endings.length := by
  have hlen := h.delivered.length_eq
  rw [List.length_reverse, h.size, List.length_take] at hlen
  omega

/-- An end is put aside. -/
theorem putAside {position : Nat} {verdict : Except Halt α}
    (h : Entries values counted aside now endings) (hle : counted ≤ position)
    (hpast : Past now endings position verdict) (hnew : position ∉ aside.map Prod.fst) :
    Entries values counted (Crowd.putAside position verdict aside) now endings where
  delivered := h.delivered
  size := h.size
  kept := by
    intro entry hentry
    have hperm := perm_putAside position verdict aside
    rcases List.mem_cons.1 (hperm.mem_iff.1 hentry) with rfl | hentry
    · exact ⟨hle, hpast⟩
    · exact h.kept entry hentry
  sorted := sorted_putAside h.sorted hnew

/-- A value comes to count. -/
theorem count {a : α} {others : List (Nat × Except Halt α)}
    (h : Entries values counted ((counted, .ok a) :: others) now endings) :
    Entries (a :: values) (counted + 1) others now endings := by
  obtain ⟨hlt, hsorted⟩ := List.pairwise_cons.1 h.sorted
  refine ⟨?_, by rw [List.length_cons, h.size], fun entry hentry => ?_, hsorted⟩
  · obtain ⟨-, e, he, hev⟩ := h.kept (counted, .ok a) List.mem_cons_self
    rw [List.take_add_one, he, List.reverse_cons]
    exact List.rel_append h.delivered (.cons hev .nil)
  · exact ⟨hlt entry.1 (List.mem_map_of_mem hentry),
      (h.kept entry (List.mem_cons_of_mem _ hentry)).2⟩

/-- If the first of the ends is above the position that counts next, they all are. -/
theorem above {first : Nat × Except Halt α} {others : List (Nat × Except Halt α)}
    (h : Entries values counted (first :: others) now endings) (hne : first.1 ≠ counted) :
    ∀ entry ∈ first :: others, counted < entry.1 := by
  have hfirst : counted < first.1 :=
    Nat.lt_of_le_of_ne (h.kept first List.mem_cons_self).1 fun heq => hne heq.symm
  intro entry hentry
  rcases List.mem_cons.1 hentry with rfl | hentry
  · exact hfirst
  · have hothers := (List.pairwise_cons.1 h.sorted).1 entry.1 (List.mem_map_of_mem hentry)
    exact Nat.lt_trans hfirst hothers

end Entries

/-- Ends that were put aside count as far as there is none missing before them. What is left does
not count yet; or a failure comes to count, and everything before it has a value. -/
private theorem recount_spec (h : Entries values counted aside now endings) :
    (∃ values' counted' aside', recount values counted aside = .ok (values', counted', aside') ∧
      Entries values' counted' aside' now endings ∧ (∀ entry ∈ aside', counted' < entry.1) ∧
      counted ≤ counted' ∧
      aside.map Prod.fst = List.range' counted (counted' - counted) ++ aside'.map Prod.fst) ∨
    ∃ why k, recount values counted aside = .error why ∧ counted ≤ k ∧
      Past now endings k (.error why) ∧ ∀ i < k, ∃ v, Past now endings i (.ok v) := by
  -- the ends that were put aside are gone through from the lowest position on
  induction aside generalizing values counted with
  | nil => exact .inl ⟨values, counted, [], rfl, h, by simp, Nat.le_refl _, by simp⟩
  | cons first others ih =>
    obtain ⟨position, verdict⟩ := first
    by_cases hpos : position = counted
    · -- this is the end that counts next
      subst hpos
      cases verdict with
      | error why =>
        have hpast := (h.kept (position, .error why) List.mem_cons_self).2
        exact .inr ⟨why, position, by simp [recount], Nat.le_refl _, hpast,
          fun i hi => h.exists_past hi⟩
      | ok a =>
        have hstep : recount values position ((position, .ok a) :: others) =
            recount (a :: values) (position + 1) others := by simp [recount]
        rw [hstep]
        rcases ih h.count with
          ⟨values', counted', aside', hr, he, ha, hc, hsplit⟩ | ⟨why, k, hr, hk, hrest⟩
        · refine .inl ⟨values', counted', aside', hr, he, ha, Nat.le_of_succ_le hc, ?_⟩
          have hd : counted' - position = (counted' - (position + 1)) + 1 := by omega
          rw [List.map_cons, hsplit, hd, List.range'_succ, List.cons_append]
        · exact .inr ⟨why, k, hr, Nat.le_of_succ_le hk, hrest⟩
    · -- the end that counts next is missing, so it stays at that
      exact .inl ⟨values, counted, (position, verdict) :: others, recount_of_lt (h.above hpos), h,
        h.above hpos, Nat.le_refl _, by simp⟩

private theorem lowestFailed_of_past {position k : Nat} {why : Halt}
    (hk : Past now endings k (.error why)) (hbelow : ∀ i < k, ∃ v, Past now endings i (.ok v))
    (hpos : position ≤ k) {e : Ending α} (he : endings[position]? = some e) (ht : e.time = now) :
    ∃ f, LowestFailed endings f now ∧ f.verdict = .error why := by
  obtain ⟨f, hf, hfv, hft⟩ := hk
  have hlt : k < endings.length := (List.getElem?_eq_some_iff.1 hf).1
  have hfk : endings[k] = f := (List.getElem?_eq_some_iff.1 hf).2
  -- everybody up to `k`, read off by position
  have hupto : endings.take k ++ [f] = endings.take (k + 1) := by
    rw [List.take_succ_eq_append_getElem hlt, hfk]
  have hget : ∀ g ∈ endings.take k, ∃ i < k, endings[i]? = some g := by
    intro g hg
    obtain ⟨i, hi, rfl⟩ := List.mem_iff_getElem.1 hg
    rw [List.length_take] at hi
    exact ⟨i, by omega, by rw [List.getElem_take, List.getElem?_eq_getElem]⟩
  refine ⟨f, ⟨⟨why, hfv⟩, endings.take k, endings.drop (k + 1), ?_, fun g hg => ?_,
    fun g hg => ?_, e, ?_, ht⟩, hfv⟩
  · rw [← hfk, List.getElem_cons_drop, List.take_append_drop]
  · obtain ⟨i, hi, hgi⟩ := hget g hg
    obtain ⟨v, g', hg', hv, -⟩ := hbelow i hi
    obtain rfl : g = g' := Option.some.inj (hgi.symm.trans hg')
    exact ⟨v, hv⟩
  · rcases List.mem_append.1 hg with hg | hg
    · obtain ⟨i, hi, hgi⟩ := hget g hg
      obtain ⟨v, g', hg', -, ht'⟩ := hbelow i hi
      obtain rfl : g = g' := Option.some.inj (hgi.symm.trans hg')
      exact ht'
    · obtain rfl := List.mem_singleton.1 hg
      exact hft
  · rw [hupto]
    refine List.mem_iff_getElem?.2 ⟨position, ?_⟩
    rw [List.getElem?_take_of_lt (Nat.lt_succ_of_le hpos), he]

private theorem range'_append_of_le {k m n : Nat} (hkm : k ≤ m) (hmn : m ≤ n) :
    List.range' k (m - k) ++ List.range' m (n - m) = List.range' k (n - k) := by
  have hm : m = k + (m - k) := by omega
  have hn : n - k = (m - k) + (n - m) := by omega
  rw [hn, ← List.range'_append_1, ← hm]

/-- **An end comes about.** The books are kept, or the lowest failure comes to count. -/
theorem Accounts.settle {strand : Strand α} {verdict : Except Halt α} {e : Ending α}
    (h : Accounts values counted aside (strand :: strands) now endings)
    (he : endings[strand.position]? = some e) (hv : e.verdict = verdict) (ht : e.time = now) :
    (∃ values' counted' aside',
      recount values counted (Crowd.putAside strand.position verdict aside) =
        .ok (values', counted', aside') ∧
      Accounts values' counted' aside' strands now endings) ∨
    ∃ why f, recount values counted (Crowd.putAside strand.position verdict aside) = .error why ∧
      LowestFailed endings f now ∧ f.verdict = .error why := by
  have hmem : strand.position ∈ List.range' counted (endings.length - counted) :=
    h.cover.mem_iff.1 (by simp)
  have hle : counted ≤ strand.position := (List.mem_range'_1.1 hmem).1
  -- no position has both an end and a member
  have hnew : strand.position ∉ aside.map Prod.fst := fun hin =>
    (List.nodup_append.1 (h.cover.nodup_iff.2 List.nodup_range')).2.2 _ hin _ (by simp) rfl
  have hperm := perm_putAside strand.position verdict aside
  have hentries := h.toEntries.putAside hle ⟨e, he, hv, Nat.le_of_eq ht⟩ hnew
  -- with this end among those put aside, some may come to count
  rcases recount_spec hentries with
    ⟨values', counted', aside', hr, hafter, habove, hc, hsplit⟩ | ⟨why, k, hr, hck, hk, hbelow⟩
  · refine .inl ⟨values', counted', aside', hr, hafter,
      fun s hs => h.promise s (List.mem_cons_of_mem _ hs), habove, ?_⟩
    -- the positions that have come to count stand in front on both sides
    rw [← List.perm_append_left_iff (List.range' counted (counted' - counted)),
      ← List.append_assoc, ← hsplit, range'_append_of_le hc hafter.counted_le]
    -- and the position of the end has only changed sides
    refine List.Perm.trans ?_ h.cover
    refine ((hperm.map Prod.fst).append_right _).trans ?_
    rw [List.map_cons, List.map_cons, List.cons_append]
    exact List.perm_middle.symm
  · refine .inr ?_
    by_cases hpos : strand.position = counted
    · -- the failure counts only now, since this end was missing before it
      obtain ⟨f, hf, hfv⟩ := lowestFailed_of_past hk hbelow (hpos ▸ hck) he ht
      exact ⟨why, f, hr, hf, hfv⟩
    · -- something is missing before this end, so nothing could come to count
      rw [recount_of_lt] at hr
      · exact absurd hr (by simp)
      · intro entry hentry
        rcases List.mem_cons.1 (hperm.mem_iff.1 hentry) with rfl | hentry
        · exact Nat.lt_of_le_of_ne hle fun heq => hpos heq.symm
        · exact h.above entry hentry

/-! ### Services -/

/-- What a group says of the endings of its members. -/
def Promises (crowd : Crowd α) (now : Nat) (endings : List (Ending α)) : Prop :=
  Accounts crowd.values crowd.counted crowd.aside (crowd.ready ++ crowd.asleep) now endings

/-- Why a group may end without values at `now`. -/
def Breaks (endings : List (Ending α)) (now : Nat) (why : Halt) : Prop :=
  (∃ f, LowestFailed endings f now ∧ f.verdict = .error why) ∨
    (why = .exhausted ∧ ∃ e ∈ endings, e.verdict = .error .exhausted ∧ e.time = now)

theorem perm_fallAsleep (strand : Strand α) (strands : List (Strand α)) :
    (fallAsleep strand strands).Perm (strand :: strands) := by
  induction strands with
  | nil => exact .refl _
  | cons first others ih =>
    unfold fallAsleep
    split
    · exact .refl _
    · exact (ih.cons first).trans (.swap _ _ _)

/-- What an end comes to is sound: the group goes on as promised, or it ends for a reason. -/
def Sound (now : Nat) (endings : List (Ending α)) : Except Halt (Crowd α) → Prop
  | .ok after => after.Promises now endings
  | .error why => Breaks endings now why

/-- What a service comes to is sound. -/
def Service.Sound (now : Nat) (endings : List (Ending α)) : Service α → Prop
  | .over why => Breaks endings now why
  | .settled after => after.Promises now endings
  | .pending after => after.Promises now endings

/-- **An end of a member.** The group goes on without the member, or it ends for a reason. -/
theorem settle_sound {crowd : Crowd α} {strand : Strand α} {verdict : Except Halt α} {e : Ending α}
    (h : Accounts crowd.values crowd.counted crowd.aside
      (strand :: (crowd.ready ++ crowd.asleep)) now endings)
    (he : endings[strand.position]? = some e) (hv : e.verdict = verdict) (ht : e.time = now) :
    Sound now endings (crowd.settle strand.position verdict) := by
  unfold settle
  split
  · -- the end of the budget ends the group at once
    exact .inr ⟨rfl, e, List.mem_of_getElem? he, hv, ht⟩
  · rcases h.settle he hv ht with
      ⟨values, counted, aside, hr, hafter⟩ | ⟨why, f, hr, hf, hfv⟩
    · rw [hr]
      exact hafter
    · rw [hr]
      exact .inl ⟨f, hf, hfv⟩

/-- Whoever goes to sleep is one of those that are still there. -/
theorem Accounts.fallAsleep {strand : Strand α} {ready asleep : List (Strand α)}
    (h : Accounts values counted aside (strand :: (ready ++ asleep)) now endings) :
    Accounts values counted aside (ready ++ Crowd.fallAsleep strand asleep) now endings := by
  refine h.perm ?_
  exact List.perm_middle.symm.trans ((perm_fallAsleep strand asleep).symm.append_left _)

/-- **One service.** -/
theorem serve_sound {crowd : Crowd α} {strand : Strand α} {ready : List (Strand α)}
    (hready : crowd.ready = strand :: ready) (h : crowd.Promises now endings) (turn : Turn) :
    (serve { crowd with ready } strand now turn).2.Sound now endings := by
  have hbooks : Accounts crowd.values crowd.counted crowd.aside
      (strand :: (ready ++ crowd.asleep)) now endings := by
    rw [← List.cons_append, ← hready]
    exact h
  obtain ⟨hle, hforward, e, he, ht, hv⟩ := hbooks.promise strand List.mem_cons_self
  by_cases hdue : strand.due now = true
  · -- its alarm has gone off, so it has its next turn now
    have htime : strand.alarm.time = now :=
      Nat.le_antisymm (by simpa [Sleeper.due] using hdue) hle
    rw [htime] at hforward ht hv
    rw [serve, if_pos hdue]
    cases hrest : strand.rest () with
    | ends part verdict =>
      rw [hrest, Course.ending_ends] at ht hv
      have hsettle : Sound now endings
          (settle { crowd with ready, served := crowd.served + 1 } strand.position verdict) :=
        settle_sound hbooks he hv.symm ht.symm
      simp only
      generalize settle { crowd with ready, served := crowd.served + 1 } strand.position verdict =
        out at hsettle ⊢
      cases out with
      | ok after => exact hsettle
      | error why => exact hsettle
    | waits part time age rest =>
      rw [hrest, Course.ending_waits] at ht hv
      rw [hrest, Course.forward_waits] at hforward
      -- the member stays, and ends as before
      have hmoved : Accounts crowd.values crowd.counted crowd.aside
          (⟨.after (crowd.served :: strand.turns) time age rest, strand.position⟩ ::
            (ready ++ crowd.asleep)) now endings := by
        refine hbooks.move rfl ⟨hforward.1, hforward.2, e, he, ?_, ?_⟩
        · exact (Course.time_ending _ _ _ _).trans ht
        · exact (Course.verdict_ending _ _ _ _).trans hv
      simp only
      -- it goes to the end of the queue or falls asleep, which makes no difference to the books
      split
      · refine hmoved.perm ?_
        rw [List.append_assoc, List.singleton_append]
        exact List.perm_middle.symm
      · exact hmoved.fallAsleep
  · -- served out of time, it only waits
    rw [serve, if_neg hdue]
    exact hbooks.fallAsleep

/-! ### The group -/

theorem Promises.openTurn {crowd : Crowd α} (h : crowd.Promises now endings) :
    crowd.openTurn.Promises now endings := h

theorem Promises.ring {crowd : Crowd α} {alarm : Alarm} (h : crowd.Promises now endings)
    (hready : crowd.ready = [])
    (hs : Alarm.soonest (crowd.asleep.map (·.alarm)) = some alarm) :
    now ≤ alarm.time ∧ (∃ e ∈ endings, alarm.time ≤ e.time) ∧
      (crowd.ring alarm.time).Promises alarm.time endings := by
  have hbooks : Accounts crowd.values crowd.counted crowd.aside crowd.asleep now endings := by
    have h' : Accounts crowd.values crowd.counted crowd.aside (crowd.ready ++ crowd.asleep) now
      endings := h
    rwa [hready, List.nil_append] at h'
  obtain ⟨strand, hm, ha⟩ := List.mem_map.1 (Alarm.mem_of_soonest hs)
  obtain ⟨hle, hforward, e, he, ht, -⟩ := hbooks.promise strand hm
  rw [ha] at hle hforward ht
  refine ⟨hle, ⟨e, List.mem_of_getElem? he, ht ▸ (Course.le_ending hforward 0).1⟩, ?_⟩
  have hsoon : ∀ s ∈ crowd.asleep, alarm.time ≤ s.alarm.time := fun s hs' =>
    Alarm.time_le_of_soonest hs (List.mem_map_of_mem hs')
  refine (hbooks.advance hle hsoon).perm ?_
  exact (List.filter_append_perm _ _).symm.trans ((List.reverse_perm _).symm.append_right _)

theorem Breaks.settlesInOrder {turn : Turn} {why : Halt} (h : Breaks endings now why)
    (round : Nat) :
    SettlesInOrder endings now ((Course.ends turn (.error why)).ending now round) := by
  rcases h with ⟨f, hf, hfv⟩ | ⟨rfl, e, he, hev, het⟩
  · exact .inr (.inl ⟨f, why, hf, hfv, rfl⟩)
  · exact .inr (.inr ⟨rfl, e, he, hev, het⟩)

/-- **The turns of a group that is served from a queue.** -/
theorem attend_settles {crowd : Crowd α} (h : crowd.Promises now endings) (turn : Turn) :
    (crowd.attend now turn).Forward now ∧
      ∀ r, SettlesInOrder endings now ((crowd.attend now turn).ending now r) := by
  fun_induction attend crowd now turn with
  | case1 crowd now turn hready hs =>
    -- nobody is there any more
    have hasleep : crowd.asleep = [] := by
      simpa using Alarm.soonest_eq_none_iff.1 hs
    have hbooks : Accounts crowd.values crowd.counted crowd.aside [] now endings := by
      have h' : Accounts crowd.values crowd.counted crowd.aside (crowd.ready ++ crowd.asleep) now
        endings := h
      rwa [hready, hasleep] at h'
    exact ⟨trivial, fun r => .inl ⟨_, rfl, hbooks.delivers⟩⟩
  | case2 crowd now turn hready alarm hs ih =>
    -- the queue is empty, so the group waits for the next alarm
    obtain ⟨hle, hlate, hring⟩ := h.ring hready hs
    obtain ⟨hforward, hout⟩ := ih hring.openTurn
    exact ⟨⟨hle, hforward⟩, fun r => (hout _).of_later hlate⟩
  | case3 crowd now turn strand ready hready turn' why hs =>
    have hserve := serve_sound hready h turn
    rw [hs] at hserve
    exact ⟨trivial, hserve.settlesInOrder⟩
  | case4 crowd now turn strand ready hready turn' after hs ih =>
    have hserve := serve_sound hready h turn
    rw [hs] at hserve
    exact ih hserve
  | case5 crowd now turn strand ready hready turn' after hs htired ih =>
    have hserve := serve_sound hready h turn
    rw [hs] at hserve
    -- the attendant gives up the turn, and the group goes on in another at the same time
    obtain ⟨hforward, hout⟩ := ih (Promises.openTurn hserve)
    exact ⟨⟨Nat.le_refl now, hforward⟩, fun r => hout _⟩
  | case6 crowd now turn strand ready hready turn' after hs htired ih =>
    have hserve := serve_sound hready h turn
    rw [hs] at hserve
    exact ih hserve

/-- At first nobody has had a turn, and nothing counts. -/
theorem promises_ofStarts {starts : List (Turn → Course α)}
    (h : List.Forall₂ (Course.Starts now) starts endings) :
    (ofStarts now (starts.map fun start _ => start .start)).Promises now endings where
  promise := by
    intro strand hs
    rw [ofStarts, List.append_nil, List.mem_map] at hs
    obtain ⟨⟨_, position⟩, hm, rfl⟩ := hs
    rw [List.mem_zipIdx_iff_getElem?, List.getElem?_map, Option.map_eq_some_iff] at hm
    obtain ⟨start, hpos, rfl⟩ := hm
    obtain ⟨hlt, hget⟩ : ∃ hlt : position < starts.length, starts[position] = start :=
      List.getElem?_eq_some_iff.1 hpos
    subst hget
    have hlt' : position < endings.length := h.length_eq ▸ hlt
    have hstart := h.get hlt hlt'
    refine ⟨Nat.le_refl now, hstart.forward, endings[position], List.getElem?_eq_getElem hlt',
      ?_, ?_⟩
    · exact congrArg Ending.time hstart.ending
    · exact congrArg Ending.verdict hstart.ending
  delivered := .nil
  size := rfl
  kept := by simp [ofStarts]
  sorted := .nil
  above := by simp [ofStarts]
  cover := by
    have hpositions : (ofStarts now (starts.map fun start _ => start .start)).ready.map
        (·.position) = List.range' 0 endings.length := by
      rw [← h.length_eq]
      simp [ofStarts, Function.comp_def, List.zipIdx_map_snd]
    simp only [ofStarts, List.append_nil, List.map_nil, List.nil_append, Nat.sub_zero]
      at hpositions ⊢
    rw [hpositions]

end Crowd

/-- **The end of a group that is served from a queue** can be told from the endings of its members:
it has all values with the last of them, or it fails with the lowest failure once that counts. -/
theorem Course.wide_settles {now : Nat} {starts : List (Turn → Course α)}
    {endings : List (Ending α)} (h : List.Forall₂ (Starts now) starts endings) (turn : Turn) :
    (wide (starts.map fun start _ => start .start) now turn).Forward now ∧
      ∀ r, SettlesInOrder endings now
        ((wide (starts.map fun start _ => start .start) now turn).ending now r) :=
  Crowd.attend_settles (Crowd.promises_ofStarts h) turn

end SigilExpr
