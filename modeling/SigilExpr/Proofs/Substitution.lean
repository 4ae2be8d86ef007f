import SigilExpr.Proofs.Budget
import SigilExpr.Proofs.Declared
import SigilExpr.Proofs.Timing
import SigilExpr.Stock.Items

/-!
# Putting a value in the place of an expression

At a position that gets evaluated, an expression and the literal of its value are as good as each
other: what the rest of the node comes to with the one, it comes to with the other
(`Builder.comesTo_put_iff`).

A `Place` is a position in a node, and `Place.put` fills it. `Registry.Evaluates` says which places
are evaluated when an argument of some shape is resolved: the argument itself, what the parameters
of a call ask for, and the parts of a container that is written out.

The two things that may stand there need not be of the same depth, so one of them may take more
budget than the other. What is shown by induction on the place is therefore that the second comes to
what the first comes to with so much more budget (`Registry.ReplaceableBy`). Failures are not
compared: an array of the wrong length is refused with a text that shows what was written in it.
-/

namespace SigilExpr

/-! ### Plans that come to what other plans come to -/

/-- What the first plan comes to on the spot, the second comes to as well. -/
def Plan.AttainedBy (p q : Plan) : Prop := ∀ v, p.run.verdict = .ok v → q.run.verdict = .ok v

/-- What the first call comes to on the spot, the second comes to as well. -/
def Call.AttainedBy (c d : Call) : Prop := c.body.AttainedBy d.body

theorem Plan.Below.attainedBy {p q : Plan} (h : p.Below q) : p.AttainedBy q := by
  intro v hv
  rw [← h.run (by simp [hv]), hv]

namespace Plan

variable {p q : Plan}

theorem AttainedBy.bind {f g : Json → Plan} (hp : p.AttainedBy q)
    (h : ∀ v, (f v).AttainedBy (g v)) : (p.bind f).AttainedBy (q.bind g) := by
  intro v hv
  rw [run_bind, Run.verdict_bind_eq_ok_iff] at hv ⊢
  obtain ⟨w, hw, hv⟩ := hv
  exact ⟨w, hp w hw, h w v hv⟩

theorem AttainedBy.join {cs ds : List Call} {f g : List Json → Plan}
    (hcalls : List.Forall₂ Call.AttainedBy cs ds) (h : ∀ vs, (f vs).AttainedBy (g vs)) :
    (Plan.join cs f).AttainedBy (Plan.join ds g) := by
  intro v hv
  rw [run_join, Run.verdict_bind_eq_ok_iff] at hv ⊢
  obtain ⟨vs, hvs, hv⟩ := hv
  refine ⟨vs, ?_, h vs v hv⟩
  rw [verdict_runAll_eq_ok_iff] at hvs ⊢
  clear hv
  induction hcalls generalizing vs with
  | nil => exact hvs
  | cons hcd _ ih =>
    obtain ⟨w, ws, hw, hws, rfl⟩ := List.forall₂_cons_left_iff.1 hvs
    exact .cons (hcd w hw) (ih ws hws)

/-- What happens on the way does not count. -/
theorem AttainedBy.emit (h : p.AttainedBy q) (event event' : Event) :
    (Plan.emit event p).AttainedBy (Plan.emit event' q) := by
  intro v hv
  rw [run_emit] at hv ⊢
  exact h v hv

/-- Nor do tags. -/
theorem AttainedBy.within (h : p.AttainedBy q) (id : String) :
    (p.within id).AttainedBy (q.within id) := by
  intro v hv
  rw [run_within, Run.verdict_within_eq_ok_iff] at hv ⊢
  exact h v hv

end Plan

/-- To make a call and wait for it comes to what is done once it is waited for. -/
theorem Call.AttainedBy.made {c d : Call} (h : c.AttainedBy d) : c.plan.AttainedBy d.plan := by
  intro v hv
  rw [Call.plan, Plan.run_emitAll] at hv ⊢
  exact h v hv

/-! ### Places -/

/-- A position in a node. -/
inductive Place where
  /-- The node itself. -/
  | here
  /-- A position in an item of an array, which stands between others. -/
  | item (before : List Json) (place : Place) (after : List Json)
  /-- A position in a field of an object, which stands between others. -/
  | field (before : Fields Json) (key : String) (place : Place) (after : Fields Json)

/-- The node with a value at a position. -/
def Place.put : Place → Json → Json
  | .here, v => v
  | .item before place after, v => .arr (before ++ place.put v :: after)
  | .field before key place after, v => .obj (before ++ (key, place.put v) :: after)

/-- **The places that get evaluated** when an argument of some shape is resolved, unless it is taken
as it is written:

* the argument itself;
* in a call, what is evaluated for the shapes of the parameters, and in the call of a raw handler
  what is evaluated in any argument;
* in an array or an object that is no call, where the shape is that of a container, what is
  evaluated for the shapes of its parts. -/
inductive Registry.Evaluates (registry : Registry) : TypeSpec → Place → Prop where
  | here {t : TypeSpec} (ht : t ≠ .delayed) : Evaluates registry t .here
  | declared {t u : TypeSpec} {id : String} {interpreter : Interpreter} {d : ValidDeclaration}
    {before after : List Json} {place : Place} (ht : t ≠ .delayed)
    (hget : registry.get? id = some interpreter)
    (hside : interpreter.sync = .supported (.declared d))
    (hspec : d.signature.specs[before.length]? = some u) (h : Evaluates registry u place) :
    Evaluates registry t (.item (.str id :: before) place after)
  | raw {t : TypeSpec} {id : String} {interpreter : Interpreter} {handler : Handler}
    {before after : List Json} {place : Place} (ht : t ≠ .delayed)
    (hget : registry.get? id = some interpreter)
    (hside : interpreter.sync = .supported (.raw handler))
    (h : Evaluates registry .anything place) :
    Evaluates registry t (.item (.str id :: before) place after)
  | tuple {items : List TypeSpec} {u : TypeSpec} {before after : List Json} {place : Place}
    (hdata : registry.call? (.arr before) = none) (hspec : items[before.length]? = some u)
    (h : Evaluates registry u place) : Evaluates registry (.tuple items) (.item before place after)
  | sequenceOf {u : TypeSpec} {before after : List Json} {place : Place}
    (hdata : registry.call? (.arr before) = none) (h : Evaluates registry u place) :
    Evaluates registry (.sequenceOf u) (.item before place after)
  | record {fields : List (String × TypeSpec)} {u : TypeSpec} {before after : Fields Json}
    {key : String} {place : Place} (hbefore : Fields.get? key before = none)
    (hspec : Fields.get? key fields = some u) (h : Evaluates registry u place) :
    Evaluates registry (.record fields) (.field before key place after)
  | recordOf {u : TypeSpec} {before after : Fields Json} {key : String} {place : Place}
    (h : Evaluates registry u place) :
    Evaluates registry (.recordOf u) (.field before key place after)

/-- Where no text is put there is no text. -/
theorem Place.str?_put {v : Json} (hv : v.str? = none) (place : Place) :
    (place.put v).str? = none := by
  cases place with
  | here => exact hv
  | item before place after => rfl
  | field before key place after => rfl

/-- An array that is no call does not become one by what follows, unless a text comes first. -/
theorem Registry.call?_append {registry : Registry} {before : List Json}
    (hdata : registry.call? (.arr before) = none) {v : Json} (hv : v.str? = none)
    (after : List Json) : registry.call? (.arr (before ++ v :: after)) = none := by
  cases before with
  | nil =>
    cases v with
    | str s => exact nomatch hv
    | _ => rfl
  | cons head rest =>
    cases head with
    | str id =>
      rw [call?, Option.map_eq_none_iff] at hdata
      rw [List.cons_append, call?, hdata, Option.map_none]
    | _ => rfl

/-! ### Arguments of which one differs -/

theorem forall₂_map_between {α β : Type} {R : β → β → Prop} {f g : α → β}
    (h : ∀ a, R (f a) (g a)) {a b : α} (hab : R (f a) (g b)) (before after : List α) :
    List.Forall₂ R ((before ++ a :: after).map f) ((before ++ b :: after).map g) := by
  have hall : ∀ xs : List α, List.Forall₂ R (xs.map f) (xs.map g) := fun xs => by
    rw [List.forall₂_map_left_iff, List.forall₂_map_right_iff]
    exact List.forall₂_same.2 fun x _ => h x
  rw [List.map_append, List.map_append]
  exact List.rel_append (hall before) (.cons hab (hall after))

namespace TypeSpec

/-- An argument that is not taken as it is written has a value if it resolves to one. -/
theorem exists_value_of_resolve {mode : Mode} {eval : Json → Call}
    {t : TypeSpec} (ht : t ≠ .delayed) {raw w : Json}
    (h : (t.resolve mode eval raw).body.run.verdict = .ok w) :
    ∃ v, (eval raw).body.run.verdict = .ok v := by
  have hbind : ∀ {f : Json → Plan}, ((eval raw).plan.bind f).run.verdict = .ok w →
      ∃ v, (eval raw).body.run.verdict = .ok v := by
    intro f hf
    rw [Plan.run_bind, Run.verdict_bind_eq_ok_iff, Call.plan, Plan.run_emitAll] at hf
    obtain ⟨v, hv, -⟩ := hf
    exact ⟨v, hv⟩
  cases t with
  | any delayed =>
    cases delayed with
    | true => exact absurd rfl ht
    | false => exact ⟨w, h⟩
  | single type => exact hbind h
  | oneOf types => exact hbind h
  | oneValueOf options => exact hbind h
  | tuple items => exact hbind h
  | sequenceOf item => exact hbind h
  | record fields => exact hbind h
  | recordOf item => exact hbind h

/-- Putting a field back leaves another field, whatever it is, between others. -/
theorem exists_putBack_between {key other : String} {before : Fields Json} (after : Fields Json)
    (hne : key ≠ other) (hbefore : Fields.get? key before = none) (w : Json) :
    ∃ before' after', Fields.get? key before' = none ∧
      ∀ v, putBack (before ++ (key, v) :: after) other w = before' ++ (key, v) :: after' := by
  unfold putBack Fields.contains
  by_cases hset : ((Fields.get? other (before ++ after)).isSome || !w.isNull) = true
  · obtain ⟨before', after', hbefore', heq⟩ := Fields.exists_insert_between after hne hbefore w
    refine ⟨before', after', hbefore', fun v => ?_⟩
    rw [Fields.get?_between_of_ne after hne, if_pos hset, heq]
  · refine ⟨before, after, hbefore, fun v => ?_⟩
    rw [Fields.get?_between_of_ne after hne, if_neg hset]

end TypeSpec

/-- The arguments of a call up to one for which there is a parameter are that call's own. -/
theorem Signature.exists_arguments_append (signature : Signature) {before : List Json}
    (h : before.length < signature.specs.length) (after : List Json) :
    ∃ rest, ∀ v, signature.arguments (before ++ v :: after) = before ++ v :: rest := by
  -- the arguments are those that are taken one by one off the front of what the call has
  have hdraw : ∀ count position, before.length < count → ∃ rest, ∀ v,
      signature.draw count position (before ++ v :: after) = before ++ v :: rest := by
    clear h
    induction before with
    | nil =>
      intro count position hcount
      obtain ⟨count, rfl⟩ := Nat.exists_eq_succ_of_ne_zero (Nat.ne_of_gt hcount)
      exact ⟨signature.draw count (position + 1) after, fun v => rfl⟩
    | cons arg before ih =>
      intro count position hcount
      obtain ⟨count, rfl⟩ := Nat.exists_eq_succ_of_ne_zero (Nat.ne_zero_of_lt hcount)
      obtain ⟨rest, hrest⟩ := ih count (position + 1) (Nat.lt_of_succ_lt_succ hcount)
      exact ⟨rest, fun v => congrArg (arg :: ·) (hrest v)⟩
  obtain ⟨rest, hrest⟩ := hdraw _ 0 h
  refine ⟨rest, fun v => ?_⟩
  rw [← signature.supply_eq .async, Signature.supply, hrest v]

namespace Registry

variable {registry : Registry} {scope : Scope} {n k : Nat} {x y : Json}

/-- What one node comes to, the other comes to with so much more budget. -/
def ReplaceableBy (registry : Registry) (scope : Scope) (k : Nat) (node node' : Json) : Prop :=
  ∀ n, (registry.evaluator n .sync scope node).AttainedBy
    (registry.evaluator (n + k) .sync scope node')

/-- One argument resolves to the same with more budget. -/
theorem resolve_attainedBy (registry : Registry) (scope : Scope) (n k : Nat)
    (t : TypeSpec) (raw : Json) :
    (t.resolve .sync (registry.evaluator n .sync scope) raw).AttainedBy
      (t.resolve .sync (registry.evaluator (n + k) .sync scope) raw) :=
  have hmono := registry.evaluators_mono .sync (Nat.le_add_right n k)
  have hcall := Simulation.approximation.resolves .sync t _ _ (hmono.calls scope) raw
  Plan.Below.attainedBy hcall.body

/-- An argument that is not taken as it is written may be replaced as the node itself may. -/
theorem ReplaceableBy.resolve (h : registry.ReplaceableBy scope k x y) {t : TypeSpec}
    (ht : t ≠ .delayed) (n : Nat) :
    (t.resolve .sync (registry.evaluator n .sync scope) x).AttainedBy
      (t.resolve .sync (registry.evaluator (n + k) .sync scope) y) := by
  intro w hw
  obtain ⟨v, hv⟩ := TypeSpec.exists_value_of_resolve ht hw
  -- with the larger budget both arguments have the one value, and only that counts
  have hx : (registry.evaluator (n + k) .sync scope x).body.run.verdict = .ok v :=
    registry.resolve_attainedBy scope n k .anything x v hv
  have hsame :
      (t.resolve .sync (registry.evaluator (n + k) .sync scope) x).body.run.verdict =
        (t.resolve .sync (registry.evaluator (n + k) .sync scope) y).body.run.verdict :=
    Simulation.verdicts.resolve_of_call (fun _ => rfl) ht (hx.trans (h n v hv).symm)
  have hlarge := registry.resolve_attainedBy scope n k t x w hw
  exact hsame.symm.trans hlarge

theorem forall₂_resolveEach_between {ts : List TypeSpec} {u : TypeSpec} {before : List Json}
    (hspec : ts[before.length]? = some u)
    (hxy : (u.resolve .sync (registry.evaluator n .sync scope) x).AttainedBy
      (u.resolve .sync (registry.evaluator (n + k) .sync scope) y)) (after : List Json) :
    List.Forall₂ Call.AttainedBy
      (TypeSpec.resolveEach .sync (registry.evaluator n .sync scope) ts
        (before ++ x :: after))
      (TypeSpec.resolveEach .sync (registry.evaluator (n + k) .sync scope) ts
        (before ++ y :: after)) := by
  have hsame := registry.resolve_attainedBy scope n k
  have hrest : ∀ (ts : List TypeSpec) (raws : List Json), List.Forall₂ Call.AttainedBy
      (TypeSpec.resolveEach .sync (registry.evaluator n .sync scope) ts raws)
      (TypeSpec.resolveEach .sync (registry.evaluator (n + k) .sync scope) ts raws) := by
    intro ts raws
    induction ts generalizing raws with
    | nil => exact .nil
    | cons t ts ih =>
      cases raws with
      | nil => exact .nil
      | cons raw raws => exact .cons (hsame t raw) (ih raws)
  induction before generalizing ts with
  | nil =>
    cases ts with
    | nil => exact nomatch hspec
    | cons t ts =>
      obtain rfl : t = u := Option.some.inj hspec
      exact .cons hxy (hrest ts after)
  | cons arg before ih =>
    cases ts with
    | nil => exact nomatch hspec
    | cons t ts => exact .cons (hsame t arg) (ih hspec)

/-- The fields of an object are resolved in place, of which one differs until it is its turn. -/
theorem resolveInPlace_between {ts : List (String × TypeSpec)} {u : TypeSpec} {key : String}
    (hspec : Fields.get? key ts = some u)
    (hxy : (u.resolve .sync (registry.evaluator n .sync scope) x).AttainedBy
      (u.resolve .sync (registry.evaluator (n + k) .sync scope) y))
    {before : Fields Json} (hbefore : Fields.get? key before = none) (after : Fields Json) :
    (TypeSpec.resolveInPlace .sync (registry.evaluator n .sync scope) ts
        (before ++ (key, x) :: after)).AttainedBy
      (TypeSpec.resolveInPlace .sync (registry.evaluator (n + k) .sync scope) ts
        (before ++ (key, y) :: after)) := by
  induction ts generalizing before after with
  | nil => exact nomatch hspec
  | cons entry ts ih =>
    obtain ⟨other, t⟩ := entry
    rw [Fields.get?_cons] at hspec
    by_cases hkey : other = key
    · -- from its turn on the field is the same
      subst hkey
      rw [if_pos rfl] at hspec
      obtain rfl := Option.some.inj hspec
      have hget : ∀ v, Fields.getD other .null (before ++ (other, v) :: after) = v := fun v => by
        rw [Fields.getD, Fields.get?_between_self after hbefore, Option.getD_some]
      have hback : ∀ v w, TypeSpec.putBack (before ++ (other, v) :: after) other w =
          before ++ (other, w) :: after := fun v w => by
        rw [TypeSpec.putBack, Fields.contains, Fields.get?_between_self after hbefore,
          Fields.insert_between_self after hbefore]
        rfl
      rw [TypeSpec.resolveInPlace, TypeSpec.resolveInPlace, hget, hget]
      refine (Call.AttainedBy.made hxy).bind fun w => ?_
      rw [hback, hback]
      have hmono := registry.evaluators_mono .sync (Nat.le_add_right n k)
      exact Plan.Below.attainedBy
        (Simulation.approximation.resolveInPlace_same (hmono.calls scope) ts _)
    · have hne : key ≠ other := Ne.symm hkey
      have hget : ∀ v, Fields.getD other .null (before ++ (key, v) :: after) =
          Fields.getD other .null (before ++ after) := fun v => by
        rw [Fields.getD, Fields.get?_between_of_ne after hne, Fields.getD]
      rw [if_neg hkey] at hspec
      rw [TypeSpec.resolveInPlace, TypeSpec.resolveInPlace, hget, hget]
      have hother := registry.resolve_attainedBy scope n k t
        (Fields.getD other .null (before ++ after))
      refine (Call.AttainedBy.made hother).bind fun w => ?_
      -- whatever is put back, the field that differs stays between others
      obtain ⟨before', after', hbefore', hback⟩ :=
        TypeSpec.exists_putBack_between after hne hbefore w
      rw [hback, hback]
      exact ih hspec hbefore' after'

/-! ### Two things at one place -/

/-- Two values that are no calls lead to what is attained if they do so themselves. -/
theorem attainedBy_of_data {v w : Json} (hv : registry.call? v = none)
    (hw : registry.call? w = none) {f g : Json → Plan} (hnext : (f v).AttainedBy (g w)) (n : Nat) :
    (Call.ofPlan ((registry.evaluator n .sync scope v).plan.bind f)).AttainedBy
      (Call.ofPlan ((registry.evaluator (n + k) .sync scope w).plan.bind g)) := by
  show Plan.AttainedBy (Plan.bind _ _) (Plan.bind _ _)
  cases n with
  | zero =>
    -- without a budget there is no value
    intro u hu
    rw [Plan.run_bind, Call.plan, Plan.run_emitAll] at hu
    exact nomatch hu
  | succ n =>
    have hleft := planWithin_succ_of_not_call hv n .sync scope
    have hright := planWithin_succ_of_not_call hw (n + k) .sync scope
    rw [planWithin] at hleft hright
    rw [Nat.add_right_comm, hleft, hright, Plan.bind_emitAll, Plan.bind_emitAll]
    intro u hu
    rw [Plan.run_emitAll] at hu ⊢
    exact hnext u hu

/-- A call may be replaced by one of the same routine that does alike with its arguments. -/
theorem replaceableBy_of_call {id : String} {interpreter : Interpreter} {routine : Routine}
    {args args' : List Json} (hget : registry.get? id = some interpreter)
    (hside : interpreter.sync = .supported routine)
    (h : ∀ n, (routine.call (registry.evaluator n) .sync (registry.context scope) args).AttainedBy
      (routine.call (registry.evaluator (n + k)) .sync (registry.context scope) args')) :
    registry.ReplaceableBy scope k (.arr (.str id :: args)) (.arr (.str id :: args')) := by
  intro n
  cases n with
  | zero => exact fun v hv => nomatch hv
  | succ n =>
    have hbody : ∀ (budget : Nat) (args : List Json),
        (registry.evaluator (budget + 1) .sync scope (.arr (.str id :: args))).body =
          (routine.call (registry.evaluator budget) .sync (registry.context scope)
            args).body.within id := by
      intro budget args
      rw [evaluator, evaluateWith, call?, hget]
      simp only [Option.map_some, Call.after, Interpreter.side, hside, Executable.call,
        Call.body_within]
    show Plan.AttainedBy (Call.body _) (Call.body _)
    rw [Nat.add_right_comm, hbody, hbody]
    exact Plan.AttainedBy.within (h n) id

/-- What a handler does comes to the same with more budget. -/
theorem action_attainedBy (registry : Registry) (n k : Nat)
    (action : Action) : (action.plan (registry.evaluator n) .sync).AttainedBy
      (action.plan (registry.evaluator (n + k)) .sync) :=
  have hmono := registry.evaluators_mono .sync (Nat.le_add_right n k)
  Plan.Below.attainedBy (hmono.action action)

/-- A declaration does alike with two arguments that resolve alike. -/
theorem declaration_attainedBy {d : Declaration} {u : TypeSpec} {before : List Json}
    (hspec : d.signature.specs[before.length]? = some u)
    (hxy : (u.resolve .sync (registry.evaluator n .sync scope) x).AttainedBy
      (u.resolve .sync (registry.evaluator (n + k) .sync scope) y)) (after : List Json) :
    (d.plan (registry.evaluator n) .sync (registry.context scope)
        (before ++ x :: after)).AttainedBy
      (d.plan (registry.evaluator (n + k)) .sync (registry.context scope)
        (before ++ y :: after)) := by
  obtain ⟨rest, hrest⟩ :=
    d.signature.exists_arguments_append (List.getElem?_eq_some_iff.1 hspec).1 after
  unfold Declaration.plan
  rw [Signature.supply_eq, Signature.supply_eq, hrest, hrest]
  refine .join (forall₂_resolveEach_between hspec hxy rest) fun params => ?_
  -- the handler gets the same parameters, though not the same arguments were written
  exact (registry.action_attainedBy n k _).emit _ _

/-- A raw handler does alike with two arguments that evaluate alike. -/
theorem raw_attainedBy (handler : Handler)
    (hxy : (registry.evaluator n .sync scope x).AttainedBy
      (registry.evaluator (n + k) .sync scope y)) (before after : List Json) :
    (handler.plan (registry.evaluator n) .sync (registry.context scope)
        (before ++ x :: after)).AttainedBy
      (handler.plan (registry.evaluator (n + k)) .sync (registry.context scope)
        (before ++ y :: after)) := by
  have hsame := registry.resolve_attainedBy scope n k .anything
  exact .join (forall₂_map_between hsame hxy before after) fun params =>
    (registry.action_attainedBy n k _).emit _ _

/-- **What stands at a place that gets evaluated** may be replaced by whatever is as good as it. -/
theorem Evaluates.resolve_put {t : TypeSpec} {place : Place} (h : registry.Evaluates t place)
    (hx : x.str? = none) (hy : y.str? = none) (hxy : registry.ReplaceableBy scope k x y) (n : Nat) :
    (t.resolve .sync (registry.evaluator n .sync scope) (place.put x)).AttainedBy
      (t.resolve .sync (registry.evaluator (n + k) .sync scope) (place.put y)) := by
  induction h generalizing n with
  | here ht => exact hxy.resolve ht n
  | declared ht hget hside hspec _ ih =>
    refine (replaceableBy_of_call hget hside fun budget => ?_).resolve ht n
    exact declaration_attainedBy hspec (ih budget) _
  | raw ht hget hside _ ih =>
    refine (replaceableBy_of_call hget hside fun budget => ?_).resolve ht n
    exact raw_attainedBy _ (ih budget) _ _
  | @tuple items u before after place hdata hspec _ ih =>
    have hcalls := forall₂_resolveEach_between hspec (ih n) after
    refine attainedBy_of_data (call?_append hdata (place.str?_put hx) after)
      (call?_append hdata (place.str?_put hy) after) ?_ n
    by_cases hlength : (before ++ place.put x :: after).length = items.length
    · have hlength' : (before ++ place.put y :: after).length = items.length := by
        simpa using hlength
      simp only [hlength, hlength', if_true]
      exact .join hcalls fun ws v hv => hv
    · -- nothing comes of an array of the wrong length
      simp only [hlength, if_false]
      exact fun v hv => nomatch hv
  | @sequenceOf u before after place hdata _ ih =>
    have hsame := registry.resolve_attainedBy scope n k u
    refine attainedBy_of_data (call?_append hdata (place.str?_put hx) after)
      (call?_append hdata (place.str?_put hy) after) ?_ n
    exact .join (forall₂_map_between hsame (ih n) before after) fun ws v hv => hv
  | record hbefore hspec _ ih =>
    refine attainedBy_of_data rfl rfl ?_ n
    exact (resolveInPlace_between hspec (ih n) hbefore _).bind fun w v hv => hv
  | @recordOf u before after key place _ ih =>
    have hsame := fun entry : String × Json =>
      registry.resolve_attainedBy scope n k u entry.2
    have hkeys : ∀ v : Json, Fields.keys (before ++ (key, v) :: after) =
        Fields.keys (before ++ (key, .null) :: after) := fun v => by simp [Fields.keys]
    refine attainedBy_of_data rfl rfl ?_ n
    refine .join (forall₂_map_between hsame (ih n) before after) fun ws v hv => ?_
    simp only [hkeys (place.put x), hkeys (place.put y)] at hv ⊢
    exact hv

/-! ### Expressions and the literals of their values -/

/-- What a node comes to on the spot, in some budget. -/
def ComesTo (registry : Registry) (scope : Scope) (node v : Json) : Prop :=
  ∃ budget, (registry.planWithin budget .sync scope node).run.verdict = .ok v

theorem comesTo_iff_evaluator {node v : Json} : registry.ComesTo scope node v ↔
    ∃ budget, (registry.evaluator budget .sync scope node).body.run.verdict = .ok v := by
  simp only [ComesTo, planWithin, Call.plan, Plan.run_emitAll, Run.verdict_after]

/-- A node comes to one value only. -/
theorem ComesTo.unique {node v w : Json} (hv : registry.ComesTo scope node v)
    (hw : registry.ComesTo scope node w) : v = w := by
  obtain ⟨n, hn⟩ := hv
  obtain ⟨m, hm⟩ := hw
  -- both budgets may be raised to the larger one
  have hleft := (registry.planWithin_mono .sync scope node (Nat.le_max_left n m)).attainedBy v hn
  have hright := (registry.planWithin_mono .sync scope node (Nat.le_max_right n m)).attainedBy w hm
  exact Except.ok.inj (hleft.symm.trans hright)

/-- What a node comes to is what its evaluation says, unless that breaks off. -/
theorem comesTo_iff_evaluate {node v : Json}
    (hend : (registry.evaluate scope node).verdict ≠ .error .exhausted) :
    registry.ComesTo scope node v ↔ (registry.evaluate scope node).verdict = .ok v := by
  refine ⟨fun ⟨n, hn⟩ => ?_, fun h => ⟨budgetFor node, h⟩⟩
  rcases Nat.le_total n (budgetFor node) with hle | hle
  · exact (registry.planWithin_mono .sync scope node hle).attainedBy v hn
  · rw [evaluate, plan, (registry.planWithin_mono .sync scope node hle).run hend, hn]

end Registry

/-- The expression for a value as it is written. -/
def Core.literalOf (v : Json) : Json := .arr [.str Core.literalId, v]

namespace Registry

variable {registry : Registry} {scope : Scope} {r v : Json}

/-- A literal comes to its value as soon as there is a budget. -/
theorem Declares.verdict_literalOf (h : registry.Declares Core.literalId Core.literal)
    (scope : Scope) (n : Nat) (v : Json) :
    (registry.evaluator (n + 1) .sync scope (Core.literalOf v)).body.run.verdict = .ok v := by
  rw [Core.literalOf, h.evaluator_succ]
  rfl

/-- An expression may be replaced by the literal of its value. -/
theorem Declares.replaceableBy_literalOf (h : registry.Declares Core.literalId Core.literal)
    (hv : registry.ComesTo scope r v) : registry.ReplaceableBy scope 1 r (Core.literalOf v) := by
  intro n w hw
  obtain rfl := hv.unique (comesTo_iff_evaluator.2 ⟨n, hw⟩)
  exact h.verdict_literalOf scope n v

/-- The literal of a value may be replaced by any expression that comes to it, with the budget that
the expression needs. -/
theorem Declares.literalOf_replaceableBy (h : registry.Declares Core.literalId Core.literal)
    (hv : registry.ComesTo scope r v) :
    ∃ k, registry.ReplaceableBy scope k (Core.literalOf v) r := by
  obtain ⟨k, hk⟩ := comesTo_iff_evaluator.1 hv
  refine ⟨k, fun n w hw => ?_⟩
  cases n with
  | zero => exact nomatch hw
  | succ n =>
    obtain rfl : v = w := Except.ok.inj ((h.verdict_literalOf scope n v).symm.trans hw)
    rw [Nat.add_comm]
    exact registry.resolve_attainedBy scope k (n + 1) .anything r v hk

/-- What a node comes to with one thing at a place, it comes to with another that is as good. -/
theorem Evaluates.comesTo_put {place : Place} (hplace : registry.Evaluates .anything place)
    {x y : Json} (hx : x.str? = none) (hy : y.str? = none) {k : Nat}
    (hxy : registry.ReplaceableBy scope k x y) {w : Json}
    (h : registry.ComesTo scope (place.put x) w) :
    registry.ComesTo scope (place.put y) w := by
  obtain ⟨n, hn⟩ := comesTo_iff_evaluator.1 h
  exact comesTo_iff_evaluator.2 ⟨n + k, hplace.resolve_put hx hy hxy n w hn⟩

end Registry

namespace Builder

/-- **Referential transparency.** Let a registry be built after some calls on an empty builder, of
which the last for the identifier of literals registers the interpreter from the core. An expression
that comes to a value and the literal of that value are interchangeable at every place that gets
evaluated: what a node comes to with the one at that place, it comes to with the other, and nothing
else. -/
theorem comesTo_put_iff (runtimeMode : RuntimeMode) (steps : List Step) {registry : Registry}
    (hbuild : ((empty runtimeMode).afterSteps steps).build = .ok registry)
    (hliteral : Step.last? steps Core.literalId = some (.declared Core.literal)) {scope : Scope}
    {r v : Json} (hr : registry.isCall r = true) (hv : registry.ComesTo scope r v) {place : Place}
    (hplace : registry.Evaluates .anything place) (w : Json) :
    registry.ComesTo scope (place.put r) w ↔
      registry.ComesTo scope (place.put (Core.literalOf v)) w := by
  have hdeclares : registry.Declares Core.literalId Core.literal :=
    declares_of_last? hbuild hliteral
  -- a call is no text, so it cannot make a call of the array in which it stands first
  have hstr : r.str? = none := by
    cases r with
    | str s => exact nomatch hr
    | _ => rfl
  obtain ⟨k, hback⟩ := hdeclares.literalOf_replaceableBy hv
  exact ⟨hplace.comesTo_put hstr rfl (hdeclares.replaceableBy_literalOf hv),
    hplace.comesTo_put rfl hstr hback⟩

end Builder

namespace Stock

/-- Raw parameters, and a record of items that are evaluated. -/
def recordSteps : List Builder.Step :=
  [.registerAll Core.definitions, .register "$all" (.raw params),
    .register "$record"
      (.declared (.ofSpecs params [.record [("items", .sequenceOf .anything)]]))]

/-- The last argument of a raw call, in the second of the items of a record that a raw handler
gets. -/
def recordPlace : Place :=
  .item [.str "$all", .null] (.item [.str "$record"]
    (.field [("flag", .null)] "items" (.item [.bool true] (.item [.str "$all"] .here []) []) [])
    []) []

/-- The current value may be read in advance. -/
theorem comesTo_record_literal :
    ∃ registry, ((Builder.empty .production).afterSteps recordSteps).build = .ok registry ∧
      registry.ComesTo (.root (.bool false)) (recordPlace.put Core.currentValue)
        (.arr [.null, .arr [.obj [("flag", .null),
          ("items", .arr [.bool true, .arr [.bool false]])]]]) ∧
      registry.ComesTo (.root (.bool false)) (recordPlace.put (Core.literalOf (.bool false)))
        (.arr [.null, .arr [.obj [("flag", .null),
          ("items", .arr [.bool true, .arr [.bool false]])]]]) := by
  have hopen : TypeSpec.anything ≠ .delayed := by simp [TypeSpec.anything, TypeSpec.delayed]
  refine ⟨_, rfl, ⟨6, rfl⟩, ?_⟩
  refine (Builder.comesTo_put_iff .production recordSteps rfl rfl (r := Core.currentValue) rfl
    ⟨2, rfl⟩ ?_ _).1 ⟨6, rfl⟩
  refine .raw hopen rfl rfl (.declared hopen rfl rfl rfl ?_)
  exact .record rfl rfl (.sequenceOf rfl (.raw hopen rfl rfl (.here hopen)))

end Stock

end SigilExpr
