import SigilExpr.Proofs.Agreement
import SigilExpr.Proofs.Flat.Ends
import SigilExpr.Proofs.Lines
import SigilExpr.Proofs.Surfacing

/-!
# What the command prints

The command evaluates an expression on the spot and on a clock. With its interpreters both come to
an end, and to the same end, so it prints either the same text twice or one line about a failure
(`Command.report_outcome`). Only a text that is refused as a document is reported otherwise, and
that may be because its containers are nested too deeply (`Command.report_nested`).

The interpreters of the command are flat, so evaluations end (`Registry.Flat.completes_of_depth`)
and both modes agree (`Registry.Twinned.agreement`). Their handlers never give up
(`Definition.Finishes`), so whatever fails is a check in the call of one of them, and the failure is
displayed on one line (`EvalError.oneLine_display`).
-/

namespace SigilExpr

/-! ### Flat definitions in both modes -/

/-- A shape that is no container has no fields to declare twice. -/
theorem TypeSpec.declaresOnce_of_isFlat {t : TypeSpec} (h : t.isFlat = true) :
    t.declaresOnce = true := by
  cases t with
  | any => rfl
  | single => rfl
  | oneOf => rfl
  | oneValueOf => rfl
  | _ => exact nomatch h

/-- A flat definition gives both modes the same routine. -/
theorem Definition.Flat.twinned {definition : Definition} (h : definition.Flat) :
    definition.Twinned := by
  cases definition with
  | declared d => exact fun t ht => TypeSpec.declaresOnce_of_isFlat (h.specs t ht)
  | raw handler => trivial
  | pair => exact h.elim

/-- Where both modes have the same routines, what is launched for a node ends as it does on the
spot. -/
theorem Registry.Twinned.verdict_launch {registry : Registry} (h : registry.Twinned) (scope : Scope)
    (node : Json) :
    (registry.launch scope node).verdict = (registry.evaluate scope node).verdict :=
  have hprompt := (h.prompt (budgetFor node) .async).planWithin scope node
  have hagree := (h.agreement (budgetFor node)).planWithin scope node
  (Plan.Prompt.launchesAs hprompt hagree 0).2.1

/-! ### Handlers that never give up -/

/-- A declaration whose handler ends well whatever it gets. -/
def Definition.Finishes : Definition → Prop
  | .declared d => ∀ params ctx, ∃ outcome, d.handler params ctx = .finish outcome
  | _ => False

namespace Definition.Finishes

variable {definition : Definition}

theorem handler_finishes (h : definition.Finishes) {mode : Mode} {routine : Routine}
    (hgives : definition.Gives mode routine) :
    ∃ d : ValidDeclaration, routine = .declared d ∧
      ∀ params ctx, ∃ outcome, d.handler params ctx = .finish outcome := by
  cases hgives with
  | declared valid hvalid =>
    subst hvalid
    exact ⟨valid, rfl, h⟩
  | raw => exact h.elim
  | onTheSpot => exact h.elim
  | inTime => exact h.elim

theorem plain (h : definition.Finishes) : definition.Plain := by
  intro routine hgives
  obtain ⟨d, rfl, hfinish⟩ := h.handler_finishes hgives
  intro params ctx
  obtain ⟨outcome, heq⟩ := hfinish params ctx
  exact heq ▸ .finish outcome

/-- It raises no errors of its own. -/
theorem raises (h : definition.Finishes) : definition.Raises fun _ => False := by
  intro mode routine hgives
  obtain ⟨d, rfl, hfinish⟩ := h.handler_finishes hgives
  intro params ctx
  obtain ⟨outcome, heq⟩ := hfinish params ctx
  exact heq ▸ .finish outcome

theorem not_lacks (h : definition.Finishes) (mode : Mode) : ¬ definition.Lacks mode := by
  rintro ⟨⟩ <;> exact h.elim

end Definition.Finishes

/-- An error of a plain registry names one of its identifiers. -/
theorem Registry.Plain.exists_id {registry : Registry} (h : registry.Plain) {budget : Nat}
    {scope : Scope} {node : Json} {e : EvalError}
    (he : (registry.planWithin budget .sync scope node).run.verdict = .error (.failed e)) :
    ∃ id, registry.contains id = true ∧ e.id = some id := by
  obtain ⟨g, rfl, rfl, rfl, hall⟩ := h.recorded budget scope node
  rw [(hall g g.self_mem_evaluations).run] at he
  -- the error is that of the first call that fails, and names it
  obtain ⟨_, _, _, -, -, ⟨_, id, _, -, -, hcontains, -, hid⟩, -⟩ := exists_first_of_recounts hall he
  exact ⟨id, hcontains, hid⟩

/-- **If no handler gives up, only checks fail.** An evaluation fails with a mismatch that came to
light in the call of an interpreter of the registry. -/
theorem Builder.exists_mismatch_of_finishes {builder : Builder} {registry : Registry}
    (hbuild : builder.build = .ok registry)
    (hfinish : ∀ entry ∈ builder.definitions, entry.2.Finishes) {budget : Nat} {scope : Scope}
    {node : Json} {e : EvalError}
    (he : (registry.planWithin budget .sync scope node).run.verdict = .error (.failed e)) :
    ∃ t v id, e = ⟨.mismatch t v, some id⟩ ∧
      ∃ definition, (id, definition) ∈ builder.definitions := by
  have hplain := plain_of_build hbuild fun entry hm => (hfinish entry hm).plain
  obtain ⟨id, hcontains, hid⟩ := hplain.exists_id he
  obtain ⟨interpreter, hget⟩ := Option.isSome_iff_exists.1 hcontains
  obtain ⟨definition, hm, -⟩ := exists_definition_of_build hbuild hget
  have hraises := raises_of_build hbuild fun entry hm => (hfinish entry hm).raises
  have hexpected : builder.Expects registry (fun _ => False) e :=
    Call.failsOnly_plan_iff.2 (Registry.failsOnly_evaluator lasting_expects
      (fun _ h => h.elim) hraises budget .sync scope node) .sync 0 e he
  -- handlers have no errors of their own, and every interpreter has something for both modes
  rcases hexpected with ⟨t, v, hcause⟩ | hnone | ⟨name, other, lacking, -, -, hother, hlacks⟩
  · refine ⟨t, v, id, ?_, definition, hm⟩
    rw [← hcause, ← hid]
  · exact hnone.elim
  · exact absurd hlacks ((hfinish _ (Fields.mem_of_get? hother)).not_lacks lacking)

/-! ### Texts of arrays in arrays -/

namespace Json

/-- Arrays in arrays. -/
def nested : Nat → Json
  | 0 => .arr []
  | n + 1 => .arr [nested n]

/-- The text of arrays in arrays is one bracket after the other. -/
theorem toList_text_nested (n : Nat) :
    (nested n).text.toList = List.replicate (n + 1) '[' ++ List.replicate (n + 1) ']' := by
  induction n with
  | zero => decide
  | succ n ih =>
    have htext : (nested (n + 1)).text = "[" ++ (nested n).text ++ "]" := rfl
    rw [htext, String.toList_append, String.toList_append, ih, List.replicate_succ (n := n + 1),
      List.replicate_succ' (n := n + 1)]
    simp

/-- The first token is cut off. -/
theorem Token.scan?_cons {c : Char} {cs after : List Char} {token : Token}
    (hspace : isSpace c = false) (hnext : next? (c :: cs) = some (token, after)) :
    scan? (c :: cs) = (scan? after).map (token :: ·) := by
  rw [scan?, if_neg (by simp [hspace])]
  split
  · rename_i hnone
    cases hnone.symm.trans hnext
  · rename_i token' after' hsome
    obtain ⟨rfl, rfl⟩ := Prod.mk.inj (Option.some.inj (hsome.symm.trans hnext))
    rfl

/-- Brackets are the tokens that they stand for. -/
theorem Token.scan?_brackets (n m : Nat) :
    scan? (List.replicate n '[' ++ List.replicate m ']') =
      some (List.replicate n .openItems ++ List.replicate m .closeItems) := by
  induction n with
  | zero =>
    induction m with
    | zero => rw [List.replicate_zero, List.replicate_zero, List.nil_append, scan?]; rfl
    | succ m ih =>
      rw [List.replicate_zero, List.nil_append] at ih
      rw [List.replicate_zero, List.nil_append, List.replicate_succ,
        scan?_cons (by decide) rfl, ih]
      rfl
  | succ n ih =>
    rw [List.replicate_succ, List.cons_append, scan?_cons (by decide) rfl, ih]
    rfl

/-- Nothing is read where too many arrays are opened in one another. -/
theorem Reader.foldlM_open {n k : Nat} (hk : k ≤ maxDepth) (h : maxDepth < k + n)
    (tokens : List Token) :
    (List.replicate n Token.openItems ++ tokens).foldlM step
      ⟨List.replicate k (.items []), .firstItem⟩ = none := by
  induction n generalizing k with
  | zero => omega
  | succ n ih =>
    have hstep : step ⟨List.replicate k (.items []), .firstItem⟩ .openItems =
        opened (.items []) .firstItem (List.replicate k (.items [])) := rfl
    rw [List.replicate_succ, List.cons_append, List.foldlM_cons, hstep, opened,
      List.length_replicate]
    by_cases hlt : k < maxDepth
    · -- one more array is open, and one less is to be opened
      rw [if_pos hlt, ← List.replicate_succ]
      exact ih hlt (by omega)
    · rw [if_neg hlt]
      rfl

/-- Arrays are refused that are nested more deeply than containers may be open at once. -/
theorem read?_text_nested {n : Nat} (h : Reader.maxDepth ≤ n) :
    read? (nested n).text = none := by
  -- the first array is opened on an empty stack, the others in one another
  have hopen := Reader.foldlM_open (n := n) (k := 1) (by decide) (by omega)
    (List.replicate (n + 1) .closeItems)
  have hfirst : Reader.step Reader.start .openItems =
      some ⟨List.replicate 1 (.items []), .firstItem⟩ := rfl
  rw [read?, toList_text_nested, Token.scan?_brackets, Option.bind_some, Reader.value?,
    List.replicate_succ, List.cons_append, List.foldlM_cons, hfirst]
  simp only [Option.bind_eq_bind, Option.bind_some, hopen, Option.bind_none]

end Json

/-! ### The interpreters of the command -/

namespace Command

/-- What is true of the core interpreters and of the command's own is true of all. -/
theorem forall_mem_builder (runtimeMode : RuntimeMode) {P : String × Definition → Prop}
    (hcore : ∀ entry ∈ Core.definitions, P entry) (hown : ∀ entry ∈ definitions, P entry) :
    ∀ entry ∈ (builder runtimeMode).definitions, P entry := by
  -- the builder of the command is what two calls make of an empty one
  have hsteps : builder runtimeMode = (Builder.empty runtimeMode).afterSteps
      [.registerAll Core.definitions, .registerAll definitions] := by
    rw [builder, Core.builder, Builder.afterSteps, List.foldl_cons, List.foldl_cons,
      List.foldl_nil, Builder.Step.apply, Builder.Step.apply]
  rw [hsteps]
  exact Builder.forall_mem_afterSteps (List.forall_mem_append.2 ⟨hcore, hown⟩)

theorem flat_builder (runtimeMode : RuntimeMode) :
    ∀ entry ∈ (builder runtimeMode).definitions, entry.2.Flat :=
  forall_mem_builder runtimeMode Core.definitions_flat definitions_flat

theorem finishes_builder (runtimeMode : RuntimeMode) :
    ∀ entry ∈ (builder runtimeMode).definitions, entry.2.Finishes := by
  have hreadValue : ∀ params ctx, ∃ outcome, Core.readValue params ctx = .finish outcome := by
    intro params ctx
    unfold Core.readValue
    split <;> exact ⟨_, rfl⟩
  have hchoose : ∀ params ctx, ∃ outcome, Stock.choose params ctx = .finish outcome := by
    intro params ctx
    unfold Stock.choose
    split <;> exact ⟨_, rfl⟩
  have hvalue : ∀ v, ∃ outcome, Action.value v = .finish outcome := fun v => ⟨.value v, rfl⟩
  refine forall_mem_builder runtimeMode ?_ ?_
  · simp only [Core.definitions, List.forall_mem_cons]
    exact ⟨hreadValue, fun _ _ => hvalue _, fun _ _ => ⟨_, rfl⟩, List.forall_mem_nil _⟩
  · simp only [definitions, List.forall_mem_cons]
    exact ⟨fun _ _ => hvalue _, fun _ _ => hvalue _, fun _ _ => hvalue _, hchoose,
      List.forall_mem_nil _⟩

/-- The interpreter for the current value leaves nothing to default. -/
theorem eq_zero_of_fallback (runtimeMode : RuntimeMode) :
    ∀ d, (Core.valueId, .declared d) ∈ (builder runtimeMode).definitions →
      ∀ k, d.signature.fallback = some k → k = 0 := by
  have hvalue : ∀ entry ∈ (builder runtimeMode).definitions,
      entry.1 = Core.valueId → entry.2 = .declared Core.value := by
    refine forall_mem_builder runtimeMode ?_ ?_
    · simp only [Core.definitions, List.forall_mem_cons]
      exact ⟨fun _ => trivial, fun h => absurd h (by decide), fun h => absurd h (by decide),
        List.forall_mem_nil _⟩
    · simp only [definitions, List.forall_mem_cons]
      exact ⟨fun h => absurd h (by decide), fun h => absurd h (by decide),
        fun h => absurd h (by decide), fun h => absurd h (by decide), List.forall_mem_nil _⟩
  intro d hd k hk
  obtain rfl := Definition.declared.inj (hvalue _ hd rfl)
  cases hk

/-- None of the identifiers has a line break in it. -/
theorem oneLine_ids (runtimeMode : RuntimeMode) :
    ∀ entry ∈ (builder runtimeMode).definitions, Text.OneLine entry.1 := by
  refine forall_mem_builder runtimeMode ?_ ?_
  · simp only [Core.definitions, List.forall_mem_cons]
    exact ⟨by decide, by decide, by decide, List.forall_mem_nil _⟩
  · simp only [definitions, List.forall_mem_cons]
    exact ⟨by decide, by decide, by decide, by decide, List.forall_mem_nil _⟩

section

variable {runtimeMode : RuntimeMode} {registry : Registry}
  (hbuild : (builder runtimeMode).build = .ok registry)

include hbuild

/-- Every evaluation on the spot comes to an end. -/
theorem evaluate_ne_exhausted (scope : Scope) (node : Json) :
    (registry.evaluate scope node).verdict ≠ .error .exhausted := by
  have hflat := flat_builder runtimeMode
  -- to read the current value leads to null only, so the depth of the node bounds the recursion
  have hnull : ∀ raw ∈ registry.supplied .sync Core.currentValue, raw = .null :=
    Builder.eq_null_of_mem_supplied hbuild hflat (eq_zero_of_fallback runtimeMode)
  have hbudget : node.depth + 2 < Registry.budgetFor node := by
    unfold Registry.budgetFor Registry.standardBudget
    omega
  exact (Builder.flat_of_build hbuild hflat).completes_of_depth hnull hbudget scope 0

/-- A failure is displayed on one line. -/
theorem oneLine_display_of_failed {scope : Scope} {node : Json} {e : EvalError}
    (he : (registry.evaluate scope node).verdict = .error (.failed e)) :
    Text.OneLine e.display := by
  obtain ⟨t, v, id, rfl, definition, hm⟩ :=
    Builder.exists_mismatch_of_finishes hbuild (finishes_builder runtimeMode) he
  refine EvalError.oneLine_display (Cause.oneLine_message_mismatch t v) fun name hname => ?_
  obtain rfl := Option.some.inj hname
  exact oneLine_ids runtimeMode _ hm

end

/-- A registry is built in either runtime mode. -/
theorem exists_build (runtimeMode : RuntimeMode) :
    ∃ registry, (builder runtimeMode).build = .ok registry := by
  cases runtimeMode <;> exact ⟨_, rfl⟩

/-- **The command prints the same text twice, or one line.** A text that is no document is reported
as such. For every document, whatever its shape, both evaluations of its expression in the scope of
its value come to an end, and to the same end:

* if they come to a value, the command exits with `0` and prints its text for either mode;
* if they fail, it exits with `1` and prints nothing but one line about the failure on the spot. -/
theorem report_outcome (name : String) (runtimeMode : RuntimeMode) (text : String) :
    (Json.read? text = none ∧ report name runtimeMode text = unreadable name) ∨
    ∃ document registry, Json.read? text = some document ∧
      (builder runtimeMode).build = .ok registry ∧
      let scope := Scope.root (part document "value")
      let node := part document "expression"
      let sync := (registry.evaluate scope node).verdict
      let async := (registry.launch scope node).verdict
      (∃ v, sync = .ok v ∧ async = .ok v ∧ report name runtimeMode text =
        ⟨0, "sync:  " ++ v.pretty ++ "\nasync: " ++ v.pretty ++ "\n", ""⟩) ∨
      ∃ e, sync = .error (.failed e) ∧ async = .error (.failed e) ∧
        report name runtimeMode text = ⟨1, "", "sync " ++ name ++ ": " ++ e.display ++ "\n"⟩ ∧
        Text.OneLine e.display := by
  obtain ⟨registry, hbuild⟩ := exists_build runtimeMode
  cases hread : Json.read? text with
  | none => exact .inl ⟨rfl, by rw [report, hread]⟩
  | some document =>
    refine .inr ⟨document, registry, rfl, hbuild, ?_⟩
    intro scope node sync async
    have htwinned : registry.Twinned :=
      Builder.twinned_of_build hbuild fun entry hm => (flat_builder runtimeMode entry hm).twinned
    -- both modes agree, so nothing but the verdict on the spot is left to look at
    have hasync : async = sync := htwinned.verdict_launch scope node
    have hreport : report name runtimeMode text = reportResults name sync async := by
      rw [report, hread]
      simp only [reportDocument, hbuild]
      rfl
    rw [hreport, hasync]
    cases hsync : sync with
    | ok v => exact .inl ⟨v, rfl, rfl, rfl⟩
    | error why =>
      cases why with
      | exhausted => exact absurd hsync (evaluate_ne_exhausted hbuild scope node)
      | failed e =>
        exact .inr ⟨e, rfl, rfl, rfl, oneLine_display_of_failed hbuild hsync⟩

/-- A value that is nested too deeply has a text, but the command refuses it as a document. -/
theorem report_nested :
    (∀ result : String, report "DOC" .standard (Json.nested 127).text ≠
      ⟨0, "sync:  " ++ result ++ "\nasync: " ++ result ++ "\n", ""⟩) ∧
    ∀ error : String, report "DOC" .standard (Json.nested 127).text ≠
      ⟨1, "", "sync DOC: " ++ error ++ "\n"⟩ := by
  have hread := Json.read?_text_nested (n := 127) (Nat.le_refl _)
  have hreport : report "DOC" .standard (Json.nested 127).text = unreadable "DOC" := by
    rw [report, hread]
  rw [hreport]
  refine ⟨fun result h => ?_, fun error h => ?_⟩
  · exact absurd (congrArg Report.exit h) Nat.one_ne_zero
  · -- the two messages do not begin alike
    have hfirst := congrArg (fun r => r.stderr.toList.head?) h
    simp [unreadable, failure] at hfirst

end Command

end SigilExpr
