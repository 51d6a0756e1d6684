import MiniLisp.Proofs.Evaluation

/-!
# The depth of evaluation

The gauge counts how many forms are being evaluated inside each other. It counts one more when
evaluation of a form starts and one less when it ends, and evaluation ends in many ways: with a value,
with an error, with the error of an item after some of the items have been evaluated, or because the
limit was reached. Functions of the embedding program are called in between. They may evaluate forms
themselves and they may change the limit. As long as they leave the depth as they found it, so does
evaluation, and each of them finds the depth that its place in the form calls for.

`Called` says which functions are called while a form is evaluated, how far inside the form, and what
gauge they find. It is no part of the evaluator, so `eval_congr_host` says that it misses no call: what
the embedding program does elsewhere has no influence.

Results:
1. `keepsDepth_eval`: evaluation leaves the depth as it found it.
2. `Called.depth_eq`: a function that is called inside of `level` forms finds the depth `level` higher.
3. `eval_congr_host`: evaluation depends on the embedding program at those calls only.
4. `eval_restores_depth`: all of it, and what follows for evaluations one after the other.
-/

namespace MiniLisp

variable {π : Type}

/-! ## Definitions -/

/-- The gauge that is left after an action, whether it returned or failed. -/
def EvalM.after {α : Type} (action : EvalM α) (gauge : Gauge) : Gauge :=
  match action.run gauge with
  | .ok _ gauge => gauge
  | .error _ gauge => gauge

/-- The action leaves the depth as it found it. -/
def EvalM.KeepsDepth {α : Type} (action : EvalM α) : Prop :=
  ∀ gauge, (action.after gauge).depth = gauge.depth

/-- The functions of the embedding program leave the depth as they found it. -/
def Host.KeepsDepth (host : Host π) : Prop := ∀ code args, (host code args).KeepsDepth

/-- The gauge while one form more is being evaluated. -/
def Gauge.deeper (gauge : Gauge) : Gauge := { gauge with depth := gauge.depth + 1 }

/-- Whether the values of the subforms are applied to each other. -/
def Value.isApplied : Value π → Bool
  | .list _ _ => true
  | .sugar _ _ _ _ => true
  | _ => false

/-- `Called host env gauge form level f args seen`: when `form` is evaluated from `gauge`, the
function `f` is called with `args`, and the gauge is `seen` then. The call is for the form itself if
`level` is one, for one of its subforms if it is two, and so on. -/
inductive Called (host : Host π) (env : Env π) :
    Gauge → Value π → Nat → Procedure π → List (Value π) → Gauge → Prop
  | here {gauge seen : Gauge} {form : Value π} {f : Procedure π} {md : Option (Value π)}
      {args : List (Value π)} :
      gauge.depth < gauge.limit → form.isApplied = true →
      (evalItems host env form.subforms).run gauge.deeper = .ok (.procedure f md :: args) seen →
      Called host env gauge form 1 f args seen
  | inside {gauge between seen : Gauge} {form x : Value π} {before others values : List (Value π)}
      {level : Nat} {f : Procedure π} {args : List (Value π)} :
      gauge.depth < gauge.limit → form.subforms = before ++ x :: others →
      (evalItems host env before).run gauge.deeper = .ok values between →
      Called host env between x level f args seen →
      Called host env gauge form (level + 1) f args seen

/-- The gauge after forms were evaluated one after the other, each in its environment, whether they
had values or not. -/
def gaugeAfter (host : Host π) (gauge : Gauge) (evaluations : List (Env π × Value π)) : Gauge :=
  evaluations.foldl (fun gauge (env, form) => (eval host env form).after gauge) gauge

/-! ## Actions that leave the depth as it is -/

section

variable {α β : Type}

theorem EvalM.after_of_ok {action : EvalM α} {gauge after : Gauge} {x : α}
    (h : action.run gauge = .ok x after) : action.after gauge = after := by
  rw [EvalM.after, h]

theorem EvalM.after_of_error {action : EvalM α} {gauge after : Gauge} {e : EvalError}
    (h : action.run gauge = .error e after) : action.after gauge = after := by
  rw [EvalM.after, h]

theorem EvalM.KeepsDepth.depth_of_ok {action : EvalM α} (h : action.KeepsDepth)
    {gauge after : Gauge} {x : α} (hrun : action.run gauge = .ok x after) :
    after.depth = gauge.depth := by
  rw [← EvalM.after_of_ok hrun]
  exact h gauge

theorem keepsDepth_pure (x : α) : (pure x : EvalM α).KeepsDepth := fun _ => rfl

theorem keepsDepth_throw (e : EvalError) : (throw e : EvalM α).KeepsDepth := fun _ => rfl

theorem EvalM.KeepsDepth.bind {first : EvalM α} {next : α → EvalM β} (hfirst : first.KeepsDepth)
    (hnext : ∀ x, (next x).KeepsDepth) : (first >>= next).KeepsDepth := by
  intro gauge
  have hgauge := hfirst gauge
  unfold EvalM.after at hgauge ⊢
  rw [EStateM.run_bind]
  cases hrun : first.run gauge with
  | ok x between =>
    rw [hrun] at hgauge
    exact (hnext x between).trans hgauge
  | error e between =>
    rw [hrun] at hgauge
    exact hgauge

theorem EvalM.run_nested_of_ok {action : EvalM α} {gauge after : Gauge} {x : α}
    (hroom : gauge.depth < gauge.limit) (hrun : action.run gauge.deeper = .ok x after) :
    (EvalM.nested action).run gauge = .ok x { after with depth := after.depth - 1 } := by
  have hrun : action.run { gauge with depth := gauge.depth + 1 } = .ok x after := hrun
  change EvalM.nested action gauge = _
  rw [EvalM.nested, if_neg (Nat.not_le_of_lt hroom), hrun]

theorem EvalM.run_nested_of_error {action : EvalM α} {gauge after : Gauge} {e : EvalError}
    (hroom : gauge.depth < gauge.limit) (hrun : action.run gauge.deeper = .error e after) :
    (EvalM.nested action).run gauge = .error e { after with depth := after.depth - 1 } := by
  have hrun : action.run { gauge with depth := gauge.depth + 1 } = .error e after := hrun
  change EvalM.nested action gauge = _
  rw [EvalM.nested, if_neg (Nat.not_le_of_lt hroom), hrun]

theorem EvalM.run_nested_of_le (action : EvalM α) {gauge : Gauge}
    (hfull : gauge.limit ≤ gauge.depth) :
    (EvalM.nested action).run gauge = .error (.depthExceeded gauge.limit) gauge :=
  if_pos hfull

/-- What was counted at the start of a form is taken back where the form ends, be it with a value or
with an error. Where the form is refused, nothing has been counted. -/
theorem EvalM.KeepsDepth.nested {action : EvalM α} (h : action.KeepsDepth) :
    (EvalM.nested action).KeepsDepth := by
  intro gauge
  have hinner := h gauge.deeper
  rcases Nat.lt_or_ge gauge.depth gauge.limit with hroom | hfull
  · cases hrun : action.run gauge.deeper with
    | ok x after =>
      rw [after_of_ok hrun] at hinner
      rw [after_of_ok (run_nested_of_ok hroom hrun)]
      show after.depth - 1 = gauge.depth
      rw [hinner]
      rfl
    | error e after =>
      rw [after_of_error hrun] at hinner
      rw [after_of_error (run_nested_of_error hroom hrun)]
      show after.depth - 1 = gauge.depth
      rw [hinner]
      rfl
  · rw [after_of_error (run_nested_of_le action hfull)]

end

/-! ## Evaluation leaves the depth as it is -/

theorem keepsDepth_call {host : Host π} (hhost : host.KeepsDepth) (f : Procedure π)
    (args : List (Value π)) : (f.call host args).KeepsDepth := by
  unfold Procedure.call
  split
  · split
    · exact keepsDepth_pure _
    · exact keepsDepth_throw _
  · exact hhost _ _
  · exact keepsDepth_throw _

theorem keepsDepth_apply {host : Host π} (hhost : host.KeepsDepth) (head : Value π)
    (args : List (Value π)) : (apply host head args).KeepsDepth := by
  unfold apply
  split
  · exact keepsDepth_call hhost _ args
  · exact keepsDepth_throw _

theorem keepsDepth_applyItems {host : Host π} (hhost : host.KeepsDepth)
    (values : List (Value π)) : (applyItems host values).KeepsDepth := by
  cases values with
  | nil => exact keepsDepth_pure _
  | cons head args => exact keepsDepth_apply hhost head args

theorem keepsDepth_evalAtom (env : Env π) (a : Atom) (md : Option (Value π)) :
    (evalAtom env a md).KeepsDepth := by
  unfold evalAtom
  split
  · unfold resolve
    split
    · exact keepsDepth_pure _
    · exact keepsDepth_throw _
  · exact keepsDepth_pure _

theorem keepsDepth_assemble {host : Host π} (hhost : host.KeepsDepth) (env : Env π)
    (form : Value π) (values : List (Value π)) :
    (form.assemble host env values).KeepsDepth := by
  cases form with
  | atom a md => exact keepsDepth_evalAtom env a md
  | list items md => exact keepsDepth_applyItems hhost values
  | sugar tag inner metaForm md => exact keepsDepth_applyItems hhost values
  | _ => exact keepsDepth_pure _

/-- Items that leave the depth as it is one by one do so in a row, also if one of them fails. -/
theorem keepsDepth_evalItems {host : Host π} {env : Env π} {items : List (Value π)}
    (h : ∀ x ∈ items, (eval host env x).KeepsDepth) : (evalItems host env items).KeepsDepth := by
  induction items with
  | nil => exact keepsDepth_pure _
  | cons x xs ih =>
    rw [List.forall_mem_cons] at h
    rw [evalItems]
    exact h.1.bind fun _ => (ih h.2).bind fun _ => keepsDepth_pure _

/-- Evaluation leaves the depth as it found it, wherever it ends. -/
theorem keepsDepth_eval {host : Host π} (hhost : host.KeepsDepth) (env : Env π) (form : Value π) :
    (eval host env form).KeepsDepth := by
  induction form using Value.induction_subforms with
  | step form ih =>
    rw [eval_eq]
    exact ((keepsDepth_evalItems ih).bind fun values =>
      keepsDepth_assemble hhost env form values).nested

/-- What was evaluated before an item leaves the depth of the items. -/
theorem depth_of_run_evalItems {host : Host π} (hhost : host.KeepsDepth) {env : Env π}
    {items values : List (Value π)} {gauge after : Gauge}
    (h : (evalItems host env items).run gauge = .ok values after) : after.depth = gauge.depth :=
  (keepsDepth_evalItems fun x _ => keepsDepth_eval hhost env x).depth_of_ok h

/-! ## What functions find when they are called -/

/-- A function that is called for a form at a level finds the depth higher by that level. -/
theorem Called.depth_eq {host : Host π} (hhost : host.KeepsDepth) {env : Env π}
    {gauge seen : Gauge} {form : Value π} {level : Nat} {f : Procedure π} {args : List (Value π)}
    (h : Called host env gauge form level f args seen) : seen.depth = gauge.depth + level := by
  induction h with
  | here _ _ hitems => exact depth_of_run_evalItems hhost hitems
  | @inside gauge between _ _ _ _ _ _ _ _ _ _ _ hbefore _ ih =>
    have hdepth : between.depth = gauge.depth + 1 := depth_of_run_evalItems hhost hbefore
    omega

/-! ## There are no other calls -/

theorem run_nested_congr {α : Type} {action other : EvalM α} {gauge : Gauge}
    (h : gauge.depth < gauge.limit → other.run gauge.deeper = action.run gauge.deeper) :
    (EvalM.nested other).run gauge = (EvalM.nested action).run gauge := by
  rcases Nat.lt_or_ge gauge.depth gauge.limit with hroom | hfull
  · cases hrun : action.run gauge.deeper with
    | ok x after =>
      rw [EvalM.run_nested_of_ok hroom hrun, EvalM.run_nested_of_ok hroom ((h hroom).trans hrun)]
    | error e after =>
      rw [EvalM.run_nested_of_error hroom hrun,
        EvalM.run_nested_of_error hroom ((h hroom).trans hrun)]
  · rw [EvalM.run_nested_of_le _ hfull, EvalM.run_nested_of_le _ hfull]

theorem run_evalItems_cons {host : Host π} {env : Env π} {x value : Value π}
    {xs values : List (Value π)} {gauge between after : Gauge}
    (hx : (eval host env x).run gauge = .ok value between)
    (hxs : (evalItems host env xs).run between = .ok values after) :
    (evalItems host env (x :: xs)).run gauge = .ok (value :: values) after := by
  rw [evalItems, EStateM.run_bind, hx]
  show (evalItems host env xs >>= _).run between = _
  rw [EStateM.run_bind, hxs]
  rfl

/-- Items run alike for two hosts, if each of them does in the gauge that the items before it leave. -/
theorem run_evalItems_congr {host other : Host π} {env : Env π} {items : List (Value π)}
    {gauge : Gauge}
    (h : ∀ before x others values between, items = before ++ x :: others →
      (evalItems host env before).run gauge = .ok values between →
      (eval other env x).run between = (eval host env x).run between) :
    (evalItems other env items).run gauge = (evalItems host env items).run gauge := by
  induction items generalizing gauge with
  | nil => rfl
  | cons x xs ih =>
    have hfirst := h [] x xs [] gauge rfl rfl
    rw [evalItems, evalItems, EStateM.run_bind, EStateM.run_bind, hfirst]
    cases hx : (eval host env x).run gauge with
    | error e between => rfl
    | ok value between =>
      have hrest : (evalItems other env xs).run between = (evalItems host env xs).run between := by
        refine ih fun before y others values after hsplit hbefore => ?_
        exact h (x :: before) y others (value :: values) after (by rw [hsplit, List.cons_append])
          (run_evalItems_cons hx hbefore)
      show (evalItems other env xs >>= _).run between = (evalItems host env xs >>= _).run between
      rw [EStateM.run_bind, EStateM.run_bind, hrest]

theorem run_assemble_congr {host other : Host π} (env : Env π) {form : Value π}
    {values : List (Value π)} {gauge : Gauge}
    (h : form.isApplied = true → ∀ f md args, values = .procedure f md :: args →
      (f.call other args).run gauge = (f.call host args).run gauge) :
    (form.assemble other env values).run gauge = (form.assemble host env values).run gauge := by
  have happly : form.isApplied = true →
      (applyItems other values).run gauge = (applyItems host values).run gauge := by
    intro happlied
    cases values with
    | nil => rfl
    | cons head args =>
      cases head with
      | procedure f md => exact h happlied f md args rfl
      | _ => rfl
  cases form with
  | list items md => exact happly rfl
  | sugar tag inner metaForm md => exact happly rfl
  | _ => rfl

/-- Two hosts cannot be told apart by a form, if they do the same where functions are called. -/
theorem eval_congr_host {host other : Host π} {env : Env π} {form : Value π} {gauge : Gauge}
    (h : ∀ level f args seen, Called host env gauge form level f args seen →
      (f.call other args).run seen = (f.call host args).run seen) :
    (eval other env form).run gauge = (eval host env form).run gauge := by
  induction form using Value.induction_subforms generalizing gauge with
  | step form ih =>
    rw [eval_eq, eval_eq]
    refine run_nested_congr fun hroom => ?_
    have hitems : (evalItems other env form.subforms).run gauge.deeper =
        (evalItems host env form.subforms).run gauge.deeper := by
      refine run_evalItems_congr fun before x others values between hsplit hbefore => ?_
      refine ih x (by simp [hsplit]) fun level f args seen hcalled => ?_
      exact h (level + 1) f args seen (.inside hroom hsplit hbefore hcalled)
    rw [EStateM.run_bind, EStateM.run_bind, hitems]
    cases hvalues : (evalItems host env form.subforms).run gauge.deeper with
    | error e after => rfl
    | ok values after =>
      refine run_assemble_congr env fun happlied f md args hhead => ?_
      exact h 1 f args after (.here hroom happlied (hhead ▸ hvalues))

/-! ## The depth is restored -/

/-- If the functions of the embedding program leave the depth as they found it, whatever else they
do, then

* evaluation leaves the depth as it found it, whether it returns a value or fails;
* each function that is called inside of `level` forms finds the depth higher by `level`;
* these are all the calls: a host that does the same at them cannot be told from this one;
* after any number of evaluations at depth zero, the depth is zero again. -/
theorem eval_restores_depth {host : Host π} (hhost : host.KeepsDepth) (env : Env π)
    (form : Value π) (gauge : Gauge) :
    ((eval host env form).after gauge).depth = gauge.depth ∧
      (∀ level f args seen, Called host env gauge form level f args seen →
        seen.depth = gauge.depth + level) ∧
      (∀ other : Host π, (∀ level f args seen, Called host env gauge form level f args seen →
          (f.call other args).run seen = (f.call host args).run seen) →
        (eval other env form).run gauge = (eval host env form).run gauge) ∧
      ∀ (evaluations : List (Env π × Value π)) (start : Gauge), start.depth = 0 →
        (gaugeAfter host start evaluations).depth = 0 := by
  refine ⟨keepsDepth_eval hhost env form gauge, fun _ _ _ _ h => h.depth_eq hhost,
    fun _ h => eval_congr_host h, ?_⟩
  intro evaluations
  induction evaluations with
  | nil => exact fun _ hstart => hstart
  | cons evaluation rest ih =>
    intro start hstart
    exact ih _ ((keepsDepth_eval hhost evaluation.1 evaluation.2 start).trans hstart)

/-- A function that evaluates a call of another one, which lowers the limit below the depth that has
been reached. The vector has a second item, and that one is refused. -/
theorem eval_restores_depth_reentrant :
    let lowering : Host Bool := fun _ _ gauge => .ok .nil { gauge with limit := 1 }
    let host : Host Bool := fun code args =>
      if code then eval lowering .empty (.list args none) else lowering code args
    let again : Procedure Bool := ⟨⟨"again"⟩, .host true⟩
    let lower : Value Bool := .procedure ⟨⟨"lower"⟩, .host false⟩ none
    let form : Value Bool := .vector [.list [.procedure again none, lower] none, .unit] none
    host.KeepsDepth ∧
      (eval host .empty form).run ⟨3, 9⟩ = .error (.depthExceeded 1) ⟨3, 1⟩ ∧
      Called host .empty ⟨3, 9⟩ form 2 again [lower] ⟨5, 9⟩ ∧
      ((eval host .empty form).after ⟨3, 9⟩).depth = 3 ∧
      (∀ level f args seen, Called host .empty ⟨3, 9⟩ form level f args seen →
        seen.depth = 3 + level) ∧
      (gaugeAfter host ⟨0, 9⟩ [(.empty, form), (.empty, form)]).depth = 0 := by
  intro lowering host again lower form
  have hlowering : lowering.KeepsDepth := fun _ _ _ => rfl
  have hhost : host.KeepsDepth := by
    intro code args
    cases code with
    | true => exact keepsDepth_eval hlowering .empty (.list args none)
    | false => exact hlowering false args
  have hitem : Called host .empty ⟨4, 9⟩ (.list [.procedure again none, lower] none) 1 again [lower]
      ⟨5, 9⟩ := .here (by decide) rfl rfl
  have hcalled : Called host .empty ⟨3, 9⟩ form 2 again [lower] ⟨5, 9⟩ :=
    .inside (by decide) (show form.subforms = [] ++ _ :: [.unit] from rfl) rfl hitem
  obtain ⟨hdepth, hseen, _, hzero⟩ := eval_restores_depth hhost .empty form ⟨3, 9⟩
  exact ⟨hhost, rfl, hcalled, hdepth, hseen, hzero _ ⟨0, 9⟩ rfl⟩

end MiniLisp
