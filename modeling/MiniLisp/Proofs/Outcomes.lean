import MiniLisp.Proofs.Arithmetic
import MiniLisp.Proofs.Environments
import MiniLisp.Proofs.Evaluation

/-!
# Evaluation without state

The gauge is a means of evaluation and no part of its result. As long as no function of the
embedding program is called, evaluation leaves the gauge as it found it, and its result depends on
the form, the environment, the depth at which it starts and the limit. `outcome` is that result, and
it is defined for evaluation without any limit too.

1. `run_eval`: evaluation returns the outcome and leaves the gauge alone.
2. `outcome_eq_of_height_le`: a limit above the height of a form has no influence on its outcome.
3. `ordinary_of_outcome`: without a limit, evaluation fails only for what the form says.
-/

namespace MiniLisp

variable {π : Type}

/-! ## Definitions -/

/-- The result, unless `limit` forms are being evaluated already. -/
def bounded {α : Type} (limit : Option Nat) (depth : Nat) (result : Except EvalError α) :
    Except EvalError α :=
  match limit with
  | none => result
  | some limit => if limit ≤ depth then .error (.depthExceeded limit) else result

/-- The result of applying the first of the values to the others. Functions of the embedding program
count as those that cannot be called. -/
def applied : List (Value π) → Except EvalError (Value π)
  | [] => .ok (.list [] none)
  | .procedure ⟨_, .arithmetic op⟩ _ :: args => op.reduce args
  | .procedure ⟨name, _⟩ _ :: _ => .error (.invalidProcedure name)
  | head :: _ => .error (.notCallable (head.print .readable))

/-- The result of a form, given the values of its subforms. -/
def Value.settle (env : Env π) (form : Value π) (values : List (Value π)) :
    Except EvalError (Value π) :=
  match form with
  | .atom (.symbol s) _ =>
    match env.find? s with
    | some f => .ok (.procedure f none)
    | none => .error (.symbolNotFound s)
  | .list _ _ => applied values
  | .sugar _ _ _ _ => applied values
  | .vector _ _ => .ok (.vector values none)
  | .map entries _ => .ok (.map ((entries.map Prod.fst).zip values) none)
  | other => .ok other

/-- The result of evaluating a form inside of `depth` others, where `limit` forms may be evaluated
inside each other. -/
def outcome (env : Env π) (limit : Option Nat) (depth : Nat) (form : Value π) :
    Except EvalError (Value π) :=
  bounded limit depth do
    let values ← form.subforms.attach.mapM fun x => outcome env limit (depth + 1) x.1
    form.settle env values
termination_by form.height
decreasing_by exact Value.height_lt_of_mem_subforms x.2

/-- The end of a run that leaves the gauge alone. -/
def Gauge.ends {ε α : Type} (gauge : Gauge) : Except ε α → EStateM.Result ε Gauge α
  | .ok value => .ok value gauge
  | .error error => .error error gauge

/-- The environment binds no functions but arithmetic. -/
def Env.Arithmetic (env : Env π) : Prop :=
  ∀ symbol f, env.find? symbol = some f → ∃ op, f.body = .arithmetic op

namespace Value

/-- Whether the value is a function. -/
def isFunction : Value π → Bool
  | .procedure _ _ => true
  | _ => false

/-- No function occurs in the value. -/
def FunctionFree (value : Value π) : Prop := ∀ f md, ¬ Within (.procedure f md) value

/-- If the value is a function, it is arithmetic. -/
def HostFree : Value π → Prop
  | .procedure f _ => ∃ op, f.body = .arithmetic op
  | _ => True

end Value

theorem outcome_eq (env : Env π) (limit : Option Nat) (depth : Nat) (form : Value π) :
    outcome env limit depth form =
      bounded limit depth
        (form.subforms.mapM (outcome env limit (depth + 1)) >>= form.settle env) := by
  rw [outcome]
  simp

theorem eq_ok_of_bounded {α : Type} {limit : Option Nat} {depth : Nat}
    {result : Except EvalError α} {x : α} (h : bounded limit depth result = .ok x) :
    result = .ok x := by
  unfold bounded at h
  split at h
  · exact h
  · split at h
    · cases h
    · exact h

/-- If a form has a value, so have its subforms, and the value is made of theirs. -/
theorem exists_values_of_outcome {env : Env π} {limit : Option Nat} {depth : Nat}
    {form x : Value π} (h : outcome env limit depth form = .ok x) :
    ∃ values, form.subforms.mapM (outcome env limit (depth + 1)) = .ok values ∧
      form.settle env values = .ok x := by
  rw [outcome_eq] at h
  exact bind_eq_ok_iff.mp (eq_ok_of_bounded h)

theorem bounded_of_lt {α : Type} {limit depth : Nat} (h : depth < limit)
    (result : Except EvalError α) : bounded (some limit) depth result = result :=
  if_neg (Nat.not_le_of_lt h)

theorem bounded_of_le {α : Type} {limit depth : Nat} (h : limit ≤ depth)
    (result : Except EvalError α) :
    bounded (some limit) depth result = .error (.depthExceeded limit) :=
  if_pos h

theorem eq_ok_of_ends {ε α : Type} {gauge after : Gauge} {result : Except ε α} {x : α}
    (h : gauge.ends result = .ok x after) : result = .ok x := by
  cases result with
  | error e => cases h
  | ok y =>
    cases h
    rfl

theorem Env.arithmetic_standard : (Env.standard : Env π).Arithmetic := by
  intro symbol f h
  obtain ⟨op, _, rfl⟩ := find?_standard_eq_some_iff.mp h
  exact ⟨op, rfl⟩

/-! ## Values that can be applied -/

namespace Value

theorem FunctionFree.part {part value : Value π} (h : value.FunctionFree)
    (hpart : part ∈ value.parts) : part.FunctionFree :=
  fun f md hwithin => h f md (.part hpart hwithin)

theorem FunctionFree.of_parts {value : Value π} (hparts : ∀ part ∈ value.parts, part.FunctionFree)
    (hvalue : value.isFunction = false) : value.FunctionFree := by
  intro f md hwithin
  cases hwithin with
  | refl => cases hvalue
  | part hpart hwithin => exact hparts _ hpart f md hwithin

theorem FunctionFree.of_parts_eq_nil {value : Value π} (hparts : value.parts = [])
    (hvalue : value.isFunction = false) : value.FunctionFree := by
  refine .of_parts ?_ hvalue
  rw [hparts]
  exact List.forall_mem_nil _

theorem functionFree_atom (a : Atom) (md : Option (Value π)) : (Value.atom a md).FunctionFree :=
  .of_parts_eq_nil rfl rfl

theorem FunctionFree.ne_procedure {value : Value π} (h : value.FunctionFree) (f : Procedure π)
    (md : Option (Value π)) : value ≠ .procedure f md := by
  rintro rfl
  exact h f md .refl

theorem FunctionFree.subform {x form : Value π} (h : form.FunctionFree)
    (hx : x ∈ form.subforms) : x.FunctionFree := by
  rcases mem_subforms hx with hpart | ⟨tag, rfl⟩
  · exact h.part hpart
  · exact functionFree_atom _ _

theorem FunctionFree.hostFree {value : Value π} (h : value.FunctionFree) : value.HostFree := by
  cases value with
  | procedure f md => exact absurd rfl (h.ne_procedure f md)
  | _ => trivial

theorem hostFree_of_isNumber {value : Value π} (h : value.isNumber = true) : value.HostFree := by
  cases value with
  | procedure f md => cases h
  | _ => trivial

/-- What is applied comes to no function, since arithmetic does not. -/
theorem applied_hostFree {values : List (Value π)} {x : Value π} (h : applied values = .ok x) :
    x.HostFree := by
  unfold applied at h
  split at h
  · cases h
    trivial
  · exact hostFree_of_isNumber (Operator.numbers_of_reduce_eq_ok h).2.2
  · cases h
  · cases h

theorem settle_hostFree {env : Env π} (henv : env.Arithmetic) {form : Value π}
    (hform : form.FunctionFree) {values : List (Value π)} {x : Value π}
    (h : form.settle env values = .ok x) : x.HostFree := by
  unfold settle at h
  split at h
  · next s _ =>
    split at h
    · next f hf =>
      cases h
      exact henv s f hf
    · cases h
  · exact applied_hostFree h
  · exact applied_hostFree h
  · cases h
    trivial
  · cases h
    trivial
  · cases h
    exact hform.hostFree

end Value

/-- In an environment of arithmetic, a form without functions evaluates to no function but
arithmetic. -/
theorem outcome_hostFree {env : Env π} (henv : env.Arithmetic) {limit : Option Nat} {depth : Nat}
    {form x : Value π} (hform : form.FunctionFree) (h : outcome env limit depth form = .ok x) :
    x.HostFree := by
  obtain ⟨values, _, hsettle⟩ := exists_values_of_outcome h
  exact Value.settle_hostFree henv hform hsettle

theorem hostFree_of_mapM {env : Env π} (henv : env.Arithmetic) {limit : Option Nat} {depth : Nat}
    {form : Value π} (hform : form.FunctionFree) {values : List (Value π)}
    (h : form.subforms.mapM (outcome env limit depth) = .ok values) :
    ∀ x ∈ values, x.HostFree := by
  intro x hx
  obtain ⟨subform, hsubform, houtcome⟩ := (exists_of_mapM_eq_ok h).2 x hx
  exact outcome_hostFree henv (hform.subform hsubform) houtcome

/-! ## The gauge is left alone -/

theorem run_bind_ends {α β : Type} {first : EvalM α} {next : α → EvalM β} {gauge : Gauge}
    {result : Except EvalError α} {results : α → Except EvalError β}
    (hfirst : first.run gauge = gauge.ends result)
    (hnext : ∀ x, result = .ok x → (next x).run gauge = gauge.ends (results x)) :
    (first >>= next).run gauge = gauge.ends (result >>= results) := by
  rw [EStateM.run_bind, hfirst]
  cases result with
  | error e => rfl
  | ok x => exact hnext x rfl

/-- A form counts while it is evaluated and no longer. -/
theorem run_nested_ends {α : Type} {action : EvalM α} {gauge : Gauge}
    {result : Except EvalError α}
    (h : action.run { gauge with depth := gauge.depth + 1 } =
      Gauge.ends { gauge with depth := gauge.depth + 1 } result) :
    (EvalM.nested action).run gauge =
      gauge.ends (bounded (some gauge.limit) gauge.depth result) := by
  change EvalM.nested action gauge = _
  unfold EvalM.nested
  split
  · next hfull =>
    rw [bounded_of_le hfull]
    rfl
  · next hroom =>
    rw [h, bounded_of_lt (Nat.lt_of_not_le hroom)]
    cases result <;> rfl

theorem run_applyItems_ends (host : Host π) {values : List (Value π)}
    (hvalues : ∀ x ∈ values, x.HostFree) (gauge : Gauge) :
    (applyItems host values).run gauge = gauge.ends (applied values) := by
  cases values with
  | nil => rfl
  | cons head args =>
    cases head with
    | procedure f md =>
      obtain ⟨name, body⟩ := f
      obtain ⟨op, hop⟩ := hvalues _ List.mem_cons_self
      obtain rfl : body = .arithmetic op := hop
      change (Procedure.call host ⟨name, .arithmetic op⟩ args).run gauge =
        gauge.ends (op.reduce args)
      simp only [Procedure.call]
      cases op.reduce args <;> rfl
    | _ => rfl

theorem run_assemble_ends (host : Host π) (env : Env π) (form : Value π) {values : List (Value π)}
    (hvalues : ∀ x ∈ values, x.HostFree) (gauge : Gauge) :
    (form.assemble host env values).run gauge = gauge.ends (form.settle env values) := by
  cases form with
  | atom a md =>
    cases a with
    | symbol s =>
      simp only [Value.assemble, evalAtom, resolve, Value.settle]
      cases env.find? s <;> rfl
    | _ => rfl
  | list _ _ => exact run_applyItems_ends host hvalues gauge
  | sugar _ _ _ _ => exact run_applyItems_ends host hvalues gauge
  | _ => rfl

theorem run_evalItems_ends {host : Host π} {env : Env π} {gauge : Gauge} {items : List (Value π)}
    {results : Value π → Except EvalError (Value π)}
    (h : ∀ x ∈ items, (eval host env x).run gauge = gauge.ends (results x)) :
    (evalItems host env items).run gauge = gauge.ends (items.mapM results) := by
  induction items with
  | nil => rfl
  | cons x xs ih =>
    rw [List.forall_mem_cons] at h
    rw [evalItems, List.mapM_cons]
    refine run_bind_ends h.1 fun _ _ => ?_
    exact run_bind_ends (ih h.2) fun _ _ => rfl

/-- In an environment of arithmetic, evaluating a form without functions returns its outcome and
leaves the gauge as it was. -/
theorem run_eval (host : Host π) {env : Env π} (henv : env.Arithmetic) {form : Value π}
    (hform : form.FunctionFree) (gauge : Gauge) :
    (eval host env form).run gauge =
      gauge.ends (outcome env (some gauge.limit) gauge.depth form) := by
  induction form using Value.induction_subforms generalizing gauge with
  | step form ih =>
    rw [eval_eq, outcome_eq]
    refine run_nested_ends (run_bind_ends (run_evalItems_ends fun x hx => ?_) ?_)
    · exact ih x hx (hform.subform hx) _
    · intro values hvalues
      exact run_assemble_ends host env form (hostFree_of_mapM henv hform hvalues) _

/-! ## Shorthands -/

theorem mapM_congr {ε α β : Type} {f g : α → Except ε β} {xs : List α} (h : ∀ x ∈ xs, f x = g x) :
    xs.mapM f = xs.mapM g := by
  induction xs with
  | nil => rfl
  | cons x xs ih =>
    rw [List.forall_mem_cons] at h
    rw [List.mapM_cons, List.mapM_cons, h.1, ih h.2]

theorem Value.settle_desugar (env : Env π) (form : Value π) :
    form.desugar.settle env = form.settle env := by
  cases form with
  | map entries md =>
    rw [desugar, desugarEntries_eq_map]
    funext values
    rw [settle, settle, List.map_map]
    rfl
  | _ => rfl

/-- A shorthand comes to what the list comes to that it stands for, also under a limit. -/
theorem outcome_desugar (env : Env π) (limit : Option Nat) (depth : Nat) (form : Value π) :
    outcome env limit depth form.desugar = outcome env limit depth form := by
  induction form using Value.induction_subforms generalizing depth with
  | step form ih =>
    have hvalues : form.subforms.mapM (outcome env limit (depth + 1) ∘ Value.desugar) =
        form.subforms.mapM (outcome env limit (depth + 1)) :=
      mapM_congr fun x hx => ih x hx (depth + 1)
    rw [outcome_eq, outcome_eq, form.subforms_desugar, form.settle_desugar, List.mapM_map, hvalues]

/-! ## Limits -/

/-- A limit has no influence on forms that are not too high for it. -/
theorem outcome_eq_of_height_le (env : Env π) {limit depth : Nat} {form : Value π}
    (h : depth + form.height ≤ limit) :
    outcome env (some limit) depth form = outcome env none depth form := by
  induction form using Value.induction_subforms generalizing depth with
  | step form ih =>
    have hdepth : depth < limit := by
      have hpos := form.height_pos
      omega
    rw [outcome_eq, outcome_eq, bounded_of_lt hdepth, bounded]
    refine congrArg (· >>= form.settle env) (mapM_congr fun x hx => ih x hx ?_)
    have hlt := Value.height_lt_of_mem_subforms hx
    omega

/-! ## Errors -/

/-- The errors that say what is wrong with a form. The others are about the limit and about
functions that cannot be called. -/
inductive EvalError.Ordinary : EvalError → Prop
  | symbolNotFound (symbol : Symbol) : Ordinary (.symbolNotFound symbol)
  | notCallable (shown : String) : Ordinary (.notCallable shown)
  | notANumber (function : String) (got : Kind) : Ordinary (.notANumber function got)
  | emptyArguments (function : String) : Ordinary (.emptyArguments function)
  | divisionByZero (function : String) : Ordinary (.divisionByZero function)
  | integerOverflow (function : String) : Ordinary (.integerOverflow function)

theorem EvalError.Numeric.ordinary {e : EvalError} (h : e.Numeric) : e.Ordinary := by
  cases h with
  | divisionByZero function => exact .divisionByZero function
  | integerOverflow function => exact .integerOverflow function

theorem Operator.ordinary_of_reduce {op : Operator} {args : List (Value π)} {e : EvalError}
    (h : op.reduce args = .error e) : e.Ordinary := by
  obtain ⟨_, hreduce⟩ | ⟨_, _, _, hreduce⟩ | ⟨_, _, ⟨_, hreduce, _⟩ | hreduce⟩ :=
    op.reduce_cases args
  · rw [hreduce] at h
    cases h
    exact .emptyArguments _
  · rw [hreduce] at h
    cases h
    exact .notANumber _ _
  · rw [hreduce] at h
    cases h
  · rw [hreduce] at h
    cases h
    exact op.numeric_nonFinite.ordinary

theorem ordinary_of_applied {values : List (Value π)} (hvalues : ∀ x ∈ values, x.HostFree)
    {e : EvalError} (h : applied values = .error e) : e.Ordinary := by
  unfold applied at h
  split at h
  · cases h
  · exact Operator.ordinary_of_reduce h
  · next name body _ _ hbody =>
    obtain ⟨op, hop⟩ := hvalues _ List.mem_cons_self
    exact absurd hop (hbody op)
  · cases h
    exact .notCallable _

/-- Without a limit, evaluation fails only for what the form says. -/
theorem ordinary_of_outcome {env : Env π} (henv : env.Arithmetic) {depth : Nat} {form : Value π}
    (hform : form.FunctionFree) {e : EvalError} (h : outcome env none depth form = .error e) :
    e.Ordinary := by
  induction form using Value.induction_subforms generalizing depth with
  | step form ih =>
    rw [outcome_eq, bounded] at h
    rcases bind_eq_error_iff.mp h with hitems | ⟨values, hvalues, hsettle⟩
    · obtain ⟨x, hx, hfails⟩ := exists_of_mapM_eq_error hitems
      exact ih x hx (hform.subform hx) hfails
    · have hhost := hostFree_of_mapM henv hform hvalues
      unfold Value.settle at hsettle
      split at hsettle
      · split at hsettle
        · cases hsettle
        · cases hsettle
          exact .symbolNotFound _
      · exact ordinary_of_applied hhost hsettle
      · exact ordinary_of_applied hhost hsettle
      · cases hsettle
      · cases hsettle
      · cases hsettle

end MiniLisp
