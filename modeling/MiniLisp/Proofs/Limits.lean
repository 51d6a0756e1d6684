import MiniLisp.Proofs.Outcomes

/-!
# What a limit does to evaluation

A limit does one thing: it cuts evaluation off. Where it does not, evaluation comes to what it comes
to without any limit, be it a value or an error. A form that has a value is cut off exactly if it is
too high for the limit, since all of it is evaluated before it has a value. A form that fails may
fail before evaluation gets to where it is too high, so the same is not true of errors.

Results:
1. `outcome_cutOff`: under a limit, a form is cut off, or it comes to what it comes to under a
   higher limit or under none.
2. `height_le_of_outcome`: a form that has a value under a limit is not too high for it.
3. `outcome_eq_ok_iff`, `outcome_of_lt_height`, `outcome_of_le`: what follows for the values, for
   forms that are too high, and for a higher limit.
4. `eval_limited`: all of it for the evaluator, at every depth and under every limit.
-/

namespace MiniLisp

variable {π : Type}

/-! ## Definitions -/

/-- The result of evaluating a form without a limit: evaluation as `run_eval` has it, with the test
against the limit left out. -/
def unlimited (env : Env π) (form : Value π) : Except EvalError (Value π) :=
  outcome env none 0 form

/-- `CutOff e result other`: the result is that of another computation, or the error `e` that cut
the computation off. -/
def CutOff {ε α : Type} (e : ε) (result other : Except ε α) : Prop :=
  result = .error e ∨ result = other

/-! ## Computations that are cut off -/

section

variable {ε α β : Type} {e : ε}

theorem CutOff.bind {first other : Except ε α} {next next' : α → Except ε β}
    (hfirst : CutOff e first other) (hnext : ∀ x, CutOff e (next x) (next' x)) :
    CutOff e (first >>= next) (other >>= next') := by
  rcases hfirst with rfl | rfl
  · exact .inl rfl
  · cases first with
    | error e' => exact .inr rfl
    | ok x => exact hnext x

/-- A sequence is cut off with the first of its members that is. -/
theorem cutOff_mapM {f g : α → Except ε β} {xs : List α} (h : ∀ x ∈ xs, CutOff e (f x) (g x)) :
    CutOff e (xs.mapM f) (xs.mapM g) := by
  induction xs with
  | nil => exact .inr rfl
  | cons x xs ih =>
    rw [List.forall_mem_cons] at h
    rw [List.mapM_cons, List.mapM_cons]
    exact h.1.bind fun y => (ih h.2).bind fun ys => .inr rfl

end

/-! ## Outcomes under a limit -/

theorem bounded_of_forall_le {α : Type} {limit depth : Nat} {other : Option Nat}
    (hother : ∀ m, other = some m → limit ≤ m) (hroom : depth < limit)
    (result : Except EvalError α) : bounded other depth result = result := by
  cases other with
  | none => rfl
  | some m => exact bounded_of_lt (Nat.lt_of_lt_of_le hroom (hother m rfl)) result

/-- Under a limit, a form is cut off or comes to what it comes to under any higher limit, and
without a limit. -/
theorem outcome_cutOff (env : Env π) {limit : Nat} {other : Option Nat}
    (hother : ∀ m, other = some m → limit ≤ m) (depth : Nat) (form : Value π) :
    CutOff (.depthExceeded limit) (outcome env (some limit) depth form)
      (outcome env other depth form) := by
  induction form using Value.induction_subforms generalizing depth with
  | step form ih =>
    rw [outcome_eq, outcome_eq]
    rcases Nat.lt_or_ge depth limit with hroom | hfull
    · rw [bounded_of_lt hroom, bounded_of_forall_le hother hroom]
      exact (cutOff_mapM fun x hx => ih x hx (depth + 1)).bind fun values => .inr rfl
    · exact .inl (bounded_of_le hfull _)

/-- Without a limit it makes no difference inside of how many others a form is evaluated. -/
theorem outcome_none (env : Env π) (depth : Nat) (form : Value π) :
    outcome env none depth form = unlimited env form := by
  have hdepth : ∀ depth' : Nat, outcome env none depth form = outcome env none depth' form := by
    induction form using Value.induction_subforms generalizing depth with
    | step form ih =>
      intro depth'
      rw [outcome_eq, outcome_eq, bounded, bounded]
      exact congrArg (· >>= form.settle env) (mapM_congr fun x hx => ih x hx _ _)
  exact hdepth 0

/-- Without a limit, evaluation is the evaluation of the subforms and then the last step. -/
theorem unlimited_eq (env : Env π) (form : Value π) :
    unlimited env form = form.subforms.mapM (unlimited env) >>= form.settle env := by
  rw [unlimited, outcome_eq, bounded]
  exact congrArg (· >>= form.settle env) (mapM_congr fun x _ => outcome_none env _ x)

theorem Value.mem_subforms_of_mem_parts {part form : Value π} (h : part ∈ form.parts) :
    part ∈ form.subforms := by
  cases form with
  | sugar tag inner metaForm md => exact List.mem_cons_of_mem _ h
  | _ => exact h

/-- A form that has a value under a limit is not too high for the limit. -/
theorem height_le_of_outcome {env : Env π} {limit depth : Nat} {form x : Value π}
    (h : outcome env (some limit) depth form = .ok x) : depth + form.height ≤ limit := by
  induction form using Value.induction_subforms generalizing depth x with
  | step form ih =>
    have hroom : depth < limit := by
      refine Nat.lt_of_not_le fun hfull => ?_
      rw [outcome_eq, bounded_of_le hfull] at h
      cases h
    obtain ⟨values, hvalues, _⟩ := exists_values_of_outcome h
    obtain ⟨k, rfl⟩ := Nat.exists_eq_add_of_lt hroom
    -- Every part has a value of its own, one level further in.
    have hparts : form.height ≤ k + 1 := by
      rw [Value.height_le_succ_iff]
      intro part hpart
      obtain ⟨value, _, hvalue⟩ :=
        (exists_of_mapM_eq_ok hvalues).1 part (Value.mem_subforms_of_mem_parts hpart)
      have hheight := ih part (Value.mem_subforms_of_mem_parts hpart) hvalue
      omega
    omega

/-- Where there is room for a form, the limit has no influence. -/
theorem outcome_eq_unlimited (env : Env π) {limit depth : Nat} {form : Value π}
    (h : depth + form.height ≤ limit) :
    outcome env (some limit) depth form = unlimited env form := by
  rw [outcome_eq_of_height_le env h, outcome_none]

theorem outcome_eq_ok_iff {env : Env π} {limit depth : Nat} {form value : Value π} :
    outcome env (some limit) depth form = .ok value ↔
      depth + form.height ≤ limit ∧ unlimited env form = .ok value := by
  constructor
  · intro hvalue
    have hheight := height_le_of_outcome hvalue
    exact ⟨hheight, (outcome_eq_unlimited env hheight).symm.trans hvalue⟩
  · rintro ⟨hheight, hvalue⟩
    exact (outcome_eq_unlimited env hheight).trans hvalue

/-- A form that is too high is cut off, or it fails before evaluation gets to where it is. -/
theorem outcome_of_lt_height (env : Env π) {limit depth : Nat} {form : Value π}
    (h : limit < depth + form.height) :
    outcome env (some limit) depth form = .error (.depthExceeded limit) ∨
      ∃ e, unlimited env form = .error e ∧ outcome env (some limit) depth form = .error e := by
  have hcut : CutOff (.depthExceeded limit) (outcome env (some limit) depth form)
      (unlimited env form) := by
    rw [← outcome_none env depth]
    refine outcome_cutOff env ?_ depth form
    rintro m ⟨⟩
  refine hcut.imp_right fun hsame => ?_
  cases hresult : unlimited env form with
  | error e => exact ⟨e, rfl, hsame.trans hresult⟩
  | ok value =>
    have hheight := height_le_of_outcome (hsame.trans hresult)
    exact absurd hheight (Nat.not_le_of_lt h)

/-- Raising the limit changes nothing but that evaluation was cut off. -/
theorem outcome_of_le (env : Env π) {limit higher depth : Nat} {form : Value π}
    (hlimit : limit ≤ higher)
    (h : outcome env (some limit) depth form ≠ .error (.depthExceeded limit)) :
    outcome env (some higher) depth form = outcome env (some limit) depth form := by
  have hcut : CutOff (.depthExceeded limit) (outcome env (some limit) depth form)
      (outcome env (some higher) depth form) := by
    refine outcome_cutOff env ?_ depth form
    rintro m ⟨⟩
    exact hlimit
  exact (hcut.resolve_left h).symm

/-! ## Evaluation under a limit -/

/-- Evaluating a form without functions comes to a result and leaves the gauge as it was.

* The result is a value exactly if the limit leaves room for the height of the form and the form has
  that value without a limit.
* If there is room, the limit has no influence on the result.
* If there is none, evaluation is cut off, or it fails as it does without a limit.
* A result that is not cut off is the result under every higher limit. -/
theorem eval_limited (host : Host π) {form : Value π} (hform : form.FunctionFree) (gauge : Gauge) :
    ∃ result, (eval host .standard form).run gauge = gauge.ends result ∧
      (∀ value, result = .ok value ↔
        gauge.depth + form.height ≤ gauge.limit ∧ unlimited .standard form = .ok value) ∧
      (gauge.depth + form.height ≤ gauge.limit → result = unlimited .standard form) ∧
      (gauge.limit < gauge.depth + form.height →
        result = .error (.depthExceeded gauge.limit) ∨
          ∃ e, unlimited .standard form = .error e ∧ result = .error e) ∧
      (result ≠ .error (.depthExceeded gauge.limit) → ∀ limit, gauge.limit ≤ limit →
        (eval host .standard form).run { gauge with limit := limit } =
          Gauge.ends { gauge with limit := limit } result) := by
  refine ⟨_, run_eval host Env.arithmetic_standard hform gauge, fun value => outcome_eq_ok_iff,
    outcome_eq_unlimited .standard, outcome_of_lt_height .standard, ?_⟩
  intro hnot limit hlimit
  rw [run_eval host Env.arithmetic_standard hform]
  exact congrArg _ (outcome_of_le .standard hlimit hnot)

/-- A vector that fails at its first item and is too high at its second one. The limit for the one
run is too low, that for the other just high enough. -/
theorem eval_limited_vector :
    let form : Value Empty :=
      .vector [.symbol ⟨"x"⟩, .vector [.vector [.int 1] none] none] none
    form.FunctionFree ∧ form.height = 4 ∧
      (∃ result, (eval Host.none .standard form).run ⟨1, 3⟩ = Gauge.ends ⟨1, 3⟩ result ∧
        (result = .error (.depthExceeded 3) ∨
          ∃ e, unlimited .standard form = .error e ∧ result = .error e)) ∧
      (eval Host.none .standard form).run ⟨1, 5⟩ =
        Gauge.ends ⟨1, 5⟩ (unlimited .standard form) := by
  intro form
  have hform : form.FunctionFree := by
    have hvector : ∀ x : Value Empty, x.FunctionFree → (Value.vector [x] none).FunctionFree :=
      fun x hx => .of_parts (List.forall_mem_singleton.mpr hx) rfl
    have hinner := hvector _ (hvector _ (Value.functionFree_atom (.int 1) none))
    exact .of_parts (List.forall_mem_cons.mpr
      ⟨Value.functionFree_atom _ _, List.forall_mem_singleton.mpr hinner⟩) rfl
  obtain ⟨result, hlow, _, _, hcut, _⟩ := eval_limited Host.none hform ⟨1, 3⟩
  obtain ⟨result', hhigh, _, hsame, _⟩ := eval_limited Host.none hform ⟨1, 5⟩
  refine ⟨hform, rfl, ⟨result, hlow, hcut (by decide)⟩, ?_⟩
  rw [hhigh, hsame (by decide)]

end MiniLisp
