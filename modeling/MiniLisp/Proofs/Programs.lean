import MiniLisp.Proofs.Metadata
import MiniLisp.Proofs.Normalisation
import MiniLisp.Run

/-!
# Programs from texts

What the reader returns holds no functions and is not high, so a text cannot make evaluation do all
that a value can. It neither reaches the limit nor a function that cannot be called. And since the
text of what was read differs from the source only in shorthands and metadata, it is the same
program.

1. `functionFree_of_read`, `height_le_of_read`: what the reader returns.
2. `run_rep`: the step from a text to a text, by way of the outcome of the form in it.
3. `rep_print`: the text of what was read runs like the source.
4. `rep_ordinary`: the errors of evaluation that a source can cause.
-/

namespace MiniLisp

open Token Grammar NormalisationLemmas

variable {π : Type}

/-! ## Values without functions -/

namespace Value

theorem isFunction_setMetadata (md : Option (Value π)) (value : Value π) :
    (value.setMetadata md).isFunction = value.isFunction := by
  cases value <;> rfl

theorem isFunction_desugar (value : Value π) : value.desugar.isFunction = value.isFunction := by
  cases value <;> rfl

theorem FunctionFree.isFunction_eq {value : Value π} (h : value.FunctionFree) :
    value.isFunction = false := by
  cases value with
  | procedure f md => exact absurd rfl (h.ne_procedure f md)
  | _ => rfl

theorem FunctionFree.setMetadata {value : Value π} (h : value.FunctionFree)
    (md : Option (Value π)) : (value.setMetadata md).FunctionFree := by
  refine .of_parts ?_ ((isFunction_setMetadata md value).trans h.isFunction_eq)
  rw [parts_setMetadata]
  exact fun part hpart => h.part hpart

theorem FunctionFree.desugar {value : Value π} (h : value.FunctionFree) :
    value.desugar.FunctionFree := by
  induction value using induction_subforms with
  | step value ih =>
    have hsubforms : ∀ x ∈ value.desugar.subforms, x.FunctionFree := by
      rw [subforms_desugar]
      exact List.forall_mem_map.mpr fun x hx => ih x hx (h.subform hx)
    refine .of_parts ?_ (value.isFunction_desugar.trans h.isFunction_eq)
    -- Nothing is left of shorthands, and all other forms have their parts as subforms.
    cases value <;> exact hsubforms

end Value

/-! ## What the reader returns -/

theorem isFunction_of_denotes {token : Token} {value : Value π} (h : Denotes token value) :
    value.isFunction = false := by
  cases h with
  | keyword _ => rfl
  | string _ _ => rfl
  | scalar _ _ =>
    rcases scalar_cases π token with ⟨_, h⟩ | ⟨_, h⟩ | ⟨_, h⟩ | h | h <;> (rw [h]; rfl)

theorem isFunction_of_gathers {bracket : Bracket} {items : List (Value π)} {value : Value π}
    (h : Gathers bracket items value) : value.isFunction = false := by
  cases h with
  | unit => rfl
  | list _ => rfl
  | vector => rfl
  | map hmap =>
    obtain ⟨_, _, rfl⟩ := Value.mapOfItems_eq_ok hmap
    rfl

namespace Grammar

mutual

/-- Functions cannot be written. -/
theorem Form.functionFree {k : Nat} {tokens rest : List Token} {value : Value π} :
    Form k tokens value rest → value.FunctionFree
  | .collection hitems hgather => by
    refine .of_parts ?_ (isFunction_of_gathers hgather)
    intro part hpart
    exact hitems.functionFree part (mem_of_mem_parts_of_gathers hgather hpart)
  | .shorthand _ hform => by
    refine .of_parts ?_ rfl
    simpa [Value.parts] using hform.functionFree
  | .annotated hmetadata hform _ _ => by
    refine .of_parts ?_ rfl
    simpa [Value.parts] using ⟨hform.functionFree.setMetadata _, hmetadata.functionFree⟩
  | .literal _ hdenotes => by
    refine .of_parts ?_ (isFunction_of_denotes hdenotes)
    rw [parts_eq_nil_of_denotes hdenotes]
    exact List.forall_mem_nil _

theorem Items.functionFree {k : Nat} {closer : Token} {tokens rest : List Token}
    {values : List (Value π)} :
    Items k closer tokens values rest → ∀ x ∈ values, x.FunctionFree
  | .nil => List.forall_mem_nil _
  | .cons _ hform hitems => List.forall_mem_cons.mpr ⟨hform.functionFree, hitems.functionFree⟩

end

end Grammar

theorem functionFree_of_read {source : String} {value : Value π} (hread : read source = .ok value) :
    value.FunctionFree := by
  rcases read_eq_ok_iff.mp hread with ⟨_, rfl⟩ | ⟨rest, hform⟩
  · exact .of_parts_eq_nil rfl rfl
  · exact hform.functionFree

theorem height_le_of_read {source : String} {value : Value π} (hread : read source = .ok value) :
    value.height ≤ maxReadDepth := by
  rcases read_eq_ok_iff.mp hread with ⟨_, rfl⟩ | ⟨rest, hform⟩
  · rw [Value.height, maxReadDepth]
    decide
  · exact hform.height_le

/-- The text of what was read reads as the same value with its shorthands written out and without
metadata. -/
theorem read_print_of_read {source : String} {value : Value π} (hread : read source = .ok value)
    (h : value.Reprintable) : read (value.print .readable) = .ok value.desugar.erase := by
  obtain ⟨hlegible, hheight⟩ := legible_of_read hread h
  have hform := hlegible.form_tokenize (value.height_desugar ▸ hheight)
  rw [Value.print_desugar] at hform
  exact read_eq_ok_iff.mpr (.inr ⟨[], hform⟩)

/-! ## From text to text -/

theorem run_adaptExcept {ε ε' α : Type} {action : EStateM ε Gauge α} {gauge : Gauge}
    {result : Except ε α} (h : action.run gauge = gauge.ends result) (change : ε → ε') :
    (action.adaptExcept change).run gauge = gauge.ends (result.mapError change) := by
  simp only [EStateM.adaptExcept, EStateM.run] at h ⊢
  rw [h]
  cases result <;> rfl

/-- The step from a text to a text, if a form can be read from it. -/
theorem run_rep (host : Host π) {env : Env π} (henv : env.Arithmetic) {source : String}
    {form : Value π} (hread : read source = .ok form) (gauge : Gauge) :
    (rep host env source).run gauge =
      gauge.ends (((outcome env (some gauge.limit) gauge.depth form).map
        (Value.print .readable)).mapError Failure.eval) := by
  have heval := run_eval host henv (functionFree_of_read hread) gauge
  unfold rep evalSource
  rw [hread, EStateM.run_bind, run_adaptExcept heval]
  cases outcome env (some gauge.limit) gauge.depth form <;> rfl

/-- If the step fails in evaluation, a form was read. -/
theorem exists_read_of_run_rep {host : Host π} {env : Env π} {source : String} {gauge after : Gauge}
    {e : EvalError} (h : (rep host env source).run gauge = .error (.eval e) after) :
    ∃ form : Value π, read source = .ok form := by
  unfold rep evalSource at h
  cases hread : (read source : Except ReadError (Value π)) with
  | ok form => exact ⟨form, rfl⟩
  | error error =>
    rw [hread] at h
    cases h

/-- The text of what was read, if that is reprintable, is the same program as the source: it has the
same output, or it fails in evaluation with the same error. -/
theorem rep_print (host : Host π) {source : String} {value : Value π}
    (hread : read source = .ok value) (h : value.Reprintable) (gauge : Gauge) :
    (rep host .standard (value.print .readable)).run gauge = (rep host .standard source).run gauge ∧
      ((∃ text, (rep host .standard source).run gauge = .ok text gauge) ∨
        ∃ e, (rep host .standard source).run gauge = .error (.eval e) gauge) := by
  have hform := functionFree_of_read hread
  have hbare := outcome_erase .standard (some gauge.limit) gauge.depth hform.desugar
  rw [outcome_desugar] at hbare
  rw [run_rep host Env.arithmetic_standard hread,
    run_rep host Env.arithmetic_standard (read_print_of_read hread h)]
  refine ⟨?_, ?_⟩
  · rw [map_print_of_map_bare hbare]
  · cases outcome .standard (some gauge.limit) gauge.depth value with
    | ok x => exact .inl ⟨_, rfl⟩
    | error e => exact .inr ⟨e, rfl⟩

/-- A vector with metadata, which is printed as the list that the shorthand stands for. -/
theorem rep_print_annotated :
    let source := "^:m [(+ 1 2) 3]"
    let mark : Value Empty := .atom (.keyword ⟨"m"⟩) none
    let sum : Value Empty := .list [.symbol ⟨"+"⟩, .int 1, .int 2] none
    let value : Value Empty :=
      .sugar ⟨"with-meta"⟩ (.vector [sum, .int 3] (some mark)) (some mark) none
    read source = .ok value ∧ value.Reprintable ∧
      (rep Host.none .standard (value.print .readable)).run {} =
        (rep Host.none .standard source).run {} := by
  intro source mark sum value
  have hread : read source = .ok value := by
    have htokens : tokenize source =
        ["^", ":m", "[", "(", "+", "1", "2", ")", "3", "]"] := by
      decide +kernel
    rw [read_eq_ok_iff, htokens]
    exact .inr ⟨[], form_sound 512 rfl⟩
  have hreprintable : value.Reprintable := by
    have hatom : ∀ a, (∀ x, a ≠ .float x) → (Value.atom a none : Value Empty).Reprintable :=
      fun a ha => Value.reprintable_atom (fun x hx => absurd hx (ha x)) none
    have hint : ∀ n, (Value.int n : Value Empty).Reprintable := fun n => hatom _ (by simp)
    have hmark : mark.Reprintable := hatom _ (by simp)
    have hsum : sum.Reprintable :=
      .of_parts (by simpa [sum, Value.parts] using ⟨hatom _ (by simp), hint 1, hint 2⟩)
        (by simp [sum]) (by simp [sum])
    have hvector : (Value.vector [sum, .int 3] (some mark)).Reprintable :=
      .of_parts (by simpa [Value.parts] using ⟨hsum, hint 3⟩) (by simp) (by simp)
    exact Value.reprintable_sugar hvector (by simpa using hmark) (by simp [mark, Value.IsSymbol])
  exact ⟨hread, hreprintable, (rep_print Host.none hread hreprintable {}).1⟩

theorem ordinary_of_run_rep {host : Host π} {source : String} {gauge after : Gauge}
    (hroom : gauge.depth + maxReadDepth ≤ gauge.limit) {e : EvalError}
    (h : (rep host .standard source).run gauge = .error (.eval e) after) : e.Ordinary := by
  obtain ⟨form, hread⟩ := exists_read_of_run_rep h
  have hheight : gauge.depth + form.height ≤ gauge.limit :=
    Nat.le_trans (Nat.add_le_add_left (height_le_of_read hread) _) hroom
  rw [run_rep host Env.arithmetic_standard hread, outcome_eq_of_height_le _ hheight] at h
  cases houtcome : outcome .standard none gauge.depth form with
  | ok x =>
    rw [houtcome] at h
    cases h
  | error e =>
    rw [houtcome] at h
    cases h
    exact ordinary_of_outcome Env.arithmetic_standard (functionFree_of_read hread) houtcome

/-- What the reader returns has no more than 512 levels. So no source makes evaluation exceed a
limit that leaves room for as many, nor does it make evaluation call what cannot be called.
Evaluation fails only for what the source says. -/
theorem rep_ordinary (host : Host π) (source : String) :
    (∀ value : Value π, read source = .ok value → value.height ≤ 512) ∧
      ∀ gauge : Gauge, gauge.depth + 512 ≤ gauge.limit →
        (∀ limit after, (rep host .standard source).run gauge ≠
          .error (.eval (.depthExceeded limit)) after) ∧
        (∀ name after, (rep host .standard source).run gauge ≠
          .error (.eval (.invalidProcedure name)) after) ∧
        ∀ e after, (rep host .standard source).run gauge = .error (.eval e) after → e.Ordinary := by
  refine ⟨fun value hread => height_le_of_read hread, fun gauge hroom => ⟨?_, ?_, ?_⟩⟩
  · intro limit after hrun
    cases ordinary_of_run_rep hroom hrun
  · intro name after hrun
    cases ordinary_of_run_rep hroom hrun
  · intro e after hrun
    exact ordinary_of_run_rep hroom hrun

/-- A quotient by zero inside of a vector, with the lowest limit. -/
theorem rep_ordinary_quotient :
    let source := "[1 (+ 1 (/ 2 0))]"
    (∃ value : Value Empty, read source = .ok value ∧ value.height ≤ 512) ∧
      ∃ e after, (rep Host.none .standard source).run ⟨0, 512⟩ = .error (.eval e) after ∧
        e.Ordinary := by
  intro source
  have hfails : (match (rep Host.none .standard source).run ⟨0, 512⟩ with
      | .error (.eval _) _ => true
      | _ => false) = true := by
    decide +kernel
  split at hfails
  · next e after hrun =>
    obtain ⟨value, hread⟩ := exists_read_of_run_rep hrun
    obtain ⟨hheight, hordinary⟩ := rep_ordinary Host.none source
    exact ⟨⟨value, hread, hheight value hread⟩,
      e, after, hrun, (hordinary ⟨0, 512⟩ (by decide)).2.2 e after hrun⟩
  · cases hfails

end MiniLisp
