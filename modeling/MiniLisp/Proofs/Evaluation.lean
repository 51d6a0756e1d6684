import MiniLisp.Eval.Basic
import MiniLisp.Proofs.Desugaring

/-!
# How a form is evaluated

Every form is evaluated in the same way: first its subforms from left to right, then what their
values make of it. Forms differ in what their subforms are and in the second step.

1. `Value.induction_subforms`: induction along the evaluation of a form.
2. `eval_eq`: evaluation in these two steps.
-/

namespace MiniLisp

variable {π : Type}

/-! ## Subforms -/

namespace Value

/-- The forms that are evaluated when a form is, in their order. Those of a shorthand are the items
of its list. -/
def subforms : Value π → List (Value π)
  | .nil => []
  | .unit => []
  | .atom _ _ => []
  | .list items _ => items
  | .vector items _ => items
  | .map entries _ => entries.map Prod.snd
  | .procedure _ _ => []
  | .sugar tag form metaForm _ => sugarItems tag form metaForm

/-- Only the tag of a shorthand is a subform without being a part. -/
theorem mem_subforms {x form : Value π} (h : x ∈ form.subforms) :
    x ∈ form.parts ∨ ∃ tag, x = .symbol tag := by
  cases form with
  | sugar tag inner metaForm md =>
    rcases List.mem_cons.mp h with rfl | h
    · exact .inr ⟨tag, rfl⟩
    · exact .inl h
  | _ => exact .inl h

/-- A form is higher than what is evaluated inside it. -/
theorem height_lt_of_mem_subforms {x form : Value π} (h : x ∈ form.subforms) :
    x.height < form.height := by
  obtain ⟨k, hk⟩ := exists_succ_of_height_le (Nat.le_refl form.height)
  have hparts := height_le_succ_iff.mp (Nat.le_of_eq hk)
  rcases mem_subforms h with hpart | ⟨tag, rfl⟩
  · have hx := hparts x hpart
    omega
  · cases form with
    | sugar _ inner _ _ =>
      -- The tag is no higher than the form behind it.
      have hinner := hparts inner List.mem_cons_self
      have hpos := inner.height_pos
      have htag : (symbol tag : Value π).height = 1 := rfl
      omega
    | _ =>
      have htag := hparts _ h
      omega

/-- A property that a form has whenever its subforms have it holds of all forms. -/
@[elab_as_elim]
theorem induction_subforms {motive : Value π → Prop}
    (step : ∀ form : Value π, (∀ x ∈ form.subforms, motive x) → motive form)
    (form : Value π) : motive form :=
  step form fun x h =>
    have := height_lt_of_mem_subforms h
    induction_subforms step x
termination_by form.height

/-- What the values of its subforms make of a form. -/
def assemble (host : Host π) (env : Env π) (form : Value π) (values : List (Value π)) :
    EvalM (Value π) :=
  match form with
  | .nil => return .nil
  | .unit => return .unit
  | .atom a md => evalAtom env a md
  | .list _ _ => applyItems host values
  | .vector _ _ => return .vector values none
  | .map entries _ => return .map ((entries.map Prod.fst).zip values) none
  | .procedure f md => return .procedure f md
  | .sugar _ _ _ _ => applyItems host values

end Value

/-! ## Evaluation in two steps -/

theorem evalEntries_eq (host : Host π) (env : Env π) (entries : List (MapKey × Value π)) :
    evalEntries host env entries = do
      let values ← evalItems host env (entries.map Prod.snd)
      return (entries.map Prod.fst).zip values := by
  induction entries with
  | nil => rfl
  | cons entry rest ih =>
    obtain ⟨key, x⟩ := entry
    simp [evalEntries, evalItems, ih]

/-- A form is evaluated by way of the values of its subforms. -/
theorem eval_eq (host : Host π) (env : Env π) (form : Value π) :
    eval host env form =
      EvalM.nested (evalItems host env form.subforms >>= form.assemble host env) := by
  cases form with
  | nil => rfl
  | unit => rfl
  | atom a md => rfl
  | list items md => rfl
  | vector items md => rfl
  | map entries md =>
    rw [eval, evalEntries_eq, bind_assoc]
    simp only [pure_bind]
    rfl
  | procedure f md => rfl
  | sugar tag form metaForm md =>
    cases metaForm <;>
      simp [eval, evalItems, evalOption, Value.subforms, Value.sugarItems, Value.symbol, evalAtom,
        Value.assemble]

/-! ## Shorthands -/

namespace Value

/-- Desugaring a form desugars its subforms. -/
theorem subforms_desugar (form : Value π) : form.desugar.subforms = form.subforms.map desugar := by
  cases form with
  | nil => rfl
  | unit => rfl
  | atom _ _ => rfl
  | list items _ => exact desugarItems_eq_map items
  | vector items _ => exact desugarItems_eq_map items
  | map entries _ =>
    rw [desugar, desugarEntries_eq_map, subforms, subforms, List.map_map, List.map_map]
    rfl
  | procedure _ _ => rfl
  | sugar _ _ metaForm _ => cases metaForm <;> rfl

end Value

end MiniLisp
