import Mathlib.Data.List.Forall2
import MiniLisp.Proofs.Evaluation

/-!
# Shorthands in evaluation

A shorthand is evaluated in another branch of the evaluator than a list, and it is not expanded
before. Still no program can tell a shorthand from the list that it stands for: the same functions
are called with the same arguments in the same order and at the same depth, whatever functions the
environment binds and whatever they do to the gauge.

`Value.WrittenOut` says that a form is another one with its shorthands written out, at every depth at
once. It leaves open which metadata the lists carry that take the place of shorthands, since
evaluation drops the metadata of both.

Results:
1. `Value.writtenOut_desugar`: desugaring writes all shorthands out.
2. `eval_writtenOut`: a form and the form with its shorthands written out run alike.
-/

namespace MiniLisp

variable {π : Type}

namespace Value

/-! ## Definitions -/

/-- `WrittenOut form plain`: the form `plain` is `form` with a list of its items in place of each
shorthand, at every depth. Metadata stays as it is, but for that of shorthands. -/
inductive WrittenOut : Value π → Value π → Prop
  | nil : WrittenOut .nil .nil
  | unit : WrittenOut .unit .unit
  | atom {a : Atom} {md : Option (Value π)} : WrittenOut (.atom a md) (.atom a md)
  | list {items others : List (Value π)} {md : Option (Value π)} :
      List.Forall₂ WrittenOut items others → WrittenOut (.list items md) (.list others md)
  | vector {items others : List (Value π)} {md : Option (Value π)} :
      List.Forall₂ WrittenOut items others → WrittenOut (.vector items md) (.vector others md)
  | map {entries others : List (MapKey × Value π)} {md : Option (Value π)} :
      others.map Prod.fst = entries.map Prod.fst →
      List.Forall₂ WrittenOut (entries.map Prod.snd) (others.map Prod.snd) →
      WrittenOut (.map entries md) (.map others md)
  | procedure {f : Procedure π} {md : Option (Value π)} :
      WrittenOut (.procedure f md) (.procedure f md)
  | sugar {tag : Symbol} {form : Value π} {metaForm md : Option (Value π)}
      {others : List (Value π)} {md' : Option (Value π)} :
      List.Forall₂ WrittenOut (sugarItems tag form metaForm) others →
      WrittenOut (.sugar tag form metaForm md) (.list others md')

/-! ## Writing out -/

/-- Desugaring writes the shorthands out, and leaves their metadata with the lists. -/
theorem writtenOut_desugar (form : Value π) : WrittenOut form form.desugar := by
  induction form using induction_subforms with
  | step form ih =>
    have hsubforms : List.Forall₂ WrittenOut form.subforms form.desugar.subforms := by
      rw [subforms_desugar, List.forall₂_map_right_iff, List.forall₂_same]
      exact ih
    cases form with
    | nil => exact .nil
    | unit => exact .unit
    | atom _ _ => exact .atom
    | list _ _ => exact .list hsubforms
    | vector _ _ => exact .vector hsubforms
    | map entries _ =>
      refine .map ?_ hsubforms
      rw [desugarEntries_eq_map, List.map_map]
      rfl
    | procedure _ _ => exact .procedure
    | sugar _ _ _ _ => exact .sugar hsubforms

/-- The subforms of a form are written out with it. -/
theorem WrittenOut.subforms {form plain : Value π} (h : WrittenOut form plain) :
    List.Forall₂ WrittenOut form.subforms plain.subforms := by
  cases h with
  | nil => exact .nil
  | unit => exact .nil
  | atom => exact .nil
  | list hitems => exact hitems
  | vector hitems => exact hitems
  | map _ hvalues => exact hvalues
  | procedure => exact .nil
  | sugar hitems => exact hitems

/-- What the values of the subforms make of a form does not depend on how the form is written. -/
theorem WrittenOut.assemble_eq (host : Host π) (env : Env π) {form plain : Value π}
    (h : WrittenOut form plain) : plain.assemble host env = form.assemble host env := by
  cases h with
  | map hkeys _ =>
    funext values
    rw [assemble, assemble, hkeys]
  | _ => rfl

end Value

/-! ## Evaluation -/

namespace Value

/-- Items that evaluate alike one by one do so in a row. -/
theorem WrittenOut.evalItems_eq {host : Host π} {env : Env π} {items others : List (Value π)}
    (h : List.Forall₂ WrittenOut items others)
    (hitem : ∀ x ∈ items, ∀ y, WrittenOut x y → eval host env y = eval host env x) :
    evalItems host env others = evalItems host env items := by
  induction h with
  | nil => rfl
  | cons hfirst _ ih =>
    rw [List.forall_mem_cons] at hitem
    rw [evalItems, evalItems, hitem.1 _ hfirst, ih hitem.2]

theorem WrittenOut.eval_eq (host : Host π) (env : Env π) {form plain : Value π}
    (h : WrittenOut form plain) : eval host env plain = eval host env form := by
  induction form using induction_subforms generalizing plain with
  | step form ih =>
    have hitems : evalItems host env plain.subforms = evalItems host env form.subforms :=
      evalItems_eq h.subforms fun x hx _ hout => ih x hx hout
    rw [MiniLisp.eval_eq, MiniLisp.eval_eq, hitems, h.assemble_eq]

end Value

/-- The shorthands of a form can be written out, and however that is done, evaluation comes to the
same: it returns the same value with the same metadata or fails with the same error, and it leaves
the same gauge. This holds for all functions of the embedding program, in every environment, at every
depth and under every limit. -/
theorem eval_writtenOut (host : Host π) (env : Env π) (form : Value π) :
    form.WrittenOut form.desugar ∧
      ∀ plain, form.WrittenOut plain → ∀ gauge,
        (eval host env plain).run gauge = (eval host env form).run gauge := by
  refine ⟨form.writtenOut_desugar, ?_⟩
  intro plain h gauge
  rw [h.eval_eq]

/-- A quotation inside of a quotation that carries metadata, where the function that `quote` is bound
to returns its arguments and lowers the limit. The list in place of the outer one carries no metadata,
and the limit is just high enough. -/
theorem eval_writtenOut_quotation :
    let host : Host Unit := fun _ args gauge => .ok (.vector args none) { gauge with limit := 2 }
    let env : Env Unit := Env.empty.define "quote" (.host ())
    let mark : Value Unit := .keyword ⟨"m"⟩
    let one : Value Unit := .atom (.int 1) (some mark)
    let form : Value Unit :=
      .sugar ⟨"quote"⟩ (.vector [.sugar ⟨"quote"⟩ one none none] none) none (some mark)
    let plain : Value Unit :=
      .list [.symbol ⟨"quote"⟩, .vector [.list [.symbol ⟨"quote"⟩, one] none] none] none
    form.WrittenOut plain ∧
      (eval host env plain).run ⟨1, 5⟩ = (eval host env form).run ⟨1, 5⟩ := by
  intro host env mark one form plain
  have hinner : (Value.sugar ⟨"quote"⟩ one none none).WrittenOut
      (.list [.symbol ⟨"quote"⟩, one] none) :=
    .sugar (.cons .atom (.cons .atom .nil))
  have hform : form.WrittenOut plain :=
    .sugar (.cons .atom (.cons (.vector (.cons hinner .nil)) .nil))
  exact ⟨hform, (eval_writtenOut host env form).2 plain hform ⟨1, 5⟩⟩

end MiniLisp
