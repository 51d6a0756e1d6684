import MiniLisp.Proofs.Outcomes

/-!
# Forms that have a value

In the standard environment it can be read off a form whether it has a value. Arithmetic is all
there is to apply, it needs at least one operand, and its operands have to be numbers or to come to
numbers. So a form is well-formed if every list in it that is evaluated is an operator with such
operands, and every symbol elsewhere is an operator.

Results:
1. `Value.wellFormed_of_outcome`: a form that has a value is well-formed.
2. `numeric_of_outcome`: a well-formed form fails only where its numbers do.
3. `eval_wellFormed`: both for evaluation under a limit that is not below the height of the form.
-/

namespace MiniLisp

variable {π : Type}

/-! ## Definitions -/

/-- The symbols that the standard environment binds. -/
def operatorNames : List String := ["+", "-", "*", "/"]

namespace Value

/-- Whether the form is the symbol of an operator. -/
def isOperator : Value π → Bool
  | .atom (.symbol s) _ => operatorNames.contains s.name
  | _ => false

/-- Whether the form is a list with items. -/
def isApplication : Value π → Bool
  | .list (_ :: _) _ => true
  | _ => false

mutual

/-- Whether a form without functions and shorthands is well-formed. -/
def wellFormed : Value π → Bool
  | .nil => true
  | .unit => true
  | .atom (.symbol s) _ => operatorNames.contains s.name
  | .atom _ _ => true
  | .list [] _ => true
  | .list (head :: args) _ => head.isOperator && !args.isEmpty && wellFormedOperands args
  | .vector items _ => wellFormedItems items
  | .map entries _ => wellFormedEntries entries
  | .procedure _ _ => false
  | .sugar _ _ _ _ => false
termination_by structural v => v

/-- Whether each form is a number or a well-formed application. -/
def wellFormedOperands : List (Value π) → Bool
  | [] => true
  | x :: xs => (x.isNumber || (x.isApplication && wellFormed x)) && wellFormedOperands xs
termination_by structural vs => vs

/-- Whether each form is well-formed. -/
def wellFormedItems : List (Value π) → Bool
  | [] => true
  | x :: xs => wellFormed x && wellFormedItems xs
termination_by structural vs => vs

/-- Whether each form of a map is well-formed. -/
def wellFormedEntries : List (MapKey × Value π) → Bool
  | [] => true
  | (_, x) :: xs => wellFormed x && wellFormedEntries xs
termination_by structural vs => vs

end

end Value

/-! ## The check, clause by clause -/

theorem mem_operatorNames_iff {name : String} :
    name ∈ operatorNames ↔ ∃ op : Operator, name = op.name := by
  constructor
  · intro h
    simp only [operatorNames, List.mem_cons, List.not_mem_nil, or_false] at h
    rcases h with rfl | rfl | rfl | rfl
    · exact ⟨.add, rfl⟩
    · exact ⟨.sub, rfl⟩
    · exact ⟨.mul, rfl⟩
    · exact ⟨.div, rfl⟩
  · rintro ⟨op, rfl⟩
    cases op <;> decide

namespace Value

theorem wellFormedItems_iff {items : List (Value π)} :
    wellFormedItems items = true ↔ ∀ x ∈ items, x.wellFormed = true := by
  induction items with
  | nil => simp [wellFormedItems]
  | cons x xs ih => simp [wellFormedItems, ih]

theorem wellFormedEntries_iff {entries : List (MapKey × Value π)} :
    wellFormedEntries entries = true ↔ ∀ x ∈ entries.map Prod.snd, x.wellFormed = true := by
  induction entries with
  | nil => simp [wellFormedEntries]
  | cons entry rest ih =>
    rw [wellFormedEntries, Bool.and_eq_true, ih, List.map_cons, List.forall_mem_cons]

theorem wellFormed_of_isNumber {form : Value π} (h : form.isNumber = true) :
    form.wellFormed = true := by
  obtain ⟨n, md, rfl⟩ | ⟨y, md, rfl⟩ := isNumber_cases h
  · rfl
  · rfl

theorem wellFormed_of_isOperator {form : Value π} (h : form.isOperator = true) :
    form.wellFormed = true := by
  unfold isOperator at h
  split at h
  · exact h
  · cases h

theorem wellFormedOperands_iff {args : List (Value π)} :
    wellFormedOperands args = true ↔
      ∀ x ∈ args, (x.isNumber = true ∨ x.isApplication = true) ∧ x.wellFormed = true := by
  induction args with
  | nil => simp [wellFormedOperands]
  | cons x xs ih =>
    have hx : (x.isNumber || (x.isApplication && x.wellFormed)) = true ↔
        (x.isNumber = true ∨ x.isApplication = true) ∧ x.wellFormed = true := by
      cases hnumber : x.isNumber with
      | true => simp [wellFormed_of_isNumber hnumber]
      | false => simp
    rw [wellFormedOperands, Bool.and_eq_true, hx, ih, List.forall_mem_cons]

/-- An application is an operator with at least one operand, and its operands are numbers or
well-formed applications. -/
theorem wellFormed_cons_iff {head : Value π} {args : List (Value π)} {md : Option (Value π)} :
    (Value.list (head :: args) md).wellFormed = true ↔
      head.isOperator = true ∧ args ≠ [] ∧
        ∀ x ∈ args, (x.isNumber = true ∨ x.isApplication = true) ∧ x.wellFormed = true := by
  rw [wellFormed, Bool.and_eq_true, Bool.and_eq_true, wellFormedOperands_iff, and_assoc]
  simp

/-- What is evaluated inside of a well-formed form is well-formed. -/
theorem wellFormed_of_mem_subforms {form x : Value π} (h : form.wellFormed = true)
    (hx : x ∈ form.subforms) : x.wellFormed = true := by
  cases form with
  | list items md =>
    cases items with
    | nil => cases hx
    | cons head args =>
      obtain ⟨hhead, _, hargs⟩ := wellFormed_cons_iff.mp h
      rcases List.mem_cons.mp hx with rfl | hx
      · exact wellFormed_of_isOperator hhead
      · exact (hargs x hx).2
  | vector items md => exact wellFormedItems_iff.mp h x hx
  | map entries md => exact wellFormedEntries_iff.mp h x hx
  | sugar _ _ _ _ => cases h
  | _ => cases hx

theorem desugar_list (items : List (Value π)) (md : Option (Value π)) :
    (Value.list items md).desugar = .list (items.map desugar) md := by
  rw [desugar, desugarItems_eq_map]

end Value

/-! ## The kind of a value -/

theorem applied_cons_eq_ok {head x : Value π} {args : List (Value π)}
    (h : applied (head :: args) = .ok x) :
    ∃ (name : Symbol) (op : Operator) (md : Option (Value π)),
      head = .procedure ⟨name, .arithmetic op⟩ md ∧ op.reduce args = .ok x := by
  cases head with
  | procedure f md =>
    obtain ⟨name, body⟩ := f
    cases body with
    | arithmetic op => exact ⟨name, op, md, rfl, h⟩
    | host code => cases h
    | invalid => cases h
  | _ => cases h

/-- The application of items comes to a number, unless there are no items. -/
theorem isNumber_of_applied {env : Env π} {limit : Option Nat} {depth : Nat}
    {items values : List (Value π)} {x : Value π}
    (hvalues : items.mapM (outcome env limit depth) = .ok values) (h : applied values = .ok x) :
    x.isNumber = !items.isEmpty := by
  cases mapM_eq_ok_iff.mp hvalues with
  | nil =>
    cases h
    rfl
  | cons _ _ =>
    obtain ⟨_, op, _, _, hreduce⟩ := applied_cons_eq_ok h
    exact (Operator.numbers_of_reduce_eq_ok hreduce).2.2

/-- Numbers and applications come to numbers, and no other forms do. -/
theorem isNumber_of_outcome {env : Env π} {limit : Option Nat} {depth : Nat} {form x : Value π}
    (h : outcome env limit depth form = .ok x) :
    x.isNumber = (form.desugar.isNumber || form.desugar.isApplication) := by
  obtain ⟨values, hvalues, hsettle⟩ := exists_values_of_outcome h
  cases form with
  | atom a md =>
    cases a with
    | symbol s =>
      rw [Value.settle] at hsettle
      split at hsettle <;> cases hsettle
      rfl
    | _ =>
      cases hsettle
      rfl
  | list items md =>
    rw [isNumber_of_applied hvalues hsettle, Value.desugar_list]
    cases items <;> rfl
  | sugar tag inner metaForm md => exact isNumber_of_applied hvalues hsettle
  | _ =>
    cases hsettle
    rfl

/-- In the standard environment, only the symbols of operators come to functions. -/
theorem isOperator_of_outcome {limit : Option Nat} {depth : Nat} {form : Value π} {f : Procedure π}
    {md : Option (Value π)} (hform : form.FunctionFree)
    (h : outcome .standard limit depth form = .ok (.procedure f md)) :
    form.desugar.isOperator = true := by
  have hnumber := isNumber_of_outcome h
  obtain ⟨values, hvalues, hsettle⟩ := exists_values_of_outcome h
  cases form with
  | atom a md =>
    cases a with
    | symbol s =>
      rw [Value.settle] at hsettle
      split at hsettle
      · next f hf =>
        obtain ⟨op, hop, _⟩ := Env.find?_standard_eq_some_iff.mp hf
        have hname := mem_operatorNames_iff.mpr ⟨op, congrArg Symbol.name hop⟩
        simpa [Value.desugar, Value.isOperator] using hname
      · cases hsettle
    | _ => cases hsettle
  | list items md =>
    cases items with
    | nil =>
      cases hvalues
      cases hsettle
    | cons _ _ => cases hnumber
  | sugar tag inner metaForm md => cases hnumber
  | procedure f md => exact absurd rfl (hform.ne_procedure f md)
  | _ => cases hsettle

/-- The symbol of an operator comes to a function that computes. -/
theorem outcome_of_isOperator (depth : Nat) {form : Value π}
    (h : form.desugar.isOperator = true) :
    ∃ op : Operator, outcome .standard none depth form = .ok (.procedure op.procedure none) := by
  cases form with
  | atom a md =>
    cases a with
    | symbol s =>
      have hname : s.name ∈ operatorNames := by
        simpa [Value.desugar, Value.isOperator] using h
      obtain ⟨op, hop⟩ := mem_operatorNames_iff.mp hname
      have hfind : (Env.standard : Env π).find? s = some op.procedure :=
        Env.find?_standard_eq_some_iff.mpr ⟨op, congrArg Symbol.mk hop, rfl⟩
      refine ⟨op, ?_⟩
      simp only [outcome_eq, bounded, Value.subforms, List.mapM_nil, pure_bind, Value.settle, hfind]
    | _ => cases h
  | _ => cases h

/-! ## What has a value is well-formed -/

namespace Value

/-- If the application of items has a value, it is well-formed, provided that the items are. -/
theorem wellFormed_of_applied {depth : Nat} {items values : List (Value π)} {x : Value π}
    (hitems : ∀ y ∈ items, y.FunctionFree ∧ y.desugar.wellFormed = true)
    (hvalues : items.mapM (outcome .standard none depth) = .ok values)
    (h : applied values = .ok x) (md : Option (Value π)) :
    (Value.list (items.map desugar) md).wellFormed = true := by
  cases mapM_eq_ok_iff.mp hvalues with
  | nil => rfl
  | @cons head value args others hhead hothers =>
    rw [List.forall_mem_cons] at hitems
    obtain ⟨_, op, _, rfl, hreduce⟩ := applied_cons_eq_ok h
    obtain ⟨hne, hnumbers, _⟩ := Operator.numbers_of_reduce_eq_ok hreduce
    rw [List.map_cons, wellFormed_cons_iff]
    refine ⟨isOperator_of_outcome hitems.1.1 hhead, ?_, List.forall_mem_map.mpr ?_⟩
    · intro hnil
      obtain rfl := List.map_eq_nil_iff.mp hnil
      cases hothers
      exact hne rfl
    · intro y hy
      obtain ⟨value, hvalue, houtcome⟩ :=
        (exists_of_mapM_eq_ok (mapM_eq_ok_iff.mpr hothers)).1 y hy
      have hnumber := isNumber_of_outcome houtcome
      rw [hnumbers value hvalue] at hnumber
      exact ⟨by simpa using hnumber.symm, (hitems.2 y hy).2⟩

/-- A form that has a value in the standard environment is well-formed. -/
theorem wellFormed_of_outcome {depth : Nat} {form x : Value π} (hform : form.FunctionFree)
    (h : outcome .standard none depth form = .ok x) : form.desugar.wellFormed = true := by
  induction form using induction_subforms generalizing depth x with
  | step form ih =>
    obtain ⟨values, hvalues, hsettle⟩ := bind_eq_ok_iff.mp ((outcome_eq _ _ _ _).symm.trans h)
    have hsubforms : ∀ y ∈ form.subforms, y.FunctionFree ∧ y.desugar.wellFormed = true := by
      intro y hy
      obtain ⟨value, _, houtcome⟩ := (exists_of_mapM_eq_ok hvalues).1 y hy
      exact ⟨hform.subform hy, ih y hy (hform.subform hy) houtcome⟩
    have hdesugar : ∀ y ∈ form.desugar.subforms, y.wellFormed = true := by
      rw [subforms_desugar]
      exact List.forall_mem_map.mpr fun y hy => (hsubforms y hy).2
    cases form with
    | atom a md =>
      cases a with
      | symbol s =>
        rw [settle] at hsettle
        split at hsettle <;> cases hsettle
        exact wellFormed_of_isOperator (isOperator_of_outcome hform h)
      | _ => rfl
    | list items md =>
      rw [desugar_list]
      exact wellFormed_of_applied hsubforms hvalues hsettle md
    | vector items md => exact wellFormedItems_iff.mpr hdesugar
    | map entries md => exact wellFormedEntries_iff.mpr hdesugar
    | procedure f md => exact absurd rfl (hform.ne_procedure f md)
    | sugar tag inner metaForm md =>
      rw [desugar_sugar]
      exact wellFormed_of_applied hsubforms hvalues hsettle md
    | _ => rfl

end Value

/-! ## What is well-formed fails only where its numbers do -/

/-- If a well-formed application fails after its items were evaluated, its numbers are to blame. -/
theorem numeric_of_applied {depth : Nat} {items values : List (Value π)} {md : Option (Value π)}
    {e : EvalError} (hvalues : items.mapM (outcome .standard none depth) = .ok values)
    (hform : (Value.list (items.map Value.desugar) md).wellFormed = true)
    (h : applied values = .error e) : e.Numeric := by
  cases mapM_eq_ok_iff.mp hvalues with
  | nil => cases h
  | @cons head value args others hhead hothers =>
    rw [List.map_cons, Value.wellFormed_cons_iff] at hform
    obtain ⟨hoperator, hne, hargs⟩ := hform
    obtain ⟨op, hop⟩ := outcome_of_isOperator depth hoperator
    rw [hop] at hhead
    cases hhead
    have hnumbers : ∀ x ∈ others, x.isNumber = true := by
      intro x hx
      obtain ⟨y, hy, houtcome⟩ := (exists_of_mapM_eq_ok (mapM_eq_ok_iff.mpr hothers)).2 x hx
      rw [isNumber_of_outcome houtcome]
      simpa using (hargs _ (List.mem_map_of_mem hy)).1
    have hreduce : op.reduce others = .error e := h
    obtain ⟨hnil, _⟩ | ⟨x, hx, hnumber, _⟩ | ⟨_, _, ⟨_, hok, _⟩ | herror⟩ := op.reduce_cases others
    · subst hnil
      cases hothers
      exact absurd rfl hne
    · rw [hnumbers x hx] at hnumber
      cases hnumber
    · rw [hok] at hreduce
      cases hreduce
    · rw [herror] at hreduce
      cases hreduce
      exact op.numeric_nonFinite

/-- A well-formed form fails only with an error of its numbers. -/
theorem numeric_of_outcome {depth : Nat} {form : Value π} {e : EvalError}
    (hform : form.desugar.wellFormed = true) (h : outcome .standard none depth form = .error e) :
    e.Numeric := by
  induction form using Value.induction_subforms generalizing depth with
  | step form ih =>
    rcases bind_eq_error_iff.mp ((outcome_eq _ _ _ _).symm.trans h) with
      hitems | ⟨values, hvalues, hsettle⟩
    · obtain ⟨x, hx, hfails⟩ := exists_of_mapM_eq_error hitems
      refine ih x hx (Value.wellFormed_of_mem_subforms hform ?_) hfails
      rw [Value.subforms_desugar]
      exact List.mem_map_of_mem hx
    · cases form with
      | atom a md =>
        cases a with
        | symbol s =>
          have hoperator : (Value.atom (.symbol s) md).desugar.isOperator = true := hform
          obtain ⟨op, hop⟩ := outcome_of_isOperator depth hoperator
          rw [hop] at h
          cases h
        | _ => cases hsettle
      | list items md =>
        rw [Value.desugar_list] at hform
        exact numeric_of_applied hvalues hform hsettle
      | sugar tag inner metaForm md =>
        rw [Value.desugar_sugar] at hform
        exact numeric_of_applied hvalues hform hsettle
      | _ => cases hsettle

/-! ## Evaluation -/

/-- Whether a form without functions is well-formed decides what its evaluation can come to, if the
limit leaves room for its height. A well-formed form has a value, or its computation leaves the
numbers; of an application, the value is a number. Evaluating any other form fails. -/
theorem eval_wellFormed (host : Host π) {form : Value π} (hform : form.FunctionFree)
    (gauge : Gauge) (hroom : gauge.depth + form.height ≤ gauge.limit) :
    (form.desugar.wellFormed = true →
      (∃ value, (eval host .standard form).run gauge = .ok value gauge ∧
          (form.desugar.isApplication = true → value.isNumber = true)) ∨
        ∃ e, (eval host .standard form).run gauge = .error e gauge ∧ e.Numeric) ∧
    (form.desugar.wellFormed = false →
      ∃ e, (eval host .standard form).run gauge = .error e gauge) := by
  rw [run_eval host Env.arithmetic_standard hform, outcome_eq_of_height_le _ hroom]
  cases houtcome : outcome .standard none gauge.depth form with
  | ok value =>
    have hwellFormed := Value.wellFormed_of_outcome hform houtcome
    refine ⟨fun _ => .inl ⟨value, rfl, ?_⟩, fun hnot => ?_⟩
    · intro happlication
      rw [isNumber_of_outcome houtcome, happlication, Bool.or_true]
    · rw [hwellFormed] at hnot
      cases hnot
  | error e => exact ⟨fun h => .inr ⟨e, rfl, numeric_of_outcome h houtcome⟩, fun _ => ⟨e, rfl⟩⟩

/-- A sum with a shorthand among its operands, and a vector that quotes it, where the limit leaves
no more room than needed. -/
theorem eval_wellFormed_sum :
    let sum : Value Empty :=
      .list [.symbol ⟨"+"⟩, .int 1, .sugar ⟨"-"⟩ (.int 2) none none] none
    let quoted : Value Empty := .vector [sum, .sugar ⟨"quote"⟩ sum none none] none
    sum.desugar.wellFormed = true ∧ quoted.desugar.wellFormed = false ∧
      ((∃ value, (eval Host.none .standard sum).run ⟨2, 5⟩ = .ok value ⟨2, 5⟩ ∧
          value.isNumber = true) ∨
        ∃ e, (eval Host.none .standard sum).run ⟨2, 5⟩ = .error e ⟨2, 5⟩ ∧ e.Numeric) ∧
      ∃ e, (eval Host.none .standard quoted).run ⟨2, 7⟩ = .error e ⟨2, 7⟩ := by
  intro sum quoted
  have hsum : sum.FunctionFree := by
    have hatom : ∀ a, (Value.atom a none : Value Empty).FunctionFree :=
      fun a => Value.functionFree_atom a none
    refine .of_parts ?_ rfl
    have hsugar : (Value.sugar ⟨"-"⟩ (.int 2) none none : Value Empty).FunctionFree :=
      .of_parts (List.forall_mem_singleton.mpr (hatom _)) rfl
    simpa [sum, Value.parts] using ⟨hatom _, hatom _, hsugar⟩
  have hquoted : quoted.FunctionFree := by
    have hsugar : (Value.sugar ⟨"quote"⟩ sum none none).FunctionFree :=
      .of_parts (List.forall_mem_singleton.mpr hsum) rfl
    exact .of_parts (by simpa [quoted, Value.parts] using ⟨hsum, hsugar⟩) rfl
  have hwell : sum.desugar.wellFormed = true := by decide
  have hnot : quoted.desugar.wellFormed = false := by decide
  have hevalSum := (eval_wellFormed Host.none hsum ⟨2, 5⟩ (by decide)).1 hwell
  have hevalQuoted := (eval_wellFormed Host.none hquoted ⟨2, 7⟩ (by decide)).2 hnot
  refine ⟨hwell, hnot, ?_, hevalQuoted⟩
  rcases hevalSum with ⟨value, hrun, hnumber⟩ | hfails
  · exact .inl ⟨value, hrun, hnumber rfl⟩
  · exact .inr hfails

end MiniLisp
