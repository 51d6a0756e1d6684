import MiniLisp.Proofs.Outcomes

/-!
# Metadata and evaluation

Evaluation hands metadata on where a form is its own value, and looks at it nowhere. So forms that
differ in their metadata only come to values that differ in their metadata only, or they fail with
the same error.

Erasure says too little about values to prove this by induction: of a function it leaves the name,
and a function that is applied needs its code. `Value.bare` is erasure that spares the function
itself.

1. `applied_map_bare`: application does not look at metadata.
2. `outcome_erase`: evaluation does not look at the metadata of a form.
3. `eval_of_beq`: equal forms come to equal values, or they fail with the same error.
-/

namespace MiniLisp

variable {π : Type}

/-! ## Views of results -/

section

variable {ε α β γ δ : Type}

theorem map_bind_congr {first second : Except ε α} {next other : α → Except ε β} {view : α → γ}
    {seen : β → δ} (hfirst : first.map view = second.map view)
    (hnext : ∀ x y, view x = view y → (next x).map seen = (other y).map seen) :
    (first >>= next).map seen = (second >>= other).map seen := by
  cases first with
  | error e =>
    cases second with
    | error e' =>
      cases hfirst
      rfl
    | ok y => cases hfirst
  | ok x =>
    cases second with
    | error e' => cases hfirst
    | ok y => exact hnext x y (Except.ok.inj hfirst)

/-- Members with the same views as others make up a sequence of the same views. -/
theorem map_mapM_congr {f : α → Except ε β} {change : α → α} {view : β → γ} {xs : List α}
    (h : ∀ x ∈ xs, (f (change x)).map view = (f x).map view) :
    ((xs.map change).mapM f).map (List.map view) = (xs.mapM f).map (List.map view) := by
  induction xs with
  | nil => rfl
  | cons x xs ih =>
    rw [List.forall_mem_cons] at h
    rw [List.map_cons, List.mapM_cons, List.mapM_cons]
    refine map_bind_congr h.1 fun y y' hy => map_bind_congr (ih h.2) fun ys ys' hys => ?_
    show Except.ok (List.map view (y :: ys)) = Except.ok (List.map view (y' :: ys'))
    rw [List.map_cons, List.map_cons, hy, hys]

end

theorem map_bounded {α β : Type} (limit : Option Nat) (depth : Nat) (view : α → β)
    (result : Except EvalError α) :
    (bounded limit depth result).map view = bounded limit depth (result.map view) := by
  unfold bounded
  split
  · rfl
  · split <;> rfl

/-! ## Bare values -/

namespace Value

/-- The value without metadata. If it is a function, it stays one that can be called; functions
inside of it are reduced to their names. -/
def bare : Value π → Value π
  | .procedure f _ => .procedure f none
  | other => other.erase

theorem erase_bare (value : Value π) : value.bare.erase = value.erase := by
  cases value with
  | procedure f md => rfl
  | _ => exact erase_erase _

theorem print_bare (style : Style) (value : Value π) :
    value.bare.print style = value.print style := by
  rw [← print_erase, erase_bare, print_erase]

theorem map_erase_of_map_bare {values others : List (Value π)}
    (h : values.map bare = others.map bare) : values.map erase = others.map erase := by
  have hbare : erase ∘ bare = (erase : Value π → Value π) := funext erase_bare
  have herase := congrArg (List.map erase) h
  rwa [List.map_map, List.map_map, hbare] at herase

end Value

/-- Results that differ in metadata only have the same text. -/
theorem map_print_of_map_bare {ε : Type} {style : Style} {result other : Except ε (Value π)}
    (h : result.map Value.bare = other.map Value.bare) :
    result.map (Value.print style) = other.map (Value.print style) := by
  have hprint : ∀ r : Except ε (Value π),
      (r.map Value.bare).map (Value.print style) = r.map (Value.print style) := by
    intro r
    cases r with
    | error e => rfl
    | ok x => exact congrArg Except.ok (x.print_bare style)
  rw [← hprint result, h, hprint]

/-! ## Application -/

theorem Operator.operand_bare (op : Operator) (x : Value π) : op.operand x.bare = op.operand x := by
  cases x with
  | atom a md => cases a <;> rfl
  | _ => rfl

theorem Operator.reduce_map_bare (op : Operator) (args : List (Value π)) :
    op.reduce (args.map Value.bare) = op.reduce args := by
  have hoperand : op.operand ∘ Value.bare = (op.operand : Value π → _) := funext op.operand_bare
  unfold reduce
  rw [List.mapM_map, hoperand]

/-- Application looks at no metadata, and of functions that it does not call at their names only. -/
theorem applied_map_bare (values : List (Value π)) :
    applied (values.map Value.bare) = applied values := by
  cases values with
  | nil => rfl
  | cons head args =>
    cases head with
    | procedure f md =>
      obtain ⟨name, body⟩ := f
      cases body with
      | arithmetic op => exact op.reduce_map_bare args
      | _ => rfl
    | _ => exact congrArg (Except.error ∘ EvalError.notCallable) (Value.print_bare _ _)

/-! ## Evaluation -/

namespace Value

theorem subforms_erase (form : Value π) : form.erase.subforms = form.subforms.map erase := by
  cases form with
  | nil => rfl
  | unit => rfl
  | atom _ _ => rfl
  | list items _ => exact eraseItems_eq_map items
  | vector items _ => exact eraseItems_eq_map items
  | map entries _ =>
    rw [erase, eraseEntries_eq_map, subforms, subforms, List.map_map, List.map_map]
    rfl
  | procedure _ _ => rfl
  | sugar _ _ metaForm _ => cases metaForm <;> rfl

/-- What bare values make of a form, and of the form without metadata. -/
theorem settle_erase (env : Env π) {form : Value π} (hform : form.FunctionFree)
    {values others : List (Value π)} (h : values.map bare = others.map bare) :
    (form.erase.settle env values).map bare = (form.settle env others).map bare := by
  have happlied : applied values = applied others := by
    rw [← applied_map_bare values, h, applied_map_bare]
  cases form with
  | nil => rfl
  | unit => rfl
  | atom a md => cases a <;> rfl
  | list items md => exact congrArg (Except.map bare) happlied
  | vector items md =>
    show Except.ok (Value.vector (eraseItems values) none) =
      Except.ok (Value.vector (eraseItems others) none)
    rw [eraseItems_eq_map, eraseItems_eq_map, map_erase_of_map_bare h]
  | map entries md =>
    have hkeys : (eraseEntries entries).map Prod.fst = entries.map Prod.fst := by
      rw [eraseEntries_eq_map, List.map_map]
      rfl
    show Except.ok
        (Value.map (eraseEntries (((eraseEntries entries).map Prod.fst).zip values)) none) =
      Except.ok (Value.map (eraseEntries ((entries.map Prod.fst).zip others)) none)
    rw [hkeys, eraseEntries_eq_map, eraseEntries_eq_map, ← List.zip_map, ← List.zip_map,
      map_erase_of_map_bare h]
  | procedure f md => exact absurd rfl (hform.ne_procedure f md)
  | sugar tag inner metaForm md => exact congrArg (Except.map bare) happlied

end Value

/-- A form and the form without metadata come to the same value but for its metadata, or they fail
with the same error. -/
theorem outcome_erase (env : Env π) (limit : Option Nat) (depth : Nat) {form : Value π}
    (hform : form.FunctionFree) :
    (outcome env limit depth form.erase).map Value.bare =
      (outcome env limit depth form).map Value.bare := by
  induction form using Value.induction_subforms generalizing depth with
  | step form ih =>
    have hvalues : ∀ x ∈ form.subforms, (outcome env limit (depth + 1) x.erase).map Value.bare =
        (outcome env limit (depth + 1) x).map Value.bare :=
      fun x hx => ih x hx (depth + 1) (hform.subform hx)
    rw [outcome_eq, outcome_eq, map_bounded, map_bounded, form.subforms_erase]
    refine congrArg (bounded limit depth) (map_bind_congr (map_mapM_congr hvalues) ?_)
    intro values others h
    exact Value.settle_erase env hform h

/-- Results that differ in metadata only are equal values or the same error. -/
theorem beq_or_error_of_map_bare {ε : Type} {result other : Except ε (Value π)}
    (h : result.map Value.bare = other.map Value.bare) :
    (∃ x y, result = .ok x ∧ other = .ok y ∧ (x == y) = true) ∨
      ∃ e, result = .error e ∧ other = .error e := by
  cases result with
  | error e =>
    cases other with
    | error e' =>
      cases h
      exact .inr ⟨e, rfl, rfl⟩
    | ok y => cases h
  | ok x =>
    cases other with
    | error e' => cases h
    | ok y =>
      have hbare : x.bare = y.bare := Except.ok.inj h
      refine .inl ⟨x, y, rfl, rfl, ?_⟩
      rw [Value.beq_iff_erase_eq, ← Value.erase_bare, hbare, Value.erase_bare]

/-- Equal forms without functions, evaluated at the same depth under the same limit, come to equal
values or fail with the same error. Both leave the gauge as it was. -/
theorem eval_of_beq (host : Host π) {a b : Value π} (ha : a.FunctionFree) (hb : b.FunctionFree)
    (h : (a == b) = true) (gauge : Gauge) :
    (∃ x y, (eval host .standard a).run gauge = .ok x gauge ∧
        (eval host .standard b).run gauge = .ok y gauge ∧ (x == y) = true) ∨
      ∃ e, (eval host .standard a).run gauge = .error e gauge ∧
        (eval host .standard b).run gauge = .error e gauge := by
  have hbare : (outcome .standard (some gauge.limit) gauge.depth a).map Value.bare =
      (outcome .standard (some gauge.limit) gauge.depth b).map Value.bare := by
    rw [← outcome_erase _ _ _ ha, ← outcome_erase _ _ _ hb, (Value.beq_iff_erase_eq a b).mp h]
  rw [run_eval host Env.arithmetic_standard ha, run_eval host Env.arithmetic_standard hb]
  rcases beq_or_error_of_map_bare hbare with ⟨x, y, hx, hy, hequal⟩ | ⟨e, hx, hy⟩
  · refine .inl ⟨x, y, ?_, ?_, hequal⟩
    · rw [hx]
      rfl
    · rw [hy]
      rfl
  · refine .inr ⟨e, ?_, ?_⟩
    · rw [hx]
      rfl
    · rw [hy]
      rfl

/-- A map with a shorthand in it, once with metadata at the map, at the shorthand, at an operand and at
the head of a list, and once without. The head is no function, and the error shows its text. -/
theorem eval_of_beq_map :
    let mark : Option (Value Empty) := some (.keyword ⟨"m"⟩)
    let form (md : Option (Value Empty)) : Value Empty :=
      .map [(.string "k", .sugar ⟨"+"⟩ (.atom (.int 1) md)
        (some (.list [.vector [.atom (.int 2) md] md, .nil] none)) md)] md
    (form mark).FunctionFree ∧ (form none).FunctionFree ∧ (form mark == form none) = true ∧
      ((∃ x y, (eval Host.none .standard (form mark)).run ⟨1, 6⟩ = .ok x ⟨1, 6⟩ ∧
          (eval Host.none .standard (form none)).run ⟨1, 6⟩ = .ok y ⟨1, 6⟩ ∧ (x == y) = true) ∨
        ∃ e, (eval Host.none .standard (form mark)).run ⟨1, 6⟩ = .error e ⟨1, 6⟩ ∧
          (eval Host.none .standard (form none)).run ⟨1, 6⟩ = .error e ⟨1, 6⟩) := by
  intro mark form
  have hform : ∀ md, (form md).FunctionFree := by
    intro md
    have hatom : ∀ n, (Value.atom (.int n) md).FunctionFree :=
      fun n => Value.functionFree_atom _ _
    have hnil : (Value.nil : Value Empty).FunctionFree := .of_parts_eq_nil rfl rfl
    have hhead : (Value.vector [.atom (.int 2) md] md).FunctionFree :=
      .of_parts (List.forall_mem_singleton.mpr (hatom 2)) rfl
    have hlist : (Value.list [.vector [.atom (.int 2) md] md, .nil] none).FunctionFree :=
      .of_parts (by simpa [Value.parts] using ⟨hhead, hnil⟩) rfl
    exact .of_parts (List.forall_mem_singleton.mpr
      (.of_parts (by simpa [Value.parts] using ⟨hatom 1, hlist⟩) rfl)) rfl
  have hequal : (form mark == form none) = true := by decide
  exact ⟨hform mark, hform none, hequal,
    eval_of_beq Host.none (hform mark) (hform none) hequal ⟨1, 6⟩⟩

end MiniLisp
