import MiniLisp.Proofs.Limits
import MiniLisp.Proofs.WellFormedness

/-!
# Values are normal forms

Nothing in the value of a form is left to be evaluated, so evaluating it again changes nothing, in
whatever environment and with whatever functions of the embedding program. Evaluation takes the
metadata of collections away and keeps that of atoms and functions, which is why a value comes back
with just the metadata it has. And a value is no higher than its form, which is why a limit that left
room for the form leaves room for the value.

Results:
1. `final_of_outcome`: the value of a form is final.
2. `height_le_of_value`: a value is no higher than the form that it is the value of.
3. `Value.Final.run_eval`: a final value is its own value, if there is room for it.
4. `eval_idempotent`: all of it for the evaluator in the standard environment.
-/

namespace MiniLisp

variable {π : Type}

/-! ## Definitions -/

namespace Value

/-- Whether the form stands for something else: a symbol, a shorthand or a list that is applied. -/
def isPending : Value π → Bool
  | .atom (.symbol _) _ => true
  | .list (_ :: _) _ => true
  | .sugar _ _ _ _ => true
  | _ => false

/-- A value as evaluation returns it. Nothing in it is pending, and its collections carry no
metadata. -/
inductive Final : Value π → Prop
  | nil : Final .nil
  | unit : Final .unit
  | atom {a : Atom} {md : Option (Value π)} : (∀ s, a ≠ .symbol s) → Final (.atom a md)
  | list : Final (.list [] none)
  | vector {items : List (Value π)} : (∀ x ∈ items, Final x) → Final (.vector items none)
  | map {entries : List (MapKey × Value π)} :
      (∀ x ∈ entries.map Prod.snd, Final x) → Final (.map entries none)
  | procedure {f : Procedure π} {md : Option (Value π)} : Final (.procedure f md)

/-! ## Final values -/

theorem final_of_isNumber {value : Value π} (h : value.isNumber = true) : value.Final := by
  obtain ⟨n, md, rfl⟩ | ⟨y, md, rfl⟩ := isNumber_cases h
  · exact .atom (by simp)
  · exact .atom (by simp)

theorem Final.part {part value : Value π} (h : value.Final) (hpart : part ∈ value.parts) :
    part.Final := by
  cases h with
  | vector hitems => exact hitems part hpart
  | map hvalues => exact hvalues part hpart
  | _ => cases hpart

theorem Final.isPending_eq {value : Value π} (h : value.Final) : value.isPending = false := by
  cases h with
  | @atom a md hsymbol =>
    cases a with
    | symbol s => exact absurd rfl (hsymbol s)
    | _ => rfl
  | _ => rfl

/-- Nothing in a final value is pending, at any depth. -/
theorem Final.isPending_of_within {value x : Value π} (h : value.Final) (hx : Within x value) :
    x.isPending = false := by
  induction hx with
  | refl => exact h.isPending_eq
  | part hpart _ ih => exact ih (h.part hpart)

theorem Final.subforms_eq {value : Value π} (h : value.Final) : value.subforms = value.parts := by
  cases h <;> rfl

/-- A final value is put together again from its subforms. -/
theorem Final.assemble_subforms (host : Host π) (env : Env π) {value : Value π} (h : value.Final) :
    value.assemble host env value.subforms = pure value := by
  cases h with
  | @atom a md hsymbol =>
    cases a with
    | symbol s => exact absurd rfl (hsymbol s)
    | _ => rfl
  | @map entries _ =>
    rw [subforms, assemble, ← List.unzip_fst, ← List.unzip_snd, List.zip_unzip]
  | _ => rfl

/-- A final value is its own value, in every environment and for every host. -/
theorem Final.run_eval (host : Host π) (env : Env π) {value : Value π} (h : value.Final)
    {gauge : Gauge} (hroom : gauge.depth + value.height ≤ gauge.limit) :
    (eval host env value).run gauge = .ok value gauge := by
  induction value using induction_subforms generalizing gauge with
  | step value ih =>
    let inner : Gauge := { gauge with depth := gauge.depth + 1 }
    have hdepth : gauge.depth < gauge.limit := by
      have hpos := value.height_pos
      omega
    have hitems : (evalItems host env value.subforms).run inner =
        inner.ends (value.subforms.mapM Except.ok) := by
      refine run_evalItems_ends fun x hx => ih x hx ?_ ?_
      · exact h.part (h.subforms_eq ▸ hx)
      · have hlower := height_lt_of_mem_subforms hx
        show gauge.depth + 1 + x.height ≤ gauge.limit
        omega
    have hsame : value.subforms.mapM Except.ok = (.ok value.subforms : Except EvalError _) :=
      mapM_eq_ok_iff.mpr (List.forall₂_same.mpr fun _ _ => rfl)
    have hvalue : (evalItems host env value.subforms >>= value.assemble host env).run inner =
        inner.ends (.ok value) := by
      rw [EStateM.run_bind, hitems, hsame]
      show (value.assemble host env value.subforms).run inner = _
      rw [h.assemble_subforms]
      rfl
    rw [eval_eq, run_nested_ends hvalue, bounded_of_lt hdepth]
    rfl

end Value

/-! ## Values of forms -/

/-- What is applied comes to a number, unless there is nothing to apply. -/
theorem eq_list_or_isNumber_of_applied {values : List (Value π)} {x : Value π}
    (h : applied values = .ok x) : x = .list [] none ∨ x.isNumber = true := by
  cases values with
  | nil =>
    cases h
    exact .inl rfl
  | cons head args =>
    obtain ⟨_, op, _, _, hreduce⟩ := applied_cons_eq_ok h
    exact .inr (Operator.numbers_of_reduce_eq_ok hreduce).2.2

theorem final_of_applied {values : List (Value π)} {x : Value π} (h : applied values = .ok x) :
    x.Final := by
  rcases eq_list_or_isNumber_of_applied h with rfl | hnumber
  · exact .list
  · exact Value.final_of_isNumber hnumber

theorem Value.final_of_settle {env : Env π} {form x : Value π} {values : List (Value π)}
    (hvalues : ∀ y ∈ values, y.Final) (h : form.settle env values = .ok x) : x.Final := by
  cases form with
  | nil =>
    cases h
    exact .nil
  | unit =>
    cases h
    exact .unit
  | atom a md =>
    cases a with
    | symbol s =>
      rw [settle] at h
      split at h <;> cases h
      exact .procedure
    | _ =>
      cases h
      exact .atom (by simp)
  | list items md => exact final_of_applied h
  | vector items md =>
    cases h
    exact .vector hvalues
  | map entries md =>
    cases h
    refine .map fun y hy => ?_
    obtain ⟨entry, hentry, rfl⟩ := List.mem_map.mp hy
    exact hvalues _ (List.of_mem_zip hentry).2
  | procedure f md =>
    cases h
    exact .procedure
  | sugar tag inner metaForm md => exact final_of_applied h

/-- What a form evaluates to is final. -/
theorem final_of_outcome {env : Env π} {limit : Option Nat} {depth : Nat} {form x : Value π}
    (h : outcome env limit depth form = .ok x) : x.Final := by
  induction form using Value.induction_subforms generalizing depth x with
  | step form ih =>
    obtain ⟨values, hvalues, hsettle⟩ := exists_values_of_outcome h
    refine Value.final_of_settle ?_ hsettle
    intro y hy
    obtain ⟨subform, hmem, houtcome⟩ := (exists_of_mapM_eq_ok hvalues).2 y hy
    exact ih subform hmem houtcome

theorem parts_eq_nil_of_applied {values : List (Value π)} {x : Value π}
    (h : applied values = .ok x) : x.parts = [] := by
  rcases eq_list_or_isNumber_of_applied h with rfl | hnumber
  · rfl
  · obtain ⟨n, md, rfl⟩ | ⟨y, md, rfl⟩ := Value.isNumber_cases hnumber
    · rfl
    · rfl

/-- A value has no parts but the values of the subforms. -/
theorem mem_of_mem_parts_of_settle {env : Env π} {form x part : Value π} {values : List (Value π)}
    (h : form.settle env values = .ok x) (hpart : part ∈ x.parts) : part ∈ values := by
  cases form with
  | atom a md =>
    cases a with
    | symbol s =>
      rw [Value.settle] at h
      split at h <;> cases h
      cases hpart
    | _ =>
      cases h
      cases hpart
  | list items md =>
    rw [parts_eq_nil_of_applied h] at hpart
    cases hpart
  | sugar tag inner metaForm md =>
    rw [parts_eq_nil_of_applied h] at hpart
    cases hpart
  | vector items md =>
    cases h
    exact hpart
  | map entries md =>
    cases h
    obtain ⟨entry, hentry, rfl⟩ := List.mem_map.mp hpart
    exact (List.of_mem_zip hentry).2
  | _ =>
    cases h
    cases hpart

/-- Evaluation does not make values higher than their forms. -/
theorem height_le_of_value {env : Env π} {limit : Option Nat} {depth : Nat} {form x : Value π}
    (h : outcome env limit depth form = .ok x) : x.height ≤ form.height := by
  induction form using Value.induction_subforms generalizing depth x with
  | step form ih =>
    obtain ⟨values, hvalues, hsettle⟩ := exists_values_of_outcome h
    obtain ⟨k, hk⟩ := Value.exists_succ_of_height_le (Nat.le_refl form.height)
    rw [hk, Value.height_le_succ_iff]
    intro part hpart
    obtain ⟨subform, hmem, houtcome⟩ :=
      (exists_of_mapM_eq_ok hvalues).2 part (mem_of_mem_parts_of_settle hsettle hpart)
    have hlower := Value.height_lt_of_mem_subforms hmem
    have hheight := ih subform hmem houtcome
    omega

/-- A limit that left room for a form leaves room for its value. -/
theorem room_of_outcome {env : Env π} {limit depth : Nat} {form x : Value π}
    (h : outcome env (some limit) depth form = .ok x) : depth + x.height ≤ limit :=
  Nat.le_trans (Nat.add_le_add_left (height_le_of_value h) depth) (height_le_of_outcome h)

/-! ## Evaluating twice -/

/-- Nothing is pending in the value of a form without functions, at any depth. Evaluating the value
at the same depth and under the same limit returns just this value and its metadata, for every host
and in every environment. -/
theorem eval_idempotent (host : Host π) {form result : Value π} {gauge after : Gauge}
    (hform : form.FunctionFree)
    (heval : (eval host .standard form).run gauge = .ok result after) :
    (∀ x, Value.Within x result → x.isPending = false) ∧
      ∀ (other : Host π) (env : Env π), (eval other env result).run gauge = .ok result gauge := by
  rw [run_eval host Env.arithmetic_standard hform] at heval
  have houtcome := eq_ok_of_ends heval
  have hfinal := final_of_outcome houtcome
  refine ⟨fun x hx => hfinal.isPending_of_within hx, fun other env => ?_⟩
  exact hfinal.run_eval other env (room_of_outcome houtcome)

/-- A vector of a function, a sum and an empty list, with metadata at the vector, at the list and at
a keyword, under a limit that leaves no more room than needed. The value is evaluated again where
nothing is bound. -/
theorem eval_idempotent_vector :
    let mark : Option (Value Empty) := some (.symbol ⟨"m"⟩)
    let keyword : Value Empty := .atom (.keyword ⟨"k"⟩) mark
    let two := Binary64.ofBits 0x4000000000000000
    let three := Binary64.ofBits 0x4008000000000000
    let sum : Value Empty := .list [.symbol ⟨"+"⟩, .int 1, .float two] none
    let form : Value Empty := .vector [.symbol ⟨"+"⟩, sum, .list [] mark, keyword] mark
    let result : Value Empty :=
      .vector [.procedure ⟨⟨"+"⟩, .arithmetic .add⟩ none, .float three, .list [] none, keyword] none
    form.FunctionFree ∧ (eval Host.none .standard form).run ⟨1, 4⟩ = .ok result ⟨1, 4⟩ ∧
      (∀ x, Value.Within x result → x.isPending = false) ∧
      (eval Host.none .empty result).run ⟨1, 4⟩ = .ok result ⟨1, 4⟩ := by
  intro mark keyword two three sum form result
  have hform : form.FunctionFree := by
    have hatom : ∀ a md, (Value.atom a md : Value Empty).FunctionFree := Value.functionFree_atom
    have hempty : (Value.list [] mark).FunctionFree := .of_parts_eq_nil rfl rfl
    have hsum : sum.FunctionFree :=
      .of_parts (by simpa [sum, Value.parts] using ⟨hatom _ _, hatom _ _, hatom _ _⟩) rfl
    exact .of_parts (by
      simpa [form, Value.parts] using ⟨hatom _ _, hsum, hempty, hatom _ _⟩) rfl
  have hvalue : unlimited .standard form = .ok result := by
    have hfind : (Env.standard : Env Empty).find? ⟨"+"⟩ = some (Operator.procedure .add) :=
      Env.find?_standard_eq_some_iff.mpr ⟨.add, rfl, rfl⟩
    have htotal : Operator.add.total (.int 1) [.float two] = three := by decide +kernel
    have hsum : unlimited .standard sum = .ok (.float three) := by
      simp only [sum, unlimited_eq, Value.subforms, Value.symbol, Value.int, Value.float,
        List.mapM_cons, List.mapM_nil, pure_bind, Value.settle, hfind]
      rw [← htotal]
      rfl
    rw [unlimited_eq]
    simp only [form, keyword, Value.subforms, List.mapM_cons, List.mapM_nil, hsum]
    simp only [unlimited_eq, Value.subforms, Value.symbol, List.mapM_nil, pure_bind, Value.settle,
      hfind]
    rfl
  have heval : (eval Host.none .standard form).run ⟨1, 4⟩ = .ok result ⟨1, 4⟩ := by
    have houtcome : outcome .standard (some 4) 1 form = .ok result :=
      outcome_eq_ok_iff.mpr ⟨by decide, hvalue⟩
    rw [run_eval Host.none Env.arithmetic_standard hform, houtcome]
    rfl
  obtain ⟨hnormal, hagain⟩ := eval_idempotent Host.none hform heval
  exact ⟨hform, heval, hnormal, hagain Host.none .empty⟩

end MiniLisp
