import MiniLisp.Proofs.Arithmetic

/-!
# Operands decide the outcome of arithmetic

What kind of outcome an operator has is settled by its operands before anything is computed. Without
operands it fails, and so it does if one of them is no number, whatever stands before that one. With
numbers alone the outcome is a float if one of them is a float, and otherwise an integer, unless the
computation leaves the numbers.

1. `Operator.mapM_operand_of_find?`: the first operand that is no number is the one reported.
2. `Operator.reduce_of_numbers`: what numbers are reduced to.
3. `Operator.reduce_outcome`: all of it.
-/

namespace MiniLisp

variable {π : Type}

/-! ## Numbers among values -/

/-- The number that a value is, if it is one. -/
def Value.number? : Value π → Option Number
  | .atom (.int n) _ => some (.int n)
  | .atom (.float x) _ => some (.float x)
  | _ => none

theorem Value.exists_number? {x : Value π} (h : x.isNumber = true) : ∃ n, x.number? = some n := by
  obtain ⟨n, md, rfl⟩ | ⟨y, md, rfl⟩ := isNumber_cases h
  · exact ⟨_, rfl⟩
  · exact ⟨_, rfl⟩

theorem Value.exists_numbers {args : List (Value π)} (h : ∀ x ∈ args, x.isNumber = true) :
    ∃ numbers : List Number, args.map Value.number? = numbers.map some := by
  induction args with
  | nil => exact ⟨[], rfl⟩
  | cons x args ih =>
    obtain ⟨hx, hargs⟩ := List.forall_mem_cons.mp h
    obtain ⟨n, hn⟩ := exists_number? hx
    obtain ⟨numbers, hnumbers⟩ := ih hargs
    exact ⟨n :: numbers, by rw [List.map_cons, hn, hnumbers, List.map_cons]⟩

namespace Operator

/-! ## Looking at the operands -/

theorem operand_of_number? (op : Operator) {x : Value π} {n : Number} (h : x.number? = some n) :
    op.operand x = .ok n := by
  unfold Value.number? at h
  split at h
  · cases h
    rfl
  · cases h
    rfl
  · cases h

theorem operand_of_isNumber_eq_false (op : Operator) {x : Value π} (h : x.isNumber = false) :
    op.operand x = .error (.notANumber op.name x.kind) := by
  obtain ⟨hnumber, _⟩ | ⟨_, hoperand⟩ := op.operand_cases x
  · rw [hnumber] at h
    cases h
  · exact hoperand

theorem mapM_operand_of_numbers (op : Operator) {args : List (Value π)} {numbers : List Number}
    (h : args.map Value.number? = numbers.map some) : args.mapM op.operand = .ok numbers := by
  rw [mapM_eq_ok_iff]
  induction args generalizing numbers with
  | nil =>
    cases numbers with
    | nil => exact .nil
    | cons _ _ => cases h
  | cons x args ih =>
    cases numbers with
    | nil => cases h
    | cons n numbers =>
      obtain ⟨hx, hargs⟩ := List.cons.inj h
      exact .cons (op.operand_of_number? hx) (ih hargs)

/-- The first operand that is no number is the one reported. -/
theorem mapM_operand_of_find? (op : Operator) {args : List (Value π)} {x : Value π}
    (h : args.find? (fun x => !x.isNumber) = some x) :
    args.mapM op.operand = .error (.notANumber op.name x.kind) := by
  induction args with
  | nil => cases h
  | cons y args ih =>
    rw [List.mapM_cons, bind_eq_error_iff]
    cases hy : y.isNumber with
    | false =>
      rw [List.find?_cons_of_pos (by simp [hy])] at h
      cases h
      exact .inl (op.operand_of_isNumber_eq_false hy)
    | true =>
      rw [List.find?_cons_of_neg (by simp [hy])] at h
      obtain ⟨n, hn⟩ := Value.exists_number? hy
      refine .inr ⟨n, op.operand_of_number? hn, ?_⟩
      rw [bind_eq_error_iff]
      exact .inl (ih h)

/-! ## Reducing them -/

theorem reduce_of_find? (op : Operator) {args : List (Value π)} {x : Value π}
    (h : args.find? (fun x => !x.isNumber) = some x) :
    op.reduce args = .error (.notANumber op.name x.kind) := by
  unfold reduce
  rw [op.mapM_operand_of_find? h]
  rfl

theorem reduce_of_numbers (op : Operator) {args : List (Value π)} {first : Number}
    {others : List Number} (h : args.map Value.number? = (first :: others).map some) :
    op.reduce args = op.result ((first :: others).any Number.isFloat) (op.total first others) := by
  unfold reduce
  rw [op.mapM_operand_of_numbers h]
  rfl

/-- The fold over the operands is one over the numbers that are computed with. -/
theorem total_eq_foldl (op : Operator) (first : Number) (others : List Number) :
    op.total first others =
      (others.map Number.toBinary64).foldl op.compute first.toBinary64 := by
  rw [List.foldl_map]
  rfl

/-- The reasons for which an operator fails. -/
theorem reduce_eq_error_cases {op : Operator} {args : List (Value π)} {e : EvalError}
    (h : op.reduce args = .error e) :
    (args = [] ∧ e = .emptyArguments op.name) ∨
      (∃ x, args.find? (fun x => !x.isNumber) = some x ∧ e = .notANumber op.name x.kind) ∨
      e = op.nonFinite := by
  cases hfind : args.find? (fun x => !x.isNumber) with
  | some x =>
    rw [op.reduce_of_find? hfind] at h
    cases h
    exact .inr (.inl ⟨x, rfl, rfl⟩)
  | none =>
    obtain ⟨numbers, hnumbers⟩ := Value.exists_numbers (by simpa using hfind)
    cases numbers with
    | nil =>
      obtain rfl := List.map_eq_nil_iff.mp hnumbers
      cases h
      exact .inl ⟨rfl, rfl⟩
    | cons first others =>
      rw [op.reduce_of_numbers hnumbers] at h
      obtain ⟨value, hvalue, _⟩ | herror := op.result_cases (π := π) _ (op.total first others)
      · rw [hvalue] at h
        cases h
      · rw [herror] at h
        cases h
        exact .inr (.inr rfl)

theorem reduce_eq_emptyArguments_iff {op : Operator} {args : List (Value π)} {function : String} :
    op.reduce args = .error (.emptyArguments function) ↔ args = [] ∧ function = op.name := by
  constructor
  · intro h
    obtain ⟨hargs, he⟩ | ⟨_, _, he⟩ | he := reduce_eq_error_cases h
    · cases he
      exact ⟨hargs, rfl⟩
    · cases he
    · exact absurd (he ▸ op.numeric_nonFinite) (by rintro ⟨⟩)
  · rintro ⟨rfl, rfl⟩
    rfl

theorem reduce_eq_notANumber_iff {op : Operator} {args : List (Value π)} {function : String}
    {kind : Kind} :
    op.reduce args = .error (.notANumber function kind) ↔
      function = op.name ∧ ∃ x, args.find? (fun x => !x.isNumber) = some x ∧ kind = x.kind := by
  constructor
  · intro h
    obtain ⟨_, he⟩ | ⟨x, hfind, he⟩ | he := reduce_eq_error_cases h
    · cases he
    · cases he
      exact ⟨rfl, x, hfind, rfl⟩
    · exact absurd (he ▸ op.numeric_nonFinite) (by rintro ⟨⟩)
  · rintro ⟨rfl, x, hfind, rfl⟩
    exact op.reduce_of_find? hfind

theorem eq_nonFinite_of_reduce {op : Operator} {args : List (Value π)} {e : EvalError}
    (hnumeric : e.Numeric) (h : op.reduce args = .error e) : e = op.nonFinite := by
  obtain ⟨_, rfl⟩ | ⟨_, _, rfl⟩ | he := reduce_eq_error_cases h
  · cases hnumeric
  · cases hnumeric
  · exact he

/-! ## The outcome -/

/-- The operands decide what kind of outcome an operator has.

It lacks arguments if there are none. It reports the first operand that is no number, if there is
one, whatever the operands before it come to. Otherwise the numbers are taken as binary64 numbers
and combined from the left. With a float among them the result is a float, without metadata. With
integers alone it is an integer if the computation ends in a finite number; if not, a quotient
reports a division by zero and the others an overflow, and neither ever the other's error. -/
theorem reduce_outcome (op : Operator) (args : List (Value π)) :
    (∀ function, op.reduce args = .error (.emptyArguments function) ↔
        args = [] ∧ function = op.name) ∧
      (∀ function kind, op.reduce args = .error (.notANumber function kind) ↔
        function = op.name ∧
          ∃ x, args.find? (fun x => !x.isNumber) = some x ∧ kind = x.kind) ∧
      (args ≠ [] → (∀ x ∈ args, x.isNumber = true) →
        ∃ first others, args.map Value.number? = (first :: others).map some ∧
          let total := (others.map Number.toBinary64).foldl op.compute first.toBinary64
          ((∃ x, .float x ∈ first :: others) → op.reduce args = .ok (.float total)) ∧
            ((∀ number ∈ first :: others, ∃ n, number = .int n) →
              (total.isFinite = true →
                op.reduce args = .ok (.int (clampInt64 total.truncate))) ∧
              (total.isFinite = false →
                op.reduce args = .error (if op = .div then .divisionByZero op.name
                  else .integerOverflow op.name)))) ∧
      (∀ function, op.reduce args = .error (.divisionByZero function) → op = .div) ∧
      ∀ function, op.reduce args = .error (.integerOverflow function) → op ≠ .div := by
  refine ⟨fun _ => reduce_eq_emptyArguments_iff, fun _ _ => reduce_eq_notANumber_iff, ?_, ?_, ?_⟩
  · intro hne hnumbers
    obtain ⟨numbers, hmap⟩ := Value.exists_numbers hnumbers
    cases numbers with
    | nil => exact absurd (List.map_eq_nil_iff.mp hmap) hne
    | cons first others =>
      refine ⟨first, others, hmap, ?_⟩
      rw [op.reduce_of_numbers hmap, result, total_eq_foldl]
      constructor
      · rintro ⟨x, hmem⟩
        exact if_pos (List.any_eq_true.mpr ⟨_, hmem, rfl⟩)
      · intro hints
        have hany : ¬(first :: others).any Number.isFloat = true := by
          rw [List.any_eq_true]
          rintro ⟨number, hmem, hfloat⟩
          obtain ⟨n, rfl⟩ := hints number hmem
          cases hfloat
        rw [if_neg hany]
        exact ⟨fun hfinite => if_pos hfinite, fun hfinite => if_neg (by simp [hfinite])⟩
  · intro function h
    have he := eq_nonFinite_of_reduce (.divisionByZero function) h
    by_contra hop
    rw [nonFinite, if_neg hop] at he
    cases he
  · intro function h hop
    have he := eq_nonFinite_of_reduce (.integerOverflow function) h
    rw [nonFinite, if_pos hop] at he
    cases he

/-- A divisor that is zero stands before two operands that are no numbers. -/
theorem reduce_outcome_late_operand :
    Operator.div.reduce [.int 1, .int 0, .atom (.string "2") (some .unit), .nil] =
      (.error (.notANumber "/" .string) : Except EvalError (Value Empty)) :=
  ((reduce_outcome .div _).2.1 _ _).mpr ⟨rfl, _, rfl, rfl⟩

end Operator

end MiniLisp
