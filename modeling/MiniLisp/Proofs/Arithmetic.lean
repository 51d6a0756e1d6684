import Mathlib.Data.List.Forall2
import MiniLisp.Eval.Arithmetic

/-!
# What arithmetic comes to

The operands of an operator are looked at first and computed with afterwards. So an operator can
come to no more than what `Operator.reduce_cases` lists: it has no operands, one of them is no
number, or they are all numbers and the result is a number unless the computation leaves the
numbers.
-/

namespace MiniLisp

variable {π : Type}

/-! ## Steps that may fail -/

section

variable {ε α β : Type}

theorem bind_eq_ok_iff {first : Except ε α} {next : α → Except ε β} {y : β} :
    first >>= next = .ok y ↔ ∃ x, first = .ok x ∧ next x = .ok y := by
  cases first <;> simp [bind, Except.bind]

theorem bind_eq_error_iff {first : Except ε α} {next : α → Except ε β} {e : ε} :
    first >>= next = .error e ↔ first = .error e ∨ ∃ x, first = .ok x ∧ next x = .error e := by
  cases first <;> simp [bind, Except.bind]

theorem mapM_eq_ok_iff {f : α → Except ε β} {xs : List α} {ys : List β} :
    xs.mapM f = .ok ys ↔ List.Forall₂ (fun x y => f x = .ok y) xs ys := by
  induction xs generalizing ys with
  | nil => simp [pure, Except.pure, eq_comm]
  | cons x xs ih =>
    simp only [List.mapM_cons, bind_eq_ok_iff, ih, List.forall₂_cons_left_iff]
    constructor
    · rintro ⟨y, hy, others, hothers, ⟨⟩⟩
      exact ⟨y, others, hy, hothers, rfl⟩
    · rintro ⟨y, others, hy, hothers, rfl⟩
      exact ⟨y, hy, others, hothers, rfl⟩

/-- The results of a sequence are those of its members. -/
theorem exists_of_mapM_eq_ok {f : α → Except ε β} {xs : List α} {ys : List β}
    (h : xs.mapM f = .ok ys) :
    (∀ x ∈ xs, ∃ y ∈ ys, f x = .ok y) ∧ ∀ y ∈ ys, ∃ x ∈ xs, f x = .ok y := by
  have hforall := mapM_eq_ok_iff.mp h
  clear h
  induction hforall with
  | nil => exact ⟨List.forall_mem_nil _, List.forall_mem_nil _⟩
  | @cons x y _ _ hfirst _ ih =>
    refine ⟨List.forall_mem_cons.mpr ⟨⟨y, List.mem_cons_self, hfirst⟩, ?_⟩,
      List.forall_mem_cons.mpr ⟨⟨x, List.mem_cons_self, hfirst⟩, ?_⟩⟩
    · intro other hother
      obtain ⟨result, hresult, hf⟩ := ih.1 other hother
      exact ⟨result, List.mem_cons_of_mem y hresult, hf⟩
    · intro result hresult
      obtain ⟨other, hother, hf⟩ := ih.2 result hresult
      exact ⟨other, List.mem_cons_of_mem x hother, hf⟩

/-- If a sequence fails, it is with the error of one of its members. -/
theorem exists_of_mapM_eq_error {f : α → Except ε β} {xs : List α} {e : ε}
    (h : xs.mapM f = .error e) : ∃ x ∈ xs, f x = .error e := by
  induction xs with
  | nil => cases h
  | cons x xs ih =>
    simp only [List.mapM_cons, bind_eq_error_iff] at h
    rcases h with hx | ⟨y, _, hxs | ⟨others, _, hpure⟩⟩
    · exact ⟨x, List.mem_cons_self, hx⟩
    · obtain ⟨failed, hmem, hfailed⟩ := ih hxs
      exact ⟨failed, List.mem_cons_of_mem x hmem, hfailed⟩
    · cases hpure

end

/-! ## Operands -/

/-- Whether the value is an integer or a float. -/
def Value.isNumber : Value π → Bool
  | .atom (.int _) _ => true
  | .atom (.float _) _ => true
  | _ => false

theorem Value.isNumber_cases {x : Value π} (h : x.isNumber = true) :
    (∃ n md, x = .atom (.int n) md) ∨ ∃ y md, x = .atom (.float y) md := by
  unfold isNumber at h
  split at h
  · exact .inl ⟨_, _, rfl⟩
  · exact .inr ⟨_, _, rfl⟩
  · cases h

/-- The errors of a computation that leaves the numbers. -/
inductive EvalError.Numeric : EvalError → Prop
  | divisionByZero (function : String) : Numeric (.divisionByZero function)
  | integerOverflow (function : String) : Numeric (.integerOverflow function)

namespace Operator

theorem numeric_nonFinite (op : Operator) : op.nonFinite.Numeric := by
  unfold nonFinite
  split
  · exact .divisionByZero _
  · exact .integerOverflow _

theorem operand_cases (op : Operator) (x : Value π) :
    (x.isNumber = true ∧ ∃ n, op.operand x = .ok n) ∨
      (x.isNumber = false ∧ op.operand x = .error (.notANumber op.name x.kind)) := by
  unfold operand
  split
  · exact .inl ⟨rfl, _, rfl⟩
  · exact .inl ⟨rfl, _, rfl⟩
  · next hint hfloat =>
    refine .inr ⟨?_, rfl⟩
    unfold Value.isNumber
    split
    · exact absurd rfl (hint _ _)
    · exact absurd rfl (hfloat _ _)
    · rfl

theorem result_cases (op : Operator) (anyFloat : Bool) (x : Binary64) :
    (∃ value : Value π, op.result anyFloat x = .ok value ∧ value.isNumber = true) ∨
      (op.result anyFloat x : Except EvalError (Value π)) = .error op.nonFinite := by
  unfold result
  split
  · exact .inl ⟨_, rfl, rfl⟩
  · split
    · exact .inl ⟨_, rfl, rfl⟩
    · exact .inr rfl

/-- All that the application of an operator can come to. -/
theorem reduce_cases (op : Operator) (args : List (Value π)) :
    (args = [] ∧ op.reduce args = .error (.emptyArguments op.name)) ∨
      (∃ x ∈ args, x.isNumber = false ∧ op.reduce args = .error (.notANumber op.name x.kind)) ∨
      (args ≠ [] ∧ (∀ x ∈ args, x.isNumber = true) ∧
        ((∃ value, op.reduce args = .ok value ∧ value.isNumber = true) ∨
          op.reduce args = .error op.nonFinite)) := by
  unfold reduce
  cases hoperands : args.mapM op.operand with
  | error e =>
    obtain ⟨x, hmem, hx⟩ := exists_of_mapM_eq_error hoperands
    obtain ⟨_, n, hn⟩ | ⟨hnumber, hkind⟩ := op.operand_cases x
    · rw [hn] at hx
      cases hx
    · rw [hkind] at hx
      cases hx
      exact .inr (.inl ⟨x, hmem, hnumber, rfl⟩)
  | ok operands =>
    have hnumbers : ∀ x ∈ args, x.isNumber = true := by
      intro x hmem
      obtain ⟨n, _, hn⟩ := (exists_of_mapM_eq_ok hoperands).1 x hmem
      obtain ⟨hnumber, _⟩ | ⟨_, hkind⟩ := op.operand_cases x
      · exact hnumber
      · rw [hkind] at hn
        cases hn
    cases mapM_eq_ok_iff.mp hoperands with
    | nil => exact .inl ⟨rfl, rfl⟩
    | cons _ _ =>
      exact .inr (.inr ⟨List.cons_ne_nil _ _, hnumbers, op.result_cases _ _⟩)

theorem numbers_of_reduce_eq_ok {op : Operator} {args : List (Value π)} {value : Value π}
    (h : op.reduce args = .ok value) :
    args ≠ [] ∧ (∀ x ∈ args, x.isNumber = true) ∧ value.isNumber = true := by
  obtain ⟨_, hreduce⟩ | ⟨_, _, _, hreduce⟩ | ⟨hne, hnumbers, ⟨_, hreduce, hnumber⟩ | hreduce⟩ :=
    op.reduce_cases args
  · rw [hreduce] at h
    cases h
  · rw [hreduce] at h
    cases h
  · rw [hreduce] at h
    cases h
    exact ⟨hne, hnumbers, hnumber⟩
  · rw [hreduce] at h
    cases h

end Operator

end MiniLisp
