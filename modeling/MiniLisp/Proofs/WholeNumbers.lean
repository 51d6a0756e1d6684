import MiniLisp.Proofs.Operands
import MiniLisp.Proofs.Rounding

/-!
# Whole numbers

Integers are computed with as binary64 numbers and come back as integers. Up to `2 ^ 53` every whole
number is a binary64 number, so that sums, differences and products do not have to be rounded as
long as they stay there. A product may be a negative zero, which is the same whole number as the
other zero.

1. `Binary64.isWhole_ofInt`: up to `2 ^ 53` integers are taken over as they are.
2. `Operator.isWhole_compute`: one step is exact if its result is in range.
3. `Operator.reduce_exact`: so is the computation if all its steps are.
-/

namespace MiniLisp

variable {π : Type}

/-! ## Signs -/

namespace WholeNumberLemmas

theorem decide_mul_neg {a b : Int} (ha : a ≠ 0) (hb : b ≠ 0) :
    (decide (a < 0) != decide (b < 0)) = decide (a * b < 0) := by
  rcases Int.lt_or_gt_of_ne ha with ha | ha <;> rcases Int.lt_or_gt_of_ne hb with hb | hb
  · simp [ha, hb, Int.lt_asymm (Int.mul_pos_of_neg_of_neg ha hb)]
  · simp [ha, Int.lt_asymm hb, Int.mul_neg_of_neg_of_pos ha hb]
  · simp [Int.lt_asymm ha, hb, Int.mul_neg_of_pos_of_neg ha hb]
  · simp [Int.lt_asymm ha, Int.lt_asymm hb, Int.lt_asymm (Int.mul_pos ha hb)]

/-- The sign and the absolute value of a quotient without its fraction. -/
theorem tdiv_eq_signed (a b : Int) :
    a.tdiv b = if (decide (a < 0) != decide (b < 0)) then -((a.natAbs / b.natAbs : Nat) : Int)
      else (a.natAbs / b.natAbs : Nat) := by
  cases a <;> cases b <;>
    simp [Int.tdiv, Int.negSucc_lt_zero, Int.not_lt.mpr (Int.natCast_nonneg _)]

end WholeNumberLemmas

open WholeNumberLemmas

namespace Binary64

/-! ## Magnitudes of whole numbers -/

/-- Up to `2 ^ 53` every significand occurs at every scale, if not as it is then doubled at a lower
one. -/
theorem exists_unitsOf_eq {s : Nat} (hs : s ≤ Nat.pow 2 53) (k : Nat) :
    ∃ m ≤ (k + 2) * Nat.pow 2 52, unitsOf m = s * Nat.pow 2 k := by
  have h52 : Nat.pow 2 52 = 4503599627370496 := rfl
  have h53 : Nat.pow 2 53 = 9007199254740992 := rfl
  induction k generalizing s with
  | zero => exact ⟨0 * Nat.pow 2 52 + s, by omega, unitsOf_scaled hs (.inl rfl)⟩
  | succ k ih =>
    rcases Nat.lt_or_ge s (Nat.pow 2 52) with hlow | hhigh
    · obtain ⟨m, hle, hm⟩ := ih (s := 2 * s) (by omega)
      have hsucc : Nat.pow 2 (k + 1) = 2 * Nat.pow 2 k := Nat.pow_succ'
      refine ⟨m, hle.trans (Nat.mul_le_mul_right _ (Nat.add_le_add_right (Nat.le_succ k) 2)), ?_⟩
      rw [hm, hsucc, Nat.mul_comm 2 s, Nat.mul_assoc]
    · refine ⟨(k + 1) * Nat.pow 2 52 + s, ?_, unitsOf_scaled hs (.inr hhigh)⟩
      rw [h52]
      omega

/-- The units of the number one are a power of two. Its exponent is named, since proofs that see it
as a numeral compute the power. -/
theorem exists_unitsPerOne_eq : ∃ k, k = 1074 ∧ unitsPerOne = Nat.pow 2 k := by
  refine ⟨1074, rfl, ?_⟩
  unfold unitsPerOne
  rfl

theorem unitsPerOne_pos : 0 < unitsPerOne := by
  obtain ⟨k, _, hone⟩ := exists_unitsPerOne_eq
  rw [hone]
  exact Nat.two_pow_pos k

/-- Up to `2 ^ 53` every whole number is a magnitude. -/
theorem exists_magnitude {n : Nat} (hn : n ≤ Nat.pow 2 53) :
    ∃ m < infinity, unitsOf m = n * unitsPerOne := by
  obtain ⟨k, hk, hone⟩ := exists_unitsPerOne_eq
  obtain ⟨m, hle, hm⟩ := exists_unitsOf_eq hn k
  refine ⟨m, Nat.lt_of_le_of_lt hle ?_, hone ▸ hm⟩
  rw [hk]
  decide

/-! ## Whole numbers among the binary64 numbers -/

/-- Whether `x` is the whole number `n`. Both zeros are the number zero. -/
structure IsWhole (x : Binary64) (n : Int) : Prop where
  finite : x.isFinite = true
  signedUnits_eq : x.signedUnits = n * unitsPerOne

theorem natAbs_signedUnits (x : Binary64) : x.signedUnits.natAbs = x.units := by
  unfold signedUnits
  split <;> omega

variable {x y : Binary64} {a b : Int}

theorem IsWhole.units_eq (h : x.IsWhole a) : x.units = a.natAbs * unitsPerOne := by
  rw [← natAbs_signedUnits, h.signedUnits_eq, Int.natAbs_mul, Int.natAbs_natCast]

/-- The sign bit is the sign, but for zero. -/
theorem IsWhole.eq_signed (h : x.IsWhole a) :
    a = if x.negative then -(a.natAbs : Int) else a.natAbs := by
  have hne : (unitsPerOne : Int) ≠ 0 := by exact_mod_cast unitsPerOne_pos.ne'
  refine Int.eq_of_mul_eq_mul_right hne ?_
  rw [← h.signedUnits_eq, signedUnits, h.units_eq]
  split
  · rw [Int.natCast_mul, Int.neg_mul]
  · rw [Int.natCast_mul]

theorem IsWhole.negative_eq (h : x.IsWhole a) (ha : a ≠ 0) : x.negative = decide (a < 0) := by
  have hsigned := h.eq_signed
  cases hnegative : x.negative with
  | false =>
    rw [hnegative, if_neg (by decide)] at hsigned
    exact (decide_eq_false (by omega)).symm
  | true =>
    rw [hnegative, if_pos rfl] at hsigned
    exact (decide_eq_true (by omega)).symm

theorem IsWhole.truncate_eq (h : x.IsWhole a) : x.truncate = a := by
  rw [truncate, h.units_eq, Nat.mul_div_cancel _ unitsPerOne_pos]
  exact h.eq_signed.symm

theorem units_ofUnits (negative : Bool) (n d : Nat) :
    (ofUnits negative n d).units = unitsOf (roundUnits n d) := rfl

theorem isFinite_ofUnits {negative : Bool} {n d m : Nat} (h : roundUnits n d ≤ m)
    (hm : m < infinity) : (ofUnits negative n d).isFinite = true :=
  decide_eq_true (Nat.lt_of_le_of_lt h hm)

/-- A result that is a whole number up to `2 ^ 53` is not rounded. -/
theorem isWhole_ofUnits {negative : Bool} {n d : Nat} (hd : 0 < d)
    (hn : n = a.natAbs * unitsPerOne * d) (hbound : a.natAbs ≤ Nat.pow 2 53)
    (hsign : a ≠ 0 → negative = decide (a < 0)) : (ofUnits negative n d).IsWhole a := by
  obtain ⟨m, hlt, hm⟩ := exists_magnitude hbound
  have hround : roundUnits n d = m := roundUnits_eq hd hlt.le (by rw [hn, hm])
  refine ⟨isFinite_ofUnits hround.le hlt, ?_⟩
  rw [signedUnits, units_ofUnits, hround, hm, Int.natCast_mul]
  change (if negative = true then _ else _) = _
  rcases Int.lt_trichotomy a 0 with hneg | rfl | hpos
  · rw [if_pos (by simp [hsign hneg.ne, hneg]), ← Int.neg_mul, Int.ofNat_natAbs_of_nonpos hneg.le,
      Int.neg_neg]
  · rw [Int.natAbs_zero, Int.natCast_zero, Int.zero_mul, Int.neg_zero, ite_self]
  · rw [if_neg (by simp [hsign hpos.ne', hpos.le]), Int.natAbs_of_nonneg hpos.le]

theorem isWhole_ofInt (ha : a.natAbs ≤ Nat.pow 2 53) : (ofInt a).IsWhole a :=
  isWhole_ofUnits Nat.one_pos (Nat.mul_one _).symm ha fun _ => rfl

/-! ## Operations on finite numbers -/

theorem passNaN_eq_none (hx : x.isFinite = true) (hy : y.isFinite = true) : passNaN x y = none := by
  have hx : x.magnitude < infinity := of_decide_eq_true hx
  have hy : y.magnitude < infinity := of_decide_eq_true hy
  simp [passNaN, isNaN, Nat.not_lt.mpr hx.le, Nat.not_lt.mpr hy.le]

theorem isInfinite_eq_false (hx : x.isFinite = true) : x.isInfinite = false :=
  decide_eq_false (of_decide_eq_true hx).ne

theorem add_of_finite (hx : x.isFinite = true) (hy : y.isFinite = true) :
    add x y =
      ofUnits (if x.signedUnits + y.signedUnits = 0 then x.negative && y.negative
        else decide (x.signedUnits + y.signedUnits < 0))
      (x.signedUnits + y.signedUnits).natAbs 1 := by
  simp [add, addNumbers, passNaN_eq_none hx hy, isInfinite_eq_false hx, isInfinite_eq_false hy]

theorem IsWhole.neg (h : x.IsWhole a) : x.neg.IsWhole (-a) := by
  refine ⟨h.finite, ?_⟩
  rw [Int.neg_mul, ← h.signedUnits_eq]
  unfold signedUnits Binary64.neg units
  cases x.negative <;> simp

theorem sub_eq_add_neg (hx : x.isFinite = true) (hy : y.isFinite = true) :
    sub x y = add x y.neg := by
  have hneg : y.neg.isFinite = true := hy
  rw [sub, add, passNaN_eq_none hx hy, passNaN_eq_none hx hneg]

theorem mul_of_finite (hx : x.isFinite = true) (hy : y.isFinite = true) :
    mul x y = ofUnits (x.negative != y.negative) (x.units * y.units) unitsPerOne := by
  simp [mul, mulNumbers, passNaN_eq_none hx hy, isInfinite_eq_false hx, isInfinite_eq_false hy]

theorem IsWhole.add (hx : x.IsWhole a) (hy : y.IsWhole b) (hbound : (a + b).natAbs ≤ Nat.pow 2 53) :
    (Binary64.add x y).IsWhole (a + b) := by
  rw [add_of_finite hx.finite hy.finite, hx.signedUnits_eq, hy.signedUnits_eq, ← Int.add_mul]
  have hpos : 0 < (unitsPerOne : Int) := by exact_mod_cast unitsPerOne_pos
  refine isWhole_ofUnits Nat.one_pos ?_ hbound fun hne => ?_
  · rw [Int.natAbs_mul, Int.natAbs_natCast, Nat.mul_one]
  · rw [if_neg (Int.mul_ne_zero hne hpos.ne')]
    have hiff := Int.mul_lt_mul_right (b := a + b) (c := 0) hpos
    rw [Int.zero_mul] at hiff
    exact decide_eq_decide.mpr hiff

theorem IsWhole.mul (hx : x.IsWhole a) (hy : y.IsWhole b) (hbound : (a * b).natAbs ≤ Nat.pow 2 53) :
    (Binary64.mul x y).IsWhole (a * b) := by
  rw [mul_of_finite hx.finite hy.finite, hx.units_eq, hy.units_eq]
  refine isWhole_ofUnits unitsPerOne_pos ?_ hbound fun hne => ?_
  · rw [Int.natAbs_mul, Nat.mul_mul_mul_comm, ← Nat.mul_assoc]
  · obtain ⟨ha, hb⟩ := Int.mul_ne_zero_iff.mp hne
    rw [hx.negative_eq ha, hy.negative_eq hb, decide_mul_neg ha hb]

end Binary64

/-- Integers between the ends of the range stay as they are. -/
theorem toInt_clampInt64 {n : Int} (hn : n.natAbs ≤ Nat.pow 2 53) : (clampInt64 n).toInt = n := by
  have h53 : Nat.pow 2 53 = 9007199254740992 := rfl
  have hmin : Int64.minValue.toInt = -9223372036854775808 := rfl
  have hmax : Int64.maxValue.toInt = 9223372036854775807 := rfl
  have hclamp : max Int64.minValue.toInt (min Int64.maxValue.toInt n) = n := by omega
  rw [clampInt64, hclamp]
  exact Int64.toInt_ofInt_of_le (by omega) (by omega)

namespace Operator

/-! ## Exact steps -/

/-- The operation on integers without bounds. A quotient loses its fraction. -/
def unbounded : Operator → Int → Int → Int
  | .add => (· + ·)
  | .sub => (· - ·)
  | .mul => (· * ·)
  | .div => Int.tdiv

/-- A step whose result is in range is exact. -/
theorem isWhole_compute {op : Operator} (hop : op ≠ .div) {x y : Binary64} {a b : Int}
    (hx : x.IsWhole a) (hy : y.IsWhole b) (hbound : (op.unbounded a b).natAbs ≤ Nat.pow 2 53) :
    (op.compute x y).IsWhole (op.unbounded a b) := by
  cases op with
  | add => exact hx.add hy hbound
  | sub =>
    have hadd := hx.add hy.neg hbound
    rw [← Binary64.sub_eq_add_neg hx.finite hy.finite] at hadd
    exact hadd
  | mul => exact hx.mul hy hbound
  | div => exact absurd rfl hop

/-- The steps of a computation are exact if all partial results are in range. -/
theorem isWhole_foldl {op : Operator} (hop : op ≠ .div) {others : List Int64} {x : Binary64}
    {a : Int} (hx : x.IsWhole a) (hothers : ∀ n ∈ others, n.toInt.natAbs ≤ Nat.pow 2 53)
    (hpartial : ∀ s ∈ (others.map Int64.toInt).scanl op.unbounded a, s.natAbs ≤ Nat.pow 2 53) :
    (others.foldl (fun x n => op.compute x (.ofInt n.toInt)) x).IsWhole
      ((others.map Int64.toInt).foldl op.unbounded a) := by
  induction others generalizing x a with
  | nil => exact hx
  | cons n others ih =>
    obtain ⟨hn, hothers⟩ := List.forall_mem_cons.mp hothers
    rw [List.map_cons, List.scanl_cons] at hpartial
    obtain ⟨_, hpartial⟩ := List.forall_mem_cons.mp hpartial
    have hnext := hpartial _ (List.head_mem List.scanl_ne_nil)
    rw [List.head_scanl] at hnext
    exact ih (isWhole_compute hop hx (Binary64.isWhole_ofInt hn) hnext) hothers hpartial

/-! ## Integers among the operands -/

/-- What integers are reduced to. -/
theorem reduce_integers (op : Operator) {args : List (Value π)} {first : Int64}
    {others : List Int64}
    (h : args.map Value.number? = (first :: others).map (some ∘ Number.int)) :
    op.reduce args = op.result false
      (others.foldl (fun x n => op.compute x (.ofInt n.toInt)) (.ofInt first.toInt)) := by
  have hnumbers : args.map Value.number? = ((first :: others).map Number.int).map some := by
    rw [h, List.map_map]
  have hany : ((first :: others).map Number.int).any Number.isFloat = false := by
    simp [Number.isFloat]
  rw [List.map_cons] at hnumbers hany
  rw [op.reduce_of_numbers hnumbers, hany, total, List.foldl_map]
  rfl

/-- Integer arithmetic is exact up to `2 ^ 53`.

If neither the operands nor the partial results of a sum, a difference or a product exceed `2 ^ 53`,
then the result is the one that unbounded integers have. -/
theorem reduce_exact {op : Operator} (hop : op ≠ .div) {args : List (Value π)} {first : Int64}
    {others : List Int64}
    (hargs : args.map Value.number? = (first :: others).map (some ∘ Number.int))
    (hoperands : ∀ n ∈ first :: others, n.toInt.natAbs ≤ Nat.pow 2 53)
    (hpartial : ∀ s ∈ (others.map Int64.toInt).scanl op.unbounded first.toInt,
      s.natAbs ≤ Nat.pow 2 53) :
    ∃ n : Int64, op.reduce args = .ok (.int n) ∧
      n.toInt = (others.map Int64.toInt).foldl op.unbounded first.toInt := by
  obtain ⟨hfirst, hothers⟩ := List.forall_mem_cons.mp hoperands
  have htotal := isWhole_foldl hop (Binary64.isWhole_ofInt hfirst) hothers hpartial
  have hbound := hpartial _ (List.getLast_mem List.scanl_ne_nil)
  rw [List.getLast_scanl] at hbound
  refine ⟨_, ?_, toInt_clampInt64 hbound⟩
  rw [op.reduce_integers hargs, result, if_neg Bool.false_ne_true, if_pos htotal.finite,
    htotal.truncate_eq]

/-- The product goes through `-2 ^ 53` to a negative zero. -/
theorem reduce_exact_negative_zero :
    let args : List (Value Empty) :=
      [.atom (.int (-67108864)) (some .nil), .int 134217728, .int 0, .int 5]
    ∃ n : Int64, Operator.mul.reduce args = .ok (.int n) ∧ n.toInt = 0 := by
  intro args
  have hargs : args.map Value.number? =
      [-67108864, 134217728, 0, 5].map (some ∘ Number.int) := rfl
  refine reduce_exact (by decide) hargs ?_ (by decide)
  simp only [List.forall_mem_cons, List.not_mem_nil, false_implies, implies_true, and_true]
  decide

end Operator

end MiniLisp
