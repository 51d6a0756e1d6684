import MiniLisp.Proofs.WholeNumbers

/-!
# Quotients of integers

A divisor is never tested for zero. A quotient of finite numbers is infinite or a NaN if the divisor
is zero, stays so from there on, and is finite if the divisor is at least one, since it is then no
greater than the dividend. So the end of a computation tells whether there was a zero among the
divisors.

A quotient is rounded before its fraction is cut off. Up to `2 ^ 53` this makes no difference: what
is missing to the next whole number is more than half a step there.

1. `Operator.isFinite_foldl_div`: a quotient of integers is finite if no divisor is zero.
2. `Operator.reduce_div_integers`: a zero divisor is always found.
3. `Binary64.IsWhole.truncate_div`: rounding does not change the whole part of a quotient.
4. `Operator.reduce_div_truncates`: the quotient of two integers.
-/

namespace MiniLisp

open WholeNumberLemmas

variable {π : Type}

namespace Binary64

variable {x y : Binary64} {a b : Int}

/-! ## Divisors -/

/-- An integer of 64 bits is finite as a binary64 number. It is at most `2 ^ 53 * 2 ^ 10`, which is a
magnitude. -/
theorem isFinite_ofInt (n : Int64) : (ofInt n.toInt).isFinite = true := by
  obtain ⟨k, hk, hone⟩ := exists_unitsPerOne_eq
  obtain ⟨m, hle, hm⟩ := exists_unitsOf_eq (Nat.le_refl (Nat.pow 2 53)) (10 + k)
  have hlt : m < infinity := by
    refine Nat.lt_of_le_of_lt hle ?_
    rw [hk]
    decide
  have hbound : n.toInt.natAbs ≤ Nat.pow 2 53 * Nat.pow 2 10 := by
    have hlower := n.le_toInt
    have hupper := n.toInt_lt
    have hpow : Nat.pow 2 53 * Nat.pow 2 10 = 9223372036854775808 := rfl
    omega
  have hadd : Nat.pow 2 (10 + k) = Nat.pow 2 10 * Nat.pow 2 k := Nat.pow_add 2 10 k
  refine isFinite_ofUnits (roundUnits_le Nat.one_pos ?_) hlt
  rw [Nat.mul_one, hm, hone, hadd, ← Nat.mul_assoc]
  exact Nat.mul_le_mul_right _ hbound

theorem isZero_ofInt_zero : (ofInt 0).isZero = true := by
  have hround : roundUnits ((0 : Int).natAbs * unitsPerOne) 1 = 0 :=
    roundUnits_eq Nat.one_pos (Nat.zero_le _) (by simp [unitsOf])
  exact decide_eq_true hround

/-- An integer other than zero is at least one as a binary64 number, rounded or not. -/
theorem unitsPerOne_le_units_ofInt (ha : a ≠ 0) : unitsPerOne ≤ (ofInt a).units := by
  obtain ⟨m, hlt, hm⟩ := exists_magnitude (n := 1) (by decide)
  rw [Nat.one_mul] at hm
  rw [← hm]
  refine unitsOf_strictMono.monotone (le_roundUnits Nat.one_pos hlt.le ?_)
  rw [hm, Nat.mul_one]
  exact Nat.le_mul_of_pos_left _ (Int.natAbs_pos.mpr ha)

theorem isZero_eq_false (h : 0 < y.units) : y.isZero = false := by
  refine decide_eq_false fun hzero => ?_
  rw [units, hzero] at h
  exact absurd h (by decide)

/-! ## Finite and other quotients -/

theorem div_of_finite (hx : x.isFinite = true) (hy : y.isFinite = true) (hzero : y.isZero = false) :
    div x y = ofUnits (x.negative != y.negative) (x.units * unitsPerOne) y.units := by
  simp [div, divNumbers, passNaN_eq_none hx hy, isInfinite_eq_false hx, isInfinite_eq_false hy,
    hzero]

/-- A quotient by one or more is no greater than the dividend. -/
theorem isFinite_div (hx : x.isFinite = true) (hy : y.isFinite = true)
    (hone : unitsPerOne ≤ y.units) : (div x y).isFinite = true := by
  have hpos : 0 < y.units := unitsPerOne_pos.trans_le hone
  rw [div_of_finite hx hy (isZero_eq_false hpos)]
  exact isFinite_ofUnits (roundUnits_le hpos (Nat.mul_le_mul_left _ hone)) (of_decide_eq_true hx)

theorem isFinite_div_of_isZero (hx : x.isFinite = true) (hy : y.isFinite = true)
    (hzero : y.isZero = true) : (div x y).isFinite = false := by
  rw [div, passNaN_eq_none hx hy, Option.getD_none, divNumbers]
  simp only [isInfinite_eq_false hx, isInfinite_eq_false hy, hzero, Bool.false_eq_true, ↓reduceIte]
  split <;> rfl

/-- What is infinite or a NaN stays so, whichever finite number it is divided by. -/
theorem isFinite_div_of_not_finite (hx : x.isFinite = false) (hy : y.isFinite = true) :
    (div x y).isFinite = false := by
  have hlt : y.magnitude < infinity := of_decide_eq_true hy
  rcases Nat.lt_or_eq_of_le (Nat.le_of_not_lt (of_decide_eq_false hx)) with hnan | hinfinite
  · have hpass : passNaN x y = some x.quiet := if_pos (decide_eq_true hnan)
    have hquiet : infinity ≤ x.quiet.magnitude :=
      (Nat.le_add_right _ _).trans (Nat.le_add_right _ _)
    rw [div, hpass]
    exact decide_eq_false (Nat.not_lt.mpr hquiet)
  · have hpass : passNaN x y = none := by
      simp [passNaN, isNaN, ← hinfinite, Nat.not_lt.mpr hlt.le]
    have hx : x.isInfinite = true := decide_eq_true hinfinite.symm
    rw [div, hpass, Option.getD_none, divNumbers, if_pos hx, isInfinite_eq_false hy]
    rfl

/-- One division by an integer. -/
theorem isFinite_div_ofInt {n : Int64} :
    (div x (ofInt n.toInt)).isFinite = true ↔ x.isFinite = true ∧ n ≠ 0 := by
  have hdivisor := isFinite_ofInt n
  constructor
  · intro h
    cases hx : x.isFinite with
    | false =>
      rw [isFinite_div_of_not_finite hx hdivisor] at h
      cases h
    | true =>
      refine ⟨rfl, ?_⟩
      rintro rfl
      rw [isFinite_div_of_isZero hx hdivisor isZero_ofInt_zero] at h
      cases h
  · rintro ⟨hx, hn⟩
    exact isFinite_div hx hdivisor (unitsPerOne_le_units_ofInt fun h => hn (Int64.toInt_inj.mp h))

/-! ## Whole parts of quotients -/

/-- The units of the quotient of two whole numbers, as it is rounded. -/
def quotientUnits (n d : Nat) : Nat :=
  unitsOf (roundUnits (n * unitsPerOne * unitsPerOne) (d * unitsPerOne))

variable {n d : Nat}

theorem le_quotientUnits (hd : 0 < d) (hn : n ≤ Nat.pow 2 53) :
    n / d * unitsPerOne ≤ quotientUnits n d := by
  obtain ⟨m, hlt, hm⟩ := exists_magnitude ((Nat.div_le_self n d).trans hn)
  rw [← hm]
  refine unitsOf_strictMono.monotone (le_roundUnits (Nat.mul_pos hd unitsPerOne_pos) hlt.le ?_)
  rw [hm, Nat.mul_mul_mul_comm, Nat.mul_assoc n]
  exact Nat.mul_le_mul_right _ (Nat.div_mul_le_self n d)

/-- The magnitude of a whole number other than zero is above `2 ^ 52`. -/
theorem pow_lt_of_unitsOf_eq {c m : Nat} (hc : 0 < c) (hm : unitsOf m = c * unitsPerOne) :
    Nat.pow 2 52 < m := by
  obtain ⟨k, hk, hone⟩ := exists_unitsPerOne_eq
  have hlow : unitsOf (Nat.pow 2 52) = Nat.pow 2 52 := by decide
  refine unitsOf_strictMono.lt_iff_lt.mp ?_
  rw [hlow, hm, hone]
  calc Nat.pow 2 52
    _ < Nat.pow 2 k := Nat.pow_lt_pow_right (by decide) (by omega)
    _ ≤ c * Nat.pow 2 k := Nat.le_mul_of_pos_left _ hc

/-- Up to `2 ^ 53` a whole number is below any greater one by more than the part
`1 / (2 ^ 53 + 2)` of that one. -/
theorem relative_gap {e : Nat} (hn : n ≤ Nat.pow 2 53) (h : n < e) :
    (Nat.pow 2 53 + 2) * n < (Nat.pow 2 53 + 1) * e := by
  have h53 : Nat.pow 2 53 = 9007199254740992 := rfl
  rw [h53] at hn ⊢
  omega

/-- A quotient is not rounded up to a whole number that it is less than. -/
theorem quotientUnits_lt_of_lt {c : Nat} (hd : 0 < d) (hn : n ≤ Nat.pow 2 53)
    (hc : c ≤ Nat.pow 2 53) (h : n < c * d) : quotientUnits n d < c * unitsPerOne := by
  obtain ⟨m, _, hm⟩ := exists_magnitude hc
  have hpos : 0 < c := Nat.pos_of_mul_pos_right (Nat.zero_lt_of_lt h)
  rw [← hm]
  refine unitsOf_strictMono (roundUnits_lt_of_mul_lt (Nat.mul_pos hd unitsPerOne_pos)
    (pow_lt_of_unitsOf_eq hpos hm) ?_)
  have hgap := relative_gap hn h
  have hone := unitsPerOne_pos
  rw [hm]
  generalize unitsPerOne = one at hone ⊢
  rw [Nat.mul_mul_mul_comm, Nat.mul_assoc n, ← Nat.mul_assoc (Nat.pow 2 53 + 2),
    ← Nat.mul_assoc (Nat.pow 2 53 + 1)]
  exact Nat.mul_lt_mul_of_pos_right hgap (Nat.mul_pos hone hone)

theorem quotientUnits_of_dvd (hd : 0 < d) (hn : n ≤ Nat.pow 2 53) (hdvd : d ∣ n) :
    quotientUnits n d = n / d * unitsPerOne := by
  obtain ⟨m, hlt, hm⟩ := exists_magnitude ((Nat.div_le_self n d).trans hn)
  rw [quotientUnits, ← hm]
  refine congrArg unitsOf (roundUnits_eq (Nat.mul_pos hd unitsPerOne_pos) hlt.le ?_)
  rw [hm, Nat.mul_mul_mul_comm, Nat.div_mul_cancel hdvd, Nat.mul_assoc]

/-- Rounding does not change the whole part of a quotient. -/
theorem quotientUnits_div (hd : 0 < d) (hn : n ≤ Nat.pow 2 53) :
    quotientUnits n d / unitsPerOne = n / d := by
  by_cases hdvd : d ∣ n
  · rw [quotientUnits_of_dvd hd hn hdvd, Nat.mul_div_cancel _ unitsPerOne_pos]
  · -- The whole number after the quotient is at most `n`, so it is a magnitude as well.
    have hne : n / d * d ≠ n := fun h => hdvd ⟨n / d, by rw [Nat.mul_comm, h]⟩
    have hnext : n / d + 1 ≤ n :=
      calc n / d + 1
        _ ≤ n / d * d + 1 := Nat.succ_le_succ (Nat.le_mul_of_pos_right _ hd)
        _ ≤ n := Nat.lt_of_le_of_ne (Nat.div_mul_le_self n d) hne
    have hlt : n < (n / d + 1) * d := (Nat.div_lt_iff_lt_mul hd).mp (Nat.lt_succ_self _)
    exact Nat.div_eq_of_lt_le (le_quotientUnits hd hn)
      (quotientUnits_lt_of_lt hd hn (hnext.trans hn) hlt)

/-- The quotient of two whole numbers is finite, and without its fraction it is the exact one. -/
theorem IsWhole.truncate_div (hx : x.IsWhole a) (hy : y.IsWhole b) (ha : a.natAbs ≤ Nat.pow 2 53)
    (hb : b ≠ 0) : (div x y).isFinite = true ∧ (div x y).truncate = a.tdiv b := by
  have hpos : 0 < b.natAbs := Int.natAbs_pos.mpr hb
  have hone : unitsPerOne ≤ y.units := by
    rw [hy.units_eq]
    exact Nat.le_mul_of_pos_left _ hpos
  have hnonzero : y.isZero = false := isZero_eq_false (unitsPerOne_pos.trans_le hone)
  refine ⟨isFinite_div hx.finite hy.finite hone, ?_⟩
  rw [div_of_finite hx.finite hy.finite hnonzero, truncate, units_ofUnits, hx.units_eq,
    hy.units_eq, ← quotientUnits, quotientUnits_div hpos ha, tdiv_eq_signed]
  by_cases hzero : a = 0
  · simp [hzero]
  · rw [← hx.negative_eq hzero, ← hy.negative_eq hb]
    rfl

end Binary64

namespace Operator

/-! ## Division by zero -/

/-- A quotient of integers is finite if no divisor is zero. -/
theorem isFinite_foldl_div {x : Binary64} {divisors : List Int64} :
    (divisors.foldl (fun x n => Operator.div.compute x (.ofInt n.toInt)) x).isFinite = true ↔
      x.isFinite = true ∧ 0 ∉ divisors := by
  induction divisors generalizing x with
  | nil => simp
  | cons n divisors ih =>
    have hstep : (Operator.div.compute x (.ofInt n.toInt)).isFinite = true ↔
        x.isFinite = true ∧ n ≠ 0 := Binary64.isFinite_div_ofInt
    rw [List.foldl_cons, ih, hstep, List.mem_cons, not_or, and_assoc, ne_comm]

/-- A quotient of integers reports a division by zero if there is a zero among the divisors,
wherever it stands, and is an integer if there is none. -/
theorem reduce_div_integers {args : List (Value π)} {first : Int64} {divisors : List Int64}
    (hargs : args.map Value.number? = (first :: divisors).map (some ∘ Number.int)) :
    (0 ∈ divisors → Operator.div.reduce args = .error (.divisionByZero "/")) ∧
      (0 ∉ divisors → ∃ n, Operator.div.reduce args = .ok (.int n)) := by
  rw [Operator.div.reduce_integers hargs, result, if_neg Bool.false_ne_true]
  constructor
  · intro hzero
    exact if_neg fun h => (isFinite_foldl_div.mp h).2 hzero
  · intro hzero
    exact ⟨_, if_pos (isFinite_foldl_div.mpr ⟨Binary64.isFinite_ofInt first, hzero⟩)⟩

/-- A zero that another divisor follows, and a quotient less than one. -/
theorem reduce_div_integers_followed :
    Operator.div.reduce [.int 0, .atom (.int 0) (some .nil), .int 2] =
        (.error (.divisionByZero "/") : Except EvalError (Value Empty)) ∧
      ∃ n, Operator.div.reduce [.int (-3), .int 4611686018427387904] =
        (.ok (.int n) : Except EvalError (Value Empty)) := by
  have hzero : [.int 0, .atom (.int 0) (some .nil), .int 2].map (Value.number? (π := Empty)) =
      [0, 0, 2].map (some ∘ Number.int) := rfl
  have hnone : [.int (-3), .int 4611686018427387904].map (Value.number? (π := Empty)) =
      [-3, 4611686018427387904].map (some ∘ Number.int) := rfl
  exact ⟨(reduce_div_integers hzero).1 (by decide), (reduce_div_integers hnone).2 (by decide)⟩

/-! ## Truncation -/

/-- The quotient of two integers up to `2 ^ 53` is the exact one without its fraction. -/
theorem reduce_div_truncates {args : List (Value π)} {a b : Int64}
    (hargs : args.map Value.number? = [a, b].map (some ∘ Number.int))
    (ha : a.toInt.natAbs ≤ Nat.pow 2 53) (hb : b.toInt.natAbs ≤ Nat.pow 2 53)
    (hpos : 0 < b.toInt.natAbs) :
    ∃ n : Int64, Operator.div.reduce args = .ok (.int n) ∧ n.toInt = a.toInt.tdiv b.toInt := by
  obtain ⟨hfinite, htruncate⟩ := (Binary64.isWhole_ofInt ha).truncate_div
    (Binary64.isWhole_ofInt hb) ha (Int.natAbs_pos.mp hpos)
  have hbound : (a.toInt.tdiv b.toInt).natAbs ≤ Nat.pow 2 53 := by
    rw [Int.natAbs_tdiv]
    exact (Nat.div_le_self _ _).trans ha
  refine ⟨_, ?_, toInt_clampInt64 hbound⟩
  rw [Operator.div.reduce_integers hargs, result, if_neg Bool.false_ne_true, List.foldl_cons,
    List.foldl_nil, compute, if_pos hfinite, htruncate]

/-- The quotient lacks a third to the next whole number, where a step is a half. -/
theorem reduce_div_truncates_third :
    ∃ n : Int64, Operator.div.reduce [.int 9007199254740992, .int (-3)] =
        (.ok (.int n) : Except EvalError (Value Empty)) ∧ n.toInt = -3002399751580330 := by
  have hargs : [.int 9007199254740992, .int (-3)].map (Value.number? (π := Empty)) =
      [9007199254740992, -3].map (some ∘ Number.int) := rfl
  exact reduce_div_truncates hargs (by decide) (by decide) (by decide)

end Operator

end MiniLisp
