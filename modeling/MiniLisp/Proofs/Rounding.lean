import Mathlib.Order.Monotone.Basic
import MiniLisp.Number.Binary64

/-!
# Rounding to the nearest magnitude

Magnitudes are compared through the units they hold: more magnitude means more units. A fraction of
units is rounded to a magnitude that has the fraction between its two midpoints, the one with the
magnitude before it and the one with the magnitude after it. All that is used of rounding follows
from this.

1. `Binary64.unitsOf_strictMono`: magnitudes are ordered as the units they hold.
2. `Binary64.exists_nearest`: what is rounded lies between the midpoints of the result.
3. `Binary64.roundUnits_le`, `Binary64.le_roundUnits`: rounding does not cross a magnitude, so what
   is a magnitude already is not changed (`Binary64.roundUnits_eq`).
4. `Binary64.roundUnits_lt_of_mul_lt`: nor does it reach a magnitude from farther below it than half
   a step.
5. `Binary64.roundUnits_congr`: fractions of the same value are rounded to the same magnitude.
-/

namespace MiniLisp.Binary64

/-! ## Significands and scales -/

/-- The units of a significand at a scale. A significand below `2 ^ 52` has the scale zero, and the
significand `2 ^ 53` is the least one of the next scale. -/
theorem unitsOf_scaled {k s : Nat} (hle : s ≤ Nat.pow 2 53) (hscale : k = 0 ∨ Nat.pow 2 52 ≤ s) :
    unitsOf (k * Nat.pow 2 52 + s) = s * Nat.pow 2 k := by
  have h52 : Nat.pow 2 52 = 4503599627370496 := rfl
  have h53 : Nat.pow 2 53 = 9007199254740992 := rfl
  rw [h53] at hle
  unfold unitsOf
  simp only [h52] at hscale ⊢
  rcases Nat.lt_or_ge s 4503599627370496 with hlow | hhigh
  · obtain rfl : k = 0 := by omega
    simp [Nat.div_eq_of_lt hlow, Nat.mod_eq_of_lt hlow]
  · rcases Nat.lt_or_eq_of_le hle with hlt | rfl
    · have hdiv : (k * 4503599627370496 + s) / 4503599627370496 = k + 1 := by omega
      have hmod : 4503599627370496 + (k * 4503599627370496 + s) % 4503599627370496 = s := by omega
      simp only [hdiv, Nat.add_one_ne_zero, ↓reduceIte, hmod, Nat.add_sub_cancel]
    · have hdiv : (k * 4503599627370496 + 9007199254740992) / 4503599627370496 = k + 2 := by omega
      have hmod : (k * 4503599627370496 + 9007199254740992) % 4503599627370496 = 0 := by omega
      simp [hdiv, hmod, Nat.pow_succ]
      omega

/-- Every magnitude is a significand at a scale. -/
theorem exists_scaled (m : Nat) :
    ∃ k s, m = k * Nat.pow 2 52 + s ∧ s < Nat.pow 2 53 ∧ (k = 0 ∨ Nat.pow 2 52 ≤ s) := by
  have h52 : Nat.pow 2 52 = 4503599627370496 := rfl
  have h53 : Nat.pow 2 53 = 9007199254740992 := rfl
  refine ⟨m / Nat.pow 2 52 - 1, m - (m / Nat.pow 2 52 - 1) * Nat.pow 2 52, ?_⟩
  rw [h52, h53]
  omega

/-- Neighbours are one step of their scale apart. -/
theorem unitsOf_succ (m : Nat) :
    ∃ k s, unitsOf m = s * Nat.pow 2 k ∧ unitsOf (m + 1) = (s + 1) * Nat.pow 2 k ∧
      m = k * Nat.pow 2 52 + s ∧ (k = 0 ∨ Nat.pow 2 52 ≤ s) := by
  obtain ⟨k, s, rfl, hlt, hscale⟩ := exists_scaled m
  refine ⟨k, s, unitsOf_scaled hlt.le hscale, ?_, rfl, hscale⟩
  rw [Nat.add_assoc]
  exact unitsOf_scaled (Nat.succ_le_of_lt hlt) (hscale.imp_right Nat.le_succ_of_le)

/-- Magnitudes are ordered as the units they hold. -/
theorem unitsOf_strictMono : StrictMono unitsOf := by
  refine strictMono_nat_of_lt_succ fun m => ?_
  obtain ⟨k, s, hm, hnext, _⟩ := unitsOf_succ m
  rw [hm, hnext]
  exact Nat.mul_lt_mul_of_pos_right (Nat.lt_succ_self s) (Nat.two_pow_pos k)

/-- From the magnitude `2 ^ 52` on a step is at most the part `2 ^ -52` of the units. -/
theorem mul_unitsOf_succ_le {m : Nat} (h : Nat.pow 2 52 ≤ m) :
    Nat.pow 2 52 * unitsOf (m + 1) ≤ (Nat.pow 2 52 + 1) * unitsOf m := by
  obtain ⟨k, s, hm, hnext, rfl, hscale⟩ := unitsOf_succ m
  have hs : Nat.pow 2 52 ≤ s := by
    rcases hscale with rfl | hs
    · simpa using h
    · exact hs
  rw [hm, hnext, ← Nat.mul_assoc, ← Nat.mul_assoc]
  refine Nat.mul_le_mul_right _ ?_
  generalize Nat.pow 2 52 = step at hs
  rw [Nat.mul_add, Nat.add_mul, Nat.mul_one, Nat.one_mul]
  exact Nat.add_le_add_left hs _

/-- No step is smaller than the part `2 ^ -53` of the units that it leads to. -/
theorem unitsOf_succ_add_le (m : Nat) :
    unitsOf (m + 1) + Nat.pow 2 53 * unitsOf m ≤ Nat.pow 2 53 * unitsOf (m + 1) := by
  obtain ⟨k, s, rfl, hlt, hscale⟩ := exists_scaled m
  have hnext : unitsOf (k * Nat.pow 2 52 + s + 1) = (s + 1) * Nat.pow 2 k := by
    rw [Nat.add_assoc]
    exact unitsOf_scaled (Nat.succ_le_of_lt hlt) (hscale.imp_right Nat.le_succ_of_le)
  rw [unitsOf_scaled hlt.le hscale, hnext]
  have hstep := Nat.mul_le_mul_right (Nat.pow 2 k) (Nat.succ_le_of_lt hlt)
  generalize Nat.pow 2 53 = precision at hstep ⊢
  rw [Nat.succ_mul] at hstep ⊢
  rw [Nat.mul_add]
  omega

/-! ## The nearest magnitude -/

/-- A fraction is rounded down or up, and not past a half. -/
theorem roundHalfEven_cases (n d : Nat) :
    (roundHalfEven n d = n / d ∧ 2 * (n % d) ≤ d) ∨
      (roundHalfEven n d = n / d + 1 ∧ d ≤ 2 * (n % d)) := by
  unfold roundHalfEven
  dsimp only
  split
  · exact .inl ⟨rfl, by omega⟩
  · exact .inr ⟨rfl, by omega⟩

/-- The scale that is chosen for a fraction leaves a significand of 53 bits, or of fewer at the
scale zero. -/
theorem significand_bounds (q : Nat) :
    q / Nat.pow 2 (q.log2 - 52) < Nat.pow 2 53 ∧
      (q.log2 - 52 = 0 ∨ Nat.pow 2 52 ≤ q / Nat.pow 2 (q.log2 - 52)) := by
  simp only [Nat.pow_eq]
  have hpos := Nat.two_pow_pos (q.log2 - 52)
  have hupper := Nat.lt_log2_self (n := q)
  constructor
  · rw [Nat.div_lt_iff_lt_mul hpos, ← Nat.pow_add]
    exact hupper.trans_le (Nat.pow_le_pow_right (by decide) (by omega))
  · rcases Nat.eq_zero_or_pos (q.log2 - 52) with hzero | hscale
    · exact .inl hzero
    · have hq : q ≠ 0 := by
        rintro rfl
        simp at hscale
      right
      rw [Nat.le_div_iff_mul_le hpos, ← Nat.pow_add, Nat.add_sub_of_le (by omega)]
      exact Nat.log2_self_le hq

/-- The result of rounding, unless it is infinite, has the fraction `n / d` between its midpoints
with the magnitudes before and after it. -/
theorem exists_nearest (n : Nat) {d : Nat} (hd : 0 < d) :
    ∃ m, roundUnits n d = min infinity m ∧
      (unitsOf (m - 1) + unitsOf m) * d ≤ 2 * n ∧ 2 * n ≤ (unitsOf m + unitsOf (m + 1)) * d := by
  refine ⟨_, rfl, ?_⟩
  obtain ⟨hlt, hscale⟩ := significand_bounds (n / d)
  generalize (n / d).log2 - 52 = k at hlt hscale ⊢
  rw [Nat.div_div_eq_div_mul] at hlt hscale
  have hrounded := roundHalfEven_cases n (d * Nat.pow 2 k)
  have hdivision := Nat.div_add_mod' n (d * Nat.pow 2 k)
  have hpos : 0 < d * Nat.pow 2 k := Nat.mul_pos hd (Nat.two_pow_pos k)
  have hrest := Nat.mod_lt n hpos
  generalize n / (d * Nat.pow 2 k) = q at *
  -- The two candidates are the magnitude of the significand `q` and the one after it.
  have hlower : unitsOf (k * Nat.pow 2 52 + q) * d = q * (d * Nat.pow 2 k) := by
    rw [unitsOf_scaled hlt.le hscale, Nat.mul_assoc, Nat.mul_comm d]
  have hupper : unitsOf (k * Nat.pow 2 52 + (q + 1)) * d = (q + 1) * (d * Nat.pow 2 k) := by
    rw [unitsOf_scaled (Nat.succ_le_of_lt hlt) (hscale.imp_right Nat.le_succ_of_le), Nat.mul_assoc,
      Nat.mul_comm d]
  rw [Nat.add_mul, Nat.one_mul] at hupper
  rw [Nat.add_mul, Nat.add_mul]
  rcases hrounded with ⟨hdown, hhalf⟩ | ⟨hup, hhalf⟩
  · have hbefore := Nat.mul_le_mul_right d
      (unitsOf_strictMono.monotone (Nat.sub_le (k * Nat.pow 2 52 + q) 1))
    rw [hdown, Nat.add_assoc]
    omega
  · have hafter := Nat.mul_le_mul_right d
      (unitsOf_strictMono.monotone (Nat.le_add_right (k * Nat.pow 2 52 + (q + 1)) 1))
    rw [hup, Nat.add_sub_assoc (Nat.le_add_left 1 q), Nat.add_sub_cancel]
    omega

/-! ## Bounds -/

variable {n d m : Nat}

/-- A fraction below the midpoint after a magnitude is not rounded beyond the magnitude. -/
theorem roundUnits_le_of_lt_midpoint (hd : 0 < d) (h : 2 * n < (unitsOf m + unitsOf (m + 1)) * d) :
    roundUnits n d ≤ m := by
  obtain ⟨result, hresult, hlower, _⟩ := exists_nearest n hd
  rw [hresult]
  refine (Nat.min_le_right _ _).trans (Nat.le_of_not_lt fun hlt => ?_)
  have hbefore : unitsOf m ≤ unitsOf (result - 1) :=
    unitsOf_strictMono.monotone (Nat.le_sub_one_of_lt hlt)
  have hself : unitsOf (m + 1) ≤ unitsOf result := unitsOf_strictMono.monotone hlt
  have hsum := Nat.mul_le_mul_right d (Nat.add_le_add hbefore hself)
  omega

theorem roundUnits_le (hd : 0 < d) (h : n ≤ unitsOf m * d) : roundUnits n d ≤ m := by
  refine roundUnits_le_of_lt_midpoint hd ?_
  have hstep : unitsOf m < unitsOf (m + 1) := unitsOf_strictMono (Nat.lt_succ_self m)
  have hmul := Nat.mul_lt_mul_of_pos_right hstep hd
  rw [Nat.add_mul]
  omega

theorem le_roundUnits (hd : 0 < d) (hm : m ≤ infinity) (h : unitsOf m * d ≤ n) :
    m ≤ roundUnits n d := by
  obtain ⟨result, hresult, _, hupper⟩ := exists_nearest n hd
  rw [hresult]
  refine Nat.le_min.mpr ⟨hm, Nat.le_of_not_lt fun hlt => ?_⟩
  have hself := Nat.mul_lt_mul_of_pos_right (unitsOf_strictMono hlt) hd
  have hafter : unitsOf (result + 1) ≤ unitsOf m := unitsOf_strictMono.monotone hlt
  have hmul := Nat.mul_le_mul_right d hafter
  rw [Nat.add_mul] at hupper
  omega

/-- A fraction above the midpoint before a magnitude is rounded to the magnitude or beyond it. -/
theorem le_roundUnits_of_midpoint_lt (hd : 0 < d) (hm : m + 1 ≤ infinity)
    (h : (unitsOf m + unitsOf (m + 1)) * d < 2 * n) : m + 1 ≤ roundUnits n d := by
  obtain ⟨result, hresult, _, hupper⟩ := exists_nearest n hd
  rw [hresult]
  refine Nat.le_min.mpr ⟨hm, Nat.le_of_not_lt fun hlt => ?_⟩
  have hself : unitsOf result ≤ unitsOf m := unitsOf_strictMono.monotone (Nat.le_of_lt_succ hlt)
  have hafter : unitsOf (result + 1) ≤ unitsOf (m + 1) := unitsOf_strictMono.monotone hlt
  have hsum := Nat.mul_le_mul_right d (Nat.add_le_add hself hafter)
  omega

/-- What is a magnitude is rounded to itself. -/
theorem roundUnits_eq (hd : 0 < d) (hm : m ≤ infinity) (h : n = unitsOf m * d) :
    roundUnits n d = m :=
  Nat.le_antisymm (roundUnits_le hd h.le) (le_roundUnits hd hm h.ge)

/-- Half a step before a magnitude is at most the part `1 / (2 ^ 53 + 2)` of it, so a fraction that
is farther below is not rounded up to the magnitude. -/
theorem roundUnits_lt_of_mul_lt (hd : 0 < d) (hm : Nat.pow 2 52 < m)
    (h : (Nat.pow 2 53 + 2) * n < (Nat.pow 2 53 + 1) * (unitsOf m * d)) : roundUnits n d < m := by
  obtain ⟨before, rfl⟩ : ∃ before, m = before + 1 := ⟨m - 1, by omega⟩
  have h52 : Nat.pow 2 52 = 4503599627370496 := rfl
  have h53 : Nat.pow 2 53 = 9007199254740992 := rfl
  have hstep := Nat.mul_le_mul_right d (mul_unitsOf_succ_le (Nat.le_of_lt_succ hm))
  rw [Nat.mul_assoc, Nat.mul_assoc, h52] at hstep
  rw [h53] at h
  refine Nat.lt_succ_of_le (roundUnits_le_of_lt_midpoint hd ?_)
  rw [Nat.add_mul]
  omega

/-! ## Equal fractions -/

theorem roundHalfEven_mul_right {k : Nat} (hk : 0 < k) (n d : Nat) :
    roundHalfEven (n * k) (d * k) = roundHalfEven n d := by
  have hquotient : n * k / (d * k) = n / d := Nat.mul_div_mul_right n d hk
  have hrest : 2 * (n * k % (d * k)) = 2 * (n % d) * k := by
    rw [Nat.mul_mod_mul_right, Nat.mul_assoc]
  unfold roundHalfEven
  simp only [hquotient, hrest, Nat.mul_lt_mul_right hk, Nat.mul_right_cancel_iff hk]

/-- Rounding depends on the value of a fraction only. -/
theorem roundUnits_congr {n' d' : Nat} (hd : 0 < d) (hd' : 0 < d') (h : n * d' = n' * d) :
    roundUnits n d = roundUnits n' d' := by
  have hscaled : ∀ {k : Nat}, 0 < k → ∀ n d, roundUnits (n * k) (d * k) = roundUnits n d := by
    intro k hk n d
    unfold roundUnits
    simp only [Nat.mul_div_mul_right n d hk, Nat.mul_right_comm d k, roundHalfEven_mul_right hk]
  rw [← hscaled hd' n d, ← hscaled hd n' d', h, Nat.mul_comm d d']

end MiniLisp.Binary64
