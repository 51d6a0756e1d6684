import MiniLisp.Number.Decimal
import MiniLisp.Proofs.WholeNumbers

/-!
# Shortest decimals

A finite number is written as the decimal with the fewest digits that is read as the number. The
search for it ends: of the decimals with seventeen digits the nearest one is closer to the number
than half of the way to the next number. Whether the decimal has digits behind the point can be told
from the number. A whole number is found among the decimals without such digits, and a decimal
without such digits is a whole number, however it is rounded.

Results:
1. `Binary64.ofDecimal_shortest`: the shortest decimal reads back.
2. `Binary64.exponent_shortest_nonneg`, `Binary64.exponent_shortest_neg`: it has digits behind the
   point exactly if the number has a fraction.
-/

namespace MiniLisp.Binary64

variable {x : Binary64}

/-! ## Decimals of the same value -/

theorem pow_ten_pos (k : Nat) : 0 < Nat.pow 10 k := Nat.pow_pos (by decide)

theorem ofDecimal_congr (negative : Bool) {d d' : Decimal}
    (h : d.coefficient * Nat.pow 10 d.exponent.toNat * Nat.pow 10 (-d'.exponent).toNat =
      d'.coefficient * Nat.pow 10 d'.exponent.toNat * Nat.pow 10 (-d.exponent).toNat) :
    ofDecimal negative d = ofDecimal negative d' := by
  have hfraction : d.coefficient * Nat.pow 10 d.exponent.toNat * unitsPerOne *
        Nat.pow 10 (-d'.exponent).toNat =
      d'.coefficient * Nat.pow 10 d'.exponent.toNat * unitsPerOne *
        Nat.pow 10 (-d.exponent).toNat := by
    rw [Nat.mul_right_comm, h, Nat.mul_right_comm]
  simp only [ofDecimal, ofUnits, roundUnits_congr (pow_ten_pos _) (pow_ten_pos _) hfraction]

/-- Zeros at the end of the coefficient belong to the exponent. -/
theorem ofDecimal_shift (negative : Bool) (c k : Nat) (e : Int) :
    ofDecimal negative ⟨c * Nat.pow 10 k, e⟩ = ofDecimal negative ⟨c, e + k⟩ := by
  refine ofDecimal_congr negative ?_
  simp only [Nat.pow_eq, Nat.mul_assoc, ← Nat.pow_add]
  congr 2
  omega

/-- The magnitude that a decimal is read as. -/
theorem ofDecimal_eq_iff {d : Decimal} :
    ofDecimal x.negative d = x ↔
      roundUnits (d.coefficient * Nat.pow 10 d.exponent.toNat * unitsPerOne)
        (Nat.pow 10 (-d.exponent).toNat) = x.magnitude := by
  obtain ⟨negative, magnitude, _⟩ := x
  simp [ofDecimal, ofUnits]

/-! ## Close decimals -/

/-- A decimal that is no farther from a number than half of a step of the part `2 ^ -53` of the
number is read as the number. -/
theorem roundUnits_of_close {n d m step : Nat} (hd : 0 < d) (hpos : 0 < m) (hm : m ≤ infinity)
    (hstep : Nat.pow 2 53 * step < unitsOf m * d) (hlower : 2 * (unitsOf m * d) ≤ 2 * n + step)
    (hupper : 2 * n ≤ 2 * (unitsOf m * d) + step) : roundUnits n d = m := by
  obtain ⟨before, rfl⟩ : ∃ before, m = before + 1 := ⟨m - 1, by omega⟩
  have h53 : Nat.pow 2 53 = 9007199254740992 := rfl
  have hbefore := Nat.mul_le_mul_right d (unitsOf_succ_add_le before)
  have hafter := Nat.mul_le_mul_right d (unitsOf_succ_add_le (before + 1))
  have hmono : unitsOf (before + 1) * d ≤ unitsOf (before + 1 + 1) * d :=
    Nat.mul_le_mul_right d (unitsOf_strictMono.monotone (Nat.le_succ _))
  rw [Nat.add_mul, Nat.mul_assoc, Nat.mul_assoc, h53] at hbefore hafter
  rw [h53] at hstep
  refine Nat.le_antisymm (roundUnits_le_of_lt_midpoint hd ?_)
    (le_roundUnits_of_midpoint_lt hd hm ?_)
  · rw [Nat.add_mul]
    omega
  · rw [Nat.add_mul]
    omega

/-! ## Scales -/

/-- The number of places that show a digit of every number is named, since proofs that see it
compute the power. -/
theorem exists_decimalScale_eq (units : Nat) :
    ∃ places, unitsPerOne ≤ Nat.pow 10 places ∧
      decimalScale units =
        ((Nat.toDigits 10 (units * Nat.pow 10 places / unitsPerOne)).length : Int) - places :=
  ⟨324, by decide +kernel, rfl⟩

theorem toDigits_length_bounds {n : Nat} (hn : 0 < n) :
    Nat.pow 10 ((Nat.toDigits 10 n).length - 1) ≤ n ∧
      n < Nat.pow 10 (Nat.toDigits 10 n).length := by
  have hpos : 0 < (Nat.toDigits 10 n).length := Nat.length_toDigits_pos
  refine ⟨?_, (Nat.length_toDigits_le_iff (by decide) hpos).mp (Nat.le_refl _)⟩
  rcases Nat.eq_zero_or_pos ((Nat.toDigits 10 n).length - 1) with hone | hmany
  · rw [hone]
    exact hn
  · refine Nat.le_of_not_lt fun hlt => ?_
    have := (Nat.length_toDigits_le_iff (by decide) hmany).mpr hlt
    omega

/-- With `k + 1` digits before the point the coefficient of a positive number has as many digits. -/
theorem decimalScale_bounds {units k up down : Nat} (hunits : 0 < units)
    (h : decimalScale units + up = k + 1 + down) :
    Nat.pow 10 k * (unitsPerOne * Nat.pow 10 down) ≤ units * Nat.pow 10 up ∧
      units * Nat.pow 10 up < Nat.pow 10 (k + 1) * (unitsPerOne * Nat.pow 10 down) := by
  obtain ⟨places, hplaces, hscale⟩ := exists_decimalScale_eq units
  have hone : 0 < units * Nat.pow 10 places / unitsPerOne :=
    Nat.div_pos (hplaces.trans (Nat.le_mul_of_pos_left _ hunits)) unitsPerOne_pos
  obtain ⟨hlower, hupper⟩ := toDigits_length_bounds hone
  have hpositive : 0 < (Nat.toDigits 10 (units * Nat.pow 10 places / unitsPerOne)).length :=
    Nat.length_toDigits_pos
  rw [hscale] at h
  generalize (Nat.toDigits 10 (units * Nat.pow 10 places / unitsPerOne)).length = length at *
  rw [Nat.le_div_iff_mul_le unitsPerOne_pos] at hlower
  rw [Nat.div_lt_iff_lt_mul unitsPerOne_pos] at hupper
  have hleft : ∀ j l : Nat, j + down + places = l + up →
      Nat.pow 10 j * (unitsPerOne * Nat.pow 10 down) * Nat.pow 10 places =
        Nat.pow 10 l * unitsPerOne * Nat.pow 10 up := by
    intro j l hjl
    simp only [Nat.pow_eq]
    rw [Nat.mul_left_comm, Nat.mul_right_comm _ unitsPerOne, ← Nat.pow_add, ← Nat.pow_add,
      Nat.mul_assoc, ← Nat.pow_add, hjl, Nat.mul_comm]
  constructor
  · refine Nat.le_of_mul_le_mul_right ?_ (pow_ten_pos places)
    rw [hleft k (length - 1) (by omega), Nat.mul_right_comm units]
    exact Nat.mul_le_mul_right _ hlower
  · refine Nat.lt_of_mul_lt_mul_right (a := Nat.pow 10 places) ?_
    rw [hleft (k + 1) length (by omega), Nat.mul_right_comm units]
    exact Nat.mul_lt_mul_of_pos_right hupper (pow_ten_pos up)

/-! ## Neighbours -/

/-- A finite number in steps of `10 ^ e` is a fraction with this numerator. -/
def stepsNum (x : Binary64) (e : Int) : Nat := x.units * Nat.pow 10 (-e).toNat

/-- The denominator of the fraction. -/
def stepsDen (e : Int) : Nat := unitsPerOne * Nat.pow 10 e.toNat

/-- `Close n d c`: the whole number `c` is no farther from `n / d` than a half. -/
def Close (n d c : Nat) : Prop := 2 * (c * d) ≤ 2 * n + d ∧ 2 * n ≤ 2 * (c * d) + d

theorem mul_pow_ten_zero (n : Nat) : n * Nat.pow 10 0 = n := Nat.mul_one n

theorem stepsNum_zero (x : Binary64) : x.stepsNum 0 = x.units := by
  rw [stepsNum, Int.neg_zero, Int.toNat_zero, mul_pow_ten_zero]

theorem stepsDen_zero : stepsDen 0 = unitsPerOne := by
  rw [stepsDen, Int.toNat_zero, mul_pow_ten_zero]

theorem stepsDen_pos (e : Int) : 0 < stepsDen e := Nat.mul_pos unitsPerOne_pos (pow_ten_pos _)

/-- The decimals that are looked at end after the given number of digits, or are a power of ten. -/
theorem exponent_of_mem_neighbours {d : Decimal} {k : Nat} (h : d ∈ x.neighbours k) :
    d.exponent = decimalScale x.units - k ∨ d.exponent = decimalScale x.units := by
  have habove : ∀ (p : Prop) [Decidable p] (c : Nat) (e scale : Int),
      (if p then (⟨1, scale⟩ : Decimal) else ⟨c, e⟩).exponent = e ∨
        (if p then (⟨1, scale⟩ : Decimal) else ⟨c, e⟩).exponent = scale := by
    intro p _ c e scale
    split
    · exact .inr rfl
    · exact .inl rfl
  unfold neighbours at h
  dsimp only at h
  split at h
  · rcases List.mem_cons.mp h with rfl | h
    · exact habove ..
    · rw [List.mem_singleton.mp h]
      exact .inl rfl
  · rcases List.mem_cons.mp h with rfl | h
    · exact .inl rfl
    · rw [List.mem_singleton.mp h]
      exact habove ..

/-- One of them is no farther from the number than half of its last place. -/
theorem exists_neighbour (x : Binary64) (k : Nat) :
    ∃ c, Close (x.stepsNum (decimalScale x.units - k)) (stepsDen (decimalScale x.units - k)) c ∧
      ∃ d ∈ x.neighbours k, ∀ negative,
        ofDecimal negative d = ofDecimal negative ⟨c, decimalScale x.units - k⟩ := by
  have hpos := stepsDen_pos (decimalScale x.units - k)
  unfold neighbours
  dsimp only
  unfold stepsNum stepsDen Close at *
  generalize hexponent : decimalScale x.units - k = e at hpos ⊢
  generalize unitsPerOne * Nat.pow 10 e.toNat = d at hpos ⊢
  generalize x.units * Nat.pow 10 (-e).toNat = n
  have hdivision := Nat.div_add_mod' n d
  have hrest := Nat.mod_lt n hpos
  split
  · next hhalf =>
    refine ⟨n / d + 1, ?_, _, List.mem_cons_self, fun negative => ?_⟩
    · rw [Nat.add_mul, Nat.one_mul]
      omega
    · split
      · next hpower =>
        have hshift := ofDecimal_shift negative 1 k e
        rw [Nat.one_mul, ← hpower] at hshift
        rw [hshift, ← hexponent, Int.sub_add_cancel]
      · rfl
  · next hhalf =>
    exact ⟨n / d, by omega, _, List.mem_cons_self, fun _ => rfl⟩

/-! ## Reading back -/

theorem magnitude_lt_infinity (h : x.isFinite = true) : x.magnitude < infinity := of_decide_eq_true h

theorem magnitude_pos (h : x.isZero = false) : 0 < x.magnitude :=
  Nat.pos_of_ne_zero (of_decide_eq_false h)

theorem units_pos (h : x.isZero = false) : 0 < x.units := by
  have hlt : unitsOf 0 < unitsOf x.magnitude := unitsOf_strictMono (magnitude_pos h)
  exact Nat.zero_lt_of_lt hlt

/-- A close decimal with many digits is read as the number. -/
theorem ofDecimal_of_close (hx : x.isFinite = true) (hzero : x.isZero = false) {c : Nat} {e : Int}
    (hclose : Close (x.stepsNum e) (stepsDen e) c)
    (hmany : Nat.pow 2 53 * stepsDen e < x.stepsNum e) : ofDecimal x.negative ⟨c, e⟩ = x := by
  have hcoefficient : c * Nat.pow 10 e.toNat * unitsPerOne = c * stepsDen e := by
    rw [stepsDen, Nat.mul_assoc, Nat.mul_comm unitsPerOne]
  rw [ofDecimal_eq_iff, hcoefficient]
  exact roundUnits_of_close (pow_ten_pos _) (magnitude_pos hzero) (magnitude_lt_infinity hx).le hmany
    hclose.2 hclose.1

/-- Of the decimals with seventeen digits, one is read as the number. -/
theorem exists_neighbour_seventeen (hx : x.isFinite = true) (hzero : x.isZero = false) :
    ∃ d ∈ x.neighbours 17, ofDecimal x.negative d = x := by
  obtain ⟨c, hclose, d, hd, hread⟩ := exists_neighbour x 17
  refine ⟨d, hd, (hread _).trans (ofDecimal_of_close hx hzero hclose ?_)⟩
  have hdigits : Nat.pow 10 16 * stepsDen (decimalScale x.units - 17) ≤
      x.stepsNum (decimalScale x.units - 17) :=
    (decimalScale_bounds (units_pos hzero) (by omega)).1
  have hprecision : Nat.pow 2 53 < Nat.pow 10 16 := by decide
  exact (Nat.mul_lt_mul_of_pos_right hprecision (stepsDen_pos _)).trans_le hdigits

theorem dvd_units (h : x.hasFraction = false) : unitsPerOne ∣ x.units := by
  have hrest : ¬ x.units % unitsPerOne ≠ 0 := of_decide_eq_false h
  exact Nat.dvd_of_mod_eq_zero (Decidable.not_not.mp hrest)

/-- Of the decimals without digits behind the point, one is the whole number. -/
theorem exists_neighbour_whole (hx : x.isFinite = true) (hwhole : x.hasFraction = false) {k : Nat}
    (hk : decimalScale x.units = k) : ∃ d ∈ x.neighbours k, ofDecimal x.negative d = x := by
  obtain ⟨c, hclose, d, hd, hread⟩ := exists_neighbour x k
  obtain ⟨whole, hunits⟩ := dvd_units hwhole
  rw [hk, Int.sub_self] at hclose hread
  have hc : c = whole := by
    have hlower := hclose.1
    have hupper := hclose.2
    rw [stepsNum_zero, stepsDen_zero, hunits, Nat.mul_comm unitsPerOne, ← Nat.mul_assoc,
      ← Nat.mul_assoc, ← Nat.succ_mul] at hlower hupper
    have hlower := Nat.le_of_mul_le_mul_right hlower unitsPerOne_pos
    have hupper := Nat.le_of_mul_le_mul_right hupper unitsPerOne_pos
    omega
  refine ⟨d, hd, (hread _).trans (ofDecimal_eq_iff.mpr ?_)⟩
  refine roundUnits_eq (pow_ten_pos _) (magnitude_lt_infinity hx).le ?_
  rw [units] at hunits
  dsimp only
  rw [hunits, hc, Int.neg_zero, Int.toNat_zero, mul_pow_ten_zero, mul_pow_ten_zero, Nat.mul_comm]

/-- A whole number other than zero has a digit before the point. -/
theorem decimalScale_pos (hzero : x.isZero = false) (hwhole : x.hasFraction = false) :
    0 < decimalScale x.units := by
  refine Int.not_le.mp fun hle => ?_
  have hone : unitsPerOne ≤ x.units := Nat.le_of_dvd (units_pos hzero) (dvd_units hwhole)
  obtain ⟨up, hup⟩ : ∃ up : Nat, decimalScale x.units + (up + 1 : Nat) = (0 : Nat) + 1 + (0 : Nat) :=
    ⟨(-decimalScale x.units).toNat, by omega⟩
  have hlt := (decimalScale_bounds (units_pos hzero) hup).2
  have hten : x.units * 10 ≤ x.units * Nat.pow 10 (up + 1) :=
    Nat.mul_le_mul_left _ (Nat.le_mul_of_pos_left 10 (pow_ten_pos up))
  have hpower : Nat.pow 10 (0 + 1) = 10 := rfl
  generalize unitsPerOne = one at hone hlt
  rw [hpower, mul_pow_ten_zero one, Nat.mul_comm 10] at hlt
  exact absurd (Nat.mul_le_mul_right 10 hone) (Nat.not_le.mpr (hten.trans_lt hlt))

/-! ## The search -/

theorem exists_findSome?_range {α : Type} {f : Nat → Option α} {n i : Nat} (hi : i < n)
    (h : (f i).isSome = true) :
    ∃ j ≤ i, ∃ a, f j = some a ∧ (List.range n).findSome? f = some a := by
  induction n with
  | zero => exact absurd hi (Nat.not_lt_zero i)
  | succ n ih =>
    rw [List.range_succ, List.findSome?_append]
    rcases Nat.lt_or_eq_of_le (Nat.le_of_lt_succ hi) with hlt | rfl
    · obtain ⟨j, hj, a, ha, hfind⟩ := ih hlt
      exact ⟨j, hj, a, ha, by rw [hfind, Option.some_or]⟩
    · cases hfind : (List.range i).findSome? f with
      | none =>
        obtain ⟨a, ha⟩ := Option.isSome_iff_exists.mp h
        exact ⟨i, Nat.le_refl i, a, ha, by rw [Option.none_or, List.findSome?_singleton, ha]⟩
      | some a =>
        obtain ⟨j, hj, ha⟩ := List.exists_of_findSome?_eq_some hfind
        exact ⟨j, (List.mem_range.mp hj).le, a, ha, Option.some_or⟩

/-- The search stops at the latest where it finds something. -/
theorem exists_shortest (hzero : x.isZero = false) {i : Nat} (hi : i < 17)
    (h : ∃ d ∈ x.neighbours (i + 1), ofDecimal x.negative d = x) :
    ∃ j ≤ i, x.shortest ∈ x.neighbours (j + 1) ∧ ofDecimal x.negative x.shortest = x := by
  obtain ⟨d, hd, hread⟩ := h
  have hsome : ((x.neighbours (i + 1)).find? fun d => ofDecimal x.negative d = x).isSome = true :=
    List.find?_isSome.mpr ⟨d, hd, decide_eq_true hread⟩
  obtain ⟨j, hj, found, hfound, hsearch⟩ := exists_findSome?_range
    (f := fun i => (x.neighbours (i + 1)).find? fun d => ofDecimal x.negative d = x) hi hsome
  have hshortest : x.shortest = found := by
    simp only [shortest, hzero, Bool.false_eq_true, ↓reduceIte, hsearch, Option.getD_some]
  have hfits := List.find?_some hfound
  simp only [decide_eq_true_eq] at hfits
  rw [hshortest]
  exact ⟨j, hj, List.mem_of_find?_eq_some hfound, hfits⟩

theorem shortest_of_isZero (h : x.isZero = true) : x.shortest = ⟨0, 0⟩ := by
  rw [shortest, if_pos h]

/-- The decimal that a finite number is written as is read as the number. -/
theorem ofDecimal_shortest (hx : x.isFinite = true) : ofDecimal x.negative x.shortest = x := by
  cases hzero : x.isZero with
  | true =>
    have hmagnitude : x.magnitude = 0 := of_decide_eq_true hzero
    have hunits : unitsOf 0 = 0 := rfl
    rw [shortest_of_isZero hzero, ofDecimal_eq_iff, hmagnitude]
    refine roundUnits_eq (pow_ten_pos _) (Nat.zero_le _) ?_
    rw [hunits, Nat.zero_mul, Nat.zero_mul, Nat.zero_mul]
  | false =>
    obtain ⟨_, _, _, hread⟩ := exists_shortest hzero (by decide) (exists_neighbour_seventeen hx hzero)
    exact hread

/-! ## Digits behind the point -/

/-- A whole number is written without digits behind the point. -/
theorem exponent_shortest_nonneg (hx : x.isFinite = true) (hwhole : x.hasFraction = false) :
    0 ≤ x.shortest.exponent := by
  cases hzero : x.isZero with
  | true =>
    rw [shortest_of_isZero hzero]
  | false =>
    -- Not more digits are tried than there are before the point.
    have hpos := decimalScale_pos hzero hwhole
    obtain ⟨scale, hscale⟩ : ∃ scale : Nat, decimalScale x.units = (scale + 1 : Nat) :=
      ⟨(decimalScale x.units - 1).toNat, by omega⟩
    obtain ⟨j, hj, hmem, _⟩ : ∃ j, (j + 1 : Nat) ≤ decimalScale x.units ∧
        x.shortest ∈ x.neighbours (j + 1) ∧ ofDecimal x.negative x.shortest = x := by
      rcases Nat.lt_or_ge scale 17 with hlt | hge
      · obtain ⟨j, hj, hfound⟩ := exists_shortest hzero hlt (exists_neighbour_whole hx hwhole hscale)
        exact ⟨j, by omega, hfound⟩
      · obtain ⟨j, hj, hfound⟩ :=
          exists_shortest hzero (by decide) (exists_neighbour_seventeen hx hzero)
        exact ⟨j, by omega, hfound⟩
    rcases exponent_of_mem_neighbours hmem with hexponent | hexponent <;> omega

/-- From `2 ^ 53` on all numbers are whole. -/
theorem dvd_unitsOf {m : Nat} (h : Nat.pow 2 53 * unitsPerOne ≤ unitsOf m) :
    unitsPerOne ∣ unitsOf m := by
  obtain ⟨t, _, hone⟩ := exists_unitsPerOne_eq
  obtain ⟨k, s, rfl, hlt, hscale⟩ := exists_scaled m
  rw [unitsOf_scaled hlt.le hscale, hone] at *
  have hpow : Nat.pow 2 t < Nat.pow 2 k := by
    refine Nat.lt_of_mul_lt_mul_left (a := Nat.pow 2 53) (h.trans_lt ?_)
    exact Nat.mul_lt_mul_of_pos_right hlt (Nat.two_pow_pos k)
  have hle : t ≤ k := ((Nat.pow_lt_pow_iff_right (by decide)).mp hpow).le
  exact Nat.dvd_mul_left_of_dvd (Nat.pow_dvd_pow 2 hle) s

/-- A whole number is rounded to a whole number. -/
theorem dvd_unitsOf_roundUnits (n : Nat) :
    unitsPerOne ∣ unitsOf (roundUnits (n * unitsPerOne) 1) := by
  rcases Nat.le_total n (Nat.pow 2 53) with hle | hge
  · obtain ⟨m, hlt, hm⟩ := exists_magnitude hle
    have hround : roundUnits (n * unitsPerOne) 1 = m :=
      roundUnits_eq Nat.one_pos hlt.le (by rw [hm, Nat.mul_one])
    rw [hround, hm]
    exact Nat.dvd_mul_left _ _
  · obtain ⟨m, hlt, hm⟩ := exists_magnitude (Nat.le_refl (Nat.pow 2 53))
    have hround : m ≤ roundUnits (n * unitsPerOne) 1 := by
      refine le_roundUnits Nat.one_pos hlt.le ?_
      rw [hm, Nat.mul_one]
      exact Nat.mul_le_mul_right _ hge
    refine dvd_unitsOf ?_
    rw [← hm]
    exact unitsOf_strictMono.monotone hround

/-- A number with a fraction is written with digits behind the point. -/
theorem exponent_shortest_neg (hx : x.isFinite = true) (hfraction : x.hasFraction = true) :
    x.shortest.exponent < 0 := by
  refine Int.not_le.mp fun hle => ?_
  have hread := ofDecimal_eq_iff.mp (ofDecimal_shortest hx)
  have hplaces : Nat.pow 10 (-x.shortest.exponent).toNat = 1 := by
    rw [Int.toNat_of_nonpos (Int.neg_nonpos_of_nonneg hle)]
  rw [hplaces] at hread
  have hdvd : unitsPerOne ∣ unitsOf x.magnitude := hread ▸ dvd_unitsOf_roundUnits _
  have hrest : x.units % unitsPerOne ≠ 0 := of_decide_eq_true hfraction
  exact hrest (Nat.mod_eq_zero_of_dvd hdvd)

end MiniLisp.Binary64
