import MiniLisp.Proofs.Decimals
import MiniLisp.Proofs.Literals
import MiniLisp.Proofs.Normalisation

/-!
# Printed floats

The text of a finite float is one token, and the token is read as the same float. The text has a
point: a number with a fraction is written with digits behind the point, and `.0` is put behind a
number without one. So it is never taken for an integer, and it never gets a second point.
-/

namespace MiniLisp

variable {π : Type}

open Numeral Token Grammar NumeralLemmas RoundTripLemmas

/-! ## Positional text -/

theorem toDigits_subset (n : Nat) : Nat.toDigits 10 n ⊆ digits :=
  fun _ hc => isDigit_iff.mp (isDigit_of_mem_toDigits hc)

theorem replicate_subset (n : Nat) : List.replicate n '0' ⊆ digits := by
  intro c hc
  rw [List.eq_of_mem_replicate hc]
  decide

namespace Decimal

theorem toChars_of_nonneg {d : Decimal} (h : 0 ≤ d.exponent) :
    d.toChars = Nat.toDigits 10 d.coefficient ++ List.replicate d.exponent.toNat '0' := by
  have hplaces : (-d.exponent).toNat = 0 := Int.toNat_of_nonpos (Int.neg_nonpos_of_nonneg h)
  simp only [toChars, hplaces, ↓reduceIte]

theorem digitsValue_append_zeros (n k : Nat) :
    digitsValue (Nat.toDigits 10 n ++ List.replicate k '0') = n * Nat.pow 10 k := by
  rw [digitsValue, Nat.ofDigitChars_append, Nat.ofDigitChars_ten_toDigits,
    Nat.ofDigitChars_replicate_zero, Nat.mul_comm, Nat.pow_eq]

theorem digitsValue_zeros_append (n k : Nat) :
    digitsValue (List.replicate k '0' ++ Nat.toDigits 10 n) = n := by
  rw [digitsValue, Nat.ofDigitChars_append, Nat.ofDigitChars_replicate_zero, Nat.mul_zero,
    Nat.ofDigitChars_ten_toDigits]

/-- A decimal without digits behind the point is read from its text with `.0` behind it. -/
theorem decimal?_toChars_append {d : Decimal} (h : 0 ≤ d.exponent) :
    decimal? (d.toChars ++ ".0".toList) =
      some ⟨d.coefficient * Nat.pow 10 (d.exponent.toNat + 1), -1⟩ := by
  have hds := List.append_subset.mpr
    ⟨toDigits_subset d.coefficient, replicate_subset d.exponent.toNat⟩
  have hne : Nat.toDigits 10 d.coefficient ++ List.replicate d.exponent.toNat '0' ++ ['0'] ≠ [] :=
    List.append_ne_nil_of_right_ne_nil _ (List.cons_ne_nil _ _)
  rw [toChars_of_nonneg h]
  refine (decimal?_pointed (e := []) hds (by decide) hne rfl).trans ?_
  rw [List.append_assoc, ← List.replicate_succ', digitsValue_append_zeros]
  rfl

/-- Digits with a point among them. -/
theorem decimal?_take_drop {ds : List Char} (hds : ds ⊆ digits) {places : Nat}
    (hplaces : places < ds.length) :
    decimal? (ds.take (ds.length - places) ++ '.' :: ds.drop (ds.length - places)) =
      some ⟨digitsValue ds, -(places : Int)⟩ := by
  have hwhole := ds.take_append_drop (ds.length - places)
  have hne : ds ≠ [] := List.ne_nil_of_length_pos (Nat.zero_lt_of_lt hplaces)
  have hread := decimal?_pointed (e := []) (List.Subset.trans (List.take_subset _ ds) hds)
    (List.Subset.trans (List.drop_subset _ ds) hds) (hwhole ▸ hne) rfl
  rw [List.append_nil, hwhole, List.length_drop, Nat.sub_sub_self hplaces.le, Int.zero_sub] at hread
  exact hread

/-- A decimal with digits behind the point is read from its text. -/
theorem decimal?_toChars {d : Decimal} (h : d.exponent < 0) : decimal? d.toChars = some d := by
  obtain ⟨coefficient, exponent⟩ := d
  obtain ⟨places, rfl⟩ : ∃ places : Nat, exponent = -((places + 1 : Nat) : Int) :=
    ⟨(-exponent).toNat - 1, by dsimp only at h; omega⟩
  have hpadded := List.append_subset.mpr
    ⟨replicate_subset (places + 1 + 1 - (Nat.toDigits 10 coefficient).length),
      toDigits_subset coefficient⟩
  have hlength : places + 1 < (List.replicate
      (places + 1 + 1 - (Nat.toDigits 10 coefficient).length) '0' ++
        Nat.toDigits 10 coefficient).length := by
    rw [List.length_append, List.length_replicate]
    omega
  simp only [toChars, Int.neg_neg, Int.toNat_natCast, Nat.add_one_ne_zero, ↓reduceIte]
  rw [decimal?_take_drop hpadded hlength, digitsValue_zeros_append]

theorem point_mem_toChars {d : Decimal} (h : d.exponent < 0) : '.' ∈ d.toChars := by
  have hplaces : (-d.exponent).toNat ≠ 0 := by omega
  simp [toChars, hplaces]

end Decimal

/-! ## The text of a finite float -/

namespace Binary64

variable {x : Binary64}

theorem toChars_of_isFinite (h : x.isFinite = true) :
    x.toChars = (if x.negative then ['-'] else []) ++
      (x.shortest.toChars ++ (if x.hasFraction then [] else ".0".toList)) := by
  have hlt : x.magnitude < infinity := magnitude_lt_infinity h
  have hnan : x.isNaN = false := decide_eq_false (Nat.not_lt.mpr hlt.le)
  simp only [toChars, hnan, isInfinite_eq_false h, Bool.false_eq_true, ↓reduceIte]

/-- Without its sign, the text has the value of the decimal that was printed. -/
theorem decimal?_shortest (h : x.isFinite = true) :
    ∃ d, decimal? (x.shortest.toChars ++ (if x.hasFraction then [] else ".0".toList)) = some d ∧
      ofDecimal x.negative d = x := by
  cases hfraction : x.hasFraction with
  | true =>
    refine ⟨x.shortest, ?_, ofDecimal_shortest h⟩
    rw [if_pos rfl, List.append_nil]
    exact Decimal.decimal?_toChars (exponent_shortest_neg h hfraction)
  | false =>
    have hexponent := exponent_shortest_nonneg h hfraction
    refine ⟨_, Decimal.decimal?_toChars_append hexponent, ?_⟩
    have hshift : (-1 : Int) + ((x.shortest.exponent.toNat + 1 : Nat) : Int) =
        x.shortest.exponent := by omega
    rw [ofDecimal_shift, hshift]
    exact ofDecimal_shortest h

/-- The text has a point, whether or not the number has a fraction. -/
theorem point_mem_toChars (h : x.isFinite = true) : '.' ∈ x.toChars := by
  rw [toChars_of_isFinite h]
  refine List.mem_append_right _ ?_
  cases hfraction : x.hasFraction with
  | true =>
    have hexponent := exponent_shortest_neg h hfraction
    exact List.mem_append_left _ (Decimal.point_mem_toChars hexponent)
  | false => exact List.mem_append_right _ (by decide)

/-- A finite float is read from its text. -/
theorem binary64?_toChars (h : x.isFinite = true) : binary64? x.toChars = some x := by
  obtain ⟨d, hd, hread⟩ := decimal?_shortest h
  have hunsigned : Unsigned (x.shortest.toChars ++ (if x.hasFraction then [] else ".0".toList)) := by
    obtain ⟨s, e, hs, _, hse⟩ := exists_decimal?_iff.mp ⟨d, hd⟩
    rw [hse]
    exact hs.unsigned_append e
  have hsign : (if x.negative then ['-'] else []) ∈ signs := by
    split <;> decide
  have hnegative : decide ((if x.negative then ['-'] else []) = ['-']) = x.negative := by
    cases x.negative <;> rfl
  rw [binary64?_eq_map, toChars_of_isFinite h, splitSign_append hsign hunsigned, hd, hnegative,
    Option.map_some, hread]

end Binary64

/-! ## Reading back -/

theorem Numeral.Whole.point_not_mem {cs : List Char} {n : Int} (h : Whole cs n) : '.' ∉ cs := by
  have hsigns : ∀ sign ∈ signs, '.' ∉ sign := by decide
  have hdigits : '.' ∉ digits := by decide
  obtain ⟨hsign, hds⟩ := h
  intro hpoint
  rcases List.mem_append.mp hpoint with hpoint | hpoint
  · exact hsigns _ hsign hpoint
  · exact hdigits (hds.2 hpoint)

/-- The text of a finite float is no whole numeral, so it is read as a float. -/
theorem scalar_print_float {x : Binary64} (h : x.isFinite = true) :
    (scalar ((Atom.float x).print .readable) : Value π) = .float x := by
  have htext : ((Atom.float x).print .readable).toList = x.toChars := String.toList_ofList
  have hint : int64? x.toChars = none := by
    rw [← htext]
    refine int64?_eq_none ?_
    rintro ⟨n, hwhole, _⟩
    exact hwhole.point_not_mem (htext ▸ x.point_mem_toChars h)
  rw [scalar, htext, hint, x.binary64?_toChars h]

/-- Whatever a float is, its text is one token. -/
theorem tokenize_print_float (x : Binary64) :
    tokenize ((Atom.float x).print .readable) = [(Atom.float x).print .readable] := by
  have hlexeme : Lexeme .bare ((Atom.float x).print .readable).toList [] := by
    rw [Atom.print, String.toList_ofList]
    exact x.lexeme_toChars ends_nil
  rw [tokenize, ← List.append_nil (String.toList _), ofChars_token hlexeme, ofChars_nil]

/-- A token of the characters of numbers is read by itself. -/
theorem read_print_atom_float (x : Binary64) :
    read ((Atom.float x).print .readable) =
      .ok (scalar ((Atom.float x).print .readable) : Value π) := by
  have htext : ((Atom.float x).print .readable).toList = x.toChars := String.toList_ofList
  have hhead : ∀ c, c ∉ numberChars → ((Atom.float x).print .readable).toList.head? ≠ some c := by
    intro c hc hhead
    rw [htext] at hhead
    exact hc (x.toChars_subset_numberChars (List.mem_of_mem_head? hhead))
  have hlexeme : Lexeme .bare ((Atom.float x).print .readable).toList [] :=
    htext ▸ x.lexeme_toChars ends_nil
  have hform : Form maxReadDepth [(Atom.float x).print .readable]
      (scalar ((Atom.float x).print .readable) : Value π) [] :=
    .literal (not_mem_leaders_of_bare hlexeme) (.scalar (hhead _ (by decide)) (hhead _ (by decide)))
  rw [← tokenize_print_float] at hform
  exact read_eq_ok_iff.mpr (.inr ⟨[], hform⟩)

/-- Every finite float reads back: its text is one token, the token is neither an integer nor a
symbol, and what is read is the float itself, bit by bit. -/
theorem read_print_float {x : Binary64} (h : x.isFinite = true) :
    let text := (Value.float x : Value π).print .readable
    tokenize text = [text] ∧ (scalar text : Value π) = .float x ∧
      read text = .ok (Value.float x : Value π) := by
  have hscalar := scalar_print_float (π := π) h
  exact ⟨tokenize_print_float x, hscalar, (read_print_atom_float x).trans (congrArg _ hscalar)⟩

/-- The number `2 ^ 63`, which is one more than the greatest integer. -/
theorem read_print_float_large :
    let x := Binary64.ofBits 0x43e0000000000000
    x.isFinite = true ∧
      (Value.float x : Value Empty).print .readable = "9223372036854776000.0" ∧
      tokenize "9223372036854776000.0" = ["9223372036854776000.0"] ∧
      (scalar "9223372036854776000.0" : Value Empty) = .float x ∧
      read "9223372036854776000.0" = .ok (Value.float x : Value Empty) := by
  intro x
  have hfinite : x.isFinite = true := by decide +kernel
  have htext : (Value.float x : Value Empty).print .readable = "9223372036854776000.0" := by
    decide +kernel
  have hread := read_print_float (π := Empty) hfinite
  rw [htext] at hread
  exact ⟨hfinite, htext, hread⟩

end MiniLisp
