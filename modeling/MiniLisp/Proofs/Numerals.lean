import MiniLisp.Number.Numeral
import MiniLisp.Proofs.Lexing

/-!
# Printed numbers

The text of an integer and the text of a float are bare tokens wherever they end, and the text of an
integer reads back.

1. `Numeral.int64?_toString`: an integer of 64 bits reads back.
2. `Numeral.lexeme_int`, `Binary64.lexeme_toChars`: the texts are bare tokens.
-/

namespace MiniLisp

open Token (Lexeme Ends isDelimiter startsBare)

/-! ## The characters of numbers -/

/-- The characters that occur in the texts of numbers. -/
def numberChars : List Char := "0123456789-.NaInfinty".toList

namespace NumeralLemmas

theorem mem_numberChars_of_isDigit {c : Char} (h : c.isDigit = true) : c ∈ numberChars := by
  simp only [Char.isDigit, Bool.and_eq_true, decide_eq_true_eq] at h
  have hrange : ∀ n < 58, 48 ≤ n → Char.ofNat n ∈ numberChars := by decide
  have hlower : 48 ≤ c.toNat := h.1
  have hupper : c.toNat ≤ 57 := h.2
  rw [← Char.ofNat_toNat c]
  exact hrange c.toNat (by omega) hlower

theorem bare_of_mem_numberChars {c : Char} (h : c ∈ numberChars) :
    startsBare c = true ∧ isDelimiter c = false := by
  have hall : numberChars.all (fun c => startsBare c && !isDelimiter c) = true := by decide
  simpa using List.all_eq_true.mp hall c h

/-- A text of such characters is a bare token. -/
theorem lexeme_of_numberChars {text rest : List Char} (hne : text ≠ [])
    (hchars : text ⊆ numberChars) (hrest : Ends rest) : Lexeme .bare text rest := by
  cases text with
  | nil => exact absurd rfl hne
  | cons c cs =>
    rw [List.cons_subset] at hchars
    refine .bare (bare_of_mem_numberChars hchars.1).1 ?_ hrest
    intro d hd
    exact (bare_of_mem_numberChars (hchars.2 hd)).2

theorem isDigit_of_mem_toDigits {n : Nat} {c : Char} (h : c ∈ Nat.toDigits 10 n) :
    c.isDigit = true :=
  Nat.isDigit_of_mem_toDigits (by decide) (by decide) h

theorem mem_numberChars_of_mem_toDigits {n : Nat} {c : Char} (h : c ∈ Nat.toDigits 10 n) :
    c ∈ numberChars :=
  mem_numberChars_of_isDigit (isDigit_of_mem_toDigits h)

end NumeralLemmas

open NumeralLemmas

/-! ## Integers -/

namespace Numeral

theorem toList_toString (n : Int) :
    (toString n).toList = (if n < 0 then ['-'] else []) ++ Nat.toDigits 10 n.natAbs := by
  rw [Int.toString_eq_repr]
  cases n with
  | ofNat n => simp [Int.repr]
  | negSucc n => simp [Int.repr, Int.negSucc_lt_zero]

theorem mem_numberChars_of_mem_toString {n : Int} {c : Char} (h : c ∈ (toString n).toList) :
    c ∈ numberChars := by
  rw [toList_toString] at h
  rcases List.mem_append.mp h with hsign | hdigit
  · split at hsign
    · rw [List.mem_singleton.mp hsign]
      decide
    · cases hsign
  · exact mem_numberChars_of_mem_toDigits hdigit

theorem lexeme_int (n : Int) {rest : List Char} (hrest : Ends rest) :
    Lexeme .bare (toString n).toList rest := by
  refine lexeme_of_numberChars ?_ (fun _ => mem_numberChars_of_mem_toString) hrest
  rw [toList_toString]
  exact List.append_ne_nil_of_right_ne_nil _ Nat.toDigits_ne_nil

theorem isDigits_toDigits (n : Nat) : isDigits (Nat.toDigits 10 n) = true := by
  simpa [isDigits] using fun c (hc : c ∈ Nat.toDigits 10 n) => isDigit_of_mem_toDigits hc

theorem splitSign_toDigits (n : Nat) :
    splitSign (Nat.toDigits 10 n) = (false, Nat.toDigits 10 n) := by
  have hdigits : ∀ c ∈ Nat.toDigits 10 n, c.isDigit = true := fun _ => isDigit_of_mem_toDigits
  unfold splitSign
  split
  · next rest h =>
    rw [h, List.forall_mem_cons] at hdigits
    exact absurd hdigits.1 (by decide)
  · next rest h =>
    rw [h, List.forall_mem_cons] at hdigits
    exact absurd hdigits.1 (by decide)
  · rfl

/-- A whole number reads back. -/
theorem whole?_toString (n : Int) : whole? (toString n).toList = some n := by
  rw [toList_toString]
  by_cases hneg : n < 0
  · simp only [hneg, ↓reduceIte, List.cons_append, List.nil_append, whole?, splitSign,
      isDigits_toDigits, signed, digitsValue, Nat.ofDigitChars_ten_toDigits, Option.some.injEq]
    omega
  · simp only [hneg, ↓reduceIte, List.nil_append, whole?, splitSign_toDigits,
      isDigits_toDigits, signed, digitsValue, Nat.ofDigitChars_ten_toDigits, Option.some.injEq,
      Bool.false_eq_true]
    omega

theorem int64?_toString (n : Int64) : int64? (toString n.toInt).toList = some n := by
  have hlower := n.minValue_le_toInt
  have hupper := n.toInt_le
  simp only [int64?, whole?_toString, Option.bind_eq_bind, Option.bind_some, hlower, hupper,
    and_self, ↓reduceIte, Int64.ofInt_toInt]

end Numeral

/-! ## Floats -/

namespace NumeralLemmas

theorem mem_numberChars_of_mem_replicate {n : Nat} {c : Char} (h : c ∈ List.replicate n '0') :
    c ∈ numberChars := by
  rw [List.eq_of_mem_replicate h]
  decide

theorem mem_numberChars_of_mem_decimal {d : Decimal} {c : Char} (h : c ∈ d.toChars) :
    c ∈ numberChars := by
  have hpoint : '.' ∈ numberChars := by decide
  unfold Decimal.toChars at h
  dsimp only at h
  split at h
  · rcases List.mem_append.mp h with hdigit | hzero
    · exact mem_numberChars_of_mem_toDigits hdigit
    · exact mem_numberChars_of_mem_replicate hzero
  · -- Both sides of the point are cut out of one run of digits with zeros in front.
    have hpadded : ∀ places : Nat, c ∈ List.replicate places '0' ++ Nat.toDigits 10 d.coefficient →
        c ∈ numberChars := by
      intro places hc
      rcases List.mem_append.mp hc with hzero | hdigit
      · exact mem_numberChars_of_mem_replicate hzero
      · exact mem_numberChars_of_mem_toDigits hdigit
    rcases List.mem_append.mp h with hwhole | hfraction
    · exact hpadded _ (List.mem_of_mem_take hwhole)
    · rcases List.mem_cons.mp hfraction with rfl | hfraction
      · exact hpoint
      · exact hpadded _ (List.mem_of_mem_drop hfraction)

theorem toChars_ne_nil (d : Decimal) : d.toChars ≠ [] := by
  unfold Decimal.toChars
  dsimp only
  split <;> simp

end NumeralLemmas

namespace Binary64

theorem toChars_ne_nil (x : Binary64) : x.toChars ≠ [] := by
  unfold toChars
  split
  · decide
  · refine List.append_ne_nil_of_right_ne_nil _ ?_
    split
    · decide
    · exact List.append_ne_nil_of_left_ne_nil (NumeralLemmas.toChars_ne_nil _) _

theorem toChars_subset_numberChars (x : Binary64) : x.toChars ⊆ numberChars := by
  unfold toChars
  split
  · decide
  · refine List.append_subset.mpr ⟨by split <;> decide, ?_⟩
    split
    · decide
    · refine List.append_subset.mpr ⟨fun _ => mem_numberChars_of_mem_decimal, ?_⟩
      split <;> decide

/-- The text of a float is a bare token, also that of an infinity or a NaN. -/
theorem lexeme_toChars (x : Binary64) {rest : List Char} (hrest : Ends rest) :
    Lexeme .bare x.toChars rest :=
  lexeme_of_numberChars x.toChars_ne_nil x.toChars_subset_numberChars hrest

end Binary64

end MiniLisp
