import MiniLisp.Proofs.Numerals
import MiniLisp.Reader.Literal

/-!
# What a token denotes

Numerals are described by grammars that say nothing about how a text is taken apart. A token that is
neither a keyword nor a string is an integer if it is a whole numeral whose value has 64 bits, and a
float if it is any other numeral. A text is looked at twice before it becomes a float: once for its
characters, and once for its structure. The first look turns away the names of the numbers that are
not finite, and it turns away no numeral.

Results:
1. `Numeral.int64?_eq_some_iff`, `Numeral.exists_binary64?_iff`: what the two kinds of numerals are.
2. `Numeral.binary64?_eq_map`: the first look makes no difference to numerals.
3. `scalar_classified`: what each token denotes.
-/

namespace MiniLisp

variable {π : Type}

namespace Numeral

/-! ## Grammars -/

/-- The ten digits. -/
def digits : List Char := "0123456789".toList

/-- One or more digits. -/
def Digits (cs : List Char) : Prop := cs ≠ [] ∧ cs ⊆ digits

/-- A sign, or none. -/
def signs : List (List Char) := [[], ['+'], ['-']]

/-- `Whole cs n`: the text is an optional sign and digits, and has the value `n`. -/
inductive Whole : List Char → Int → Prop
  | mk {sign ds : List Char} : sign ∈ signs → Digits ds →
      Whole (sign ++ ds) (signed (sign = ['-']) (Nat.ofDigitChars 10 ds 0))

/-- The digits of a decimal numeral: there may be a point behind them, among them or before them. -/
inductive Significand : List Char → Prop
  | whole {ds : List Char} : Digits ds → Significand ds
  | pointed {ds fs : List Char} : Digits ds → fs ⊆ digits → Significand (ds ++ '.' :: fs)
  | fraction {fs : List Char} : Digits fs → Significand ('.' :: fs)

/-- The exponent of a decimal numeral, or nothing. -/
inductive Exponent : List Char → Prop
  | absent : Exponent []
  | present {mark : Char} {sign ds : List Char} : mark ∈ ['e', 'E'] → sign ∈ signs → Digits ds →
      Exponent (mark :: (sign ++ ds))

/-- A decimal numeral. -/
inductive IsDecimal : List Char → Prop
  | mk {sign s e : List Char} : sign ∈ signs → Significand s → Exponent e →
      IsDecimal (sign ++ (s ++ e))

/-- The whole numbers of 64 bits, from `-2 ^ 63` to `2 ^ 63 - 1`. -/
def FitsInt64 (n : Int) : Prop := -9223372036854775808 ≤ n ∧ n ≤ 9223372036854775807

/-! ## Digits -/

theorem isDigit_iff {c : Char} : c.isDigit = true ↔ c ∈ digits := by
  constructor
  · intro h
    simp only [Char.isDigit, Bool.and_eq_true, decide_eq_true_eq] at h
    have hrange : ∀ n < 58, 48 ≤ n → Char.ofNat n ∈ digits := by decide
    have hlower : 48 ≤ c.toNat := h.1
    have hupper : c.toNat ≤ 57 := h.2
    rw [← Char.ofNat_toNat c]
    exact hrange c.toNat (Nat.lt_succ_of_le hupper) hlower
  · intro h
    have hall : digits.all Char.isDigit = true := by decide
    exact List.all_eq_true.mp hall c h

theorem isDigits_iff {cs : List Char} : isDigits cs = true ↔ Digits cs := by
  simp only [isDigits, Digits, Bool.and_eq_true, Bool.not_eq_true', List.isEmpty_eq_false_iff,
    List.all_eq_true, isDigit_iff]
  rfl

theorem isDigit_of_subset {cs : List Char} (h : cs ⊆ digits) : ∀ c ∈ cs, c.isDigit = true :=
  fun _ hc => isDigit_iff.mpr (h hc)

theorem takeWhile_append_digits {ds rest : List Char} (h : ds ⊆ digits) :
    (ds ++ rest).takeWhile Char.isDigit = ds ++ rest.takeWhile Char.isDigit :=
  List.takeWhile_append_of_pos (isDigit_of_subset h)

theorem dropWhile_append_digits {ds rest : List Char} (h : ds ⊆ digits) :
    (ds ++ rest).dropWhile Char.isDigit = rest.dropWhile Char.isDigit :=
  List.dropWhile_append_of_pos (isDigit_of_subset h)

theorem takeWhile_subset_digits (cs : List Char) : cs.takeWhile Char.isDigit ⊆ digits := by
  intro c hc
  have hall : (cs.takeWhile Char.isDigit).all Char.isDigit = true := List.all_takeWhile
  exact isDigit_iff.mp (List.all_eq_true.mp hall c hc)

/-! ## Signs -/

/-- A text that starts with a digit or a point has no sign. -/
def Unsigned (cs : List Char) : Prop := ∃ c rest, cs = c :: rest ∧ c ∈ '.' :: digits

theorem Digits.unsigned_append {ds : List Char} (h : Digits ds) (rest : List Char) :
    Unsigned (ds ++ rest) := by
  obtain ⟨hne, hsub⟩ := h
  cases ds with
  | nil => exact absurd rfl hne
  | cons c ds => exact ⟨c, ds ++ rest, rfl, List.mem_cons_of_mem _ (List.cons_subset.mp hsub).1⟩

theorem splitSign_append {sign rest : List Char} (hsign : sign ∈ signs) (hrest : Unsigned rest) :
    splitSign (sign ++ rest) = (decide (sign = ['-']), rest) := by
  obtain ⟨c, rest, rfl, hc⟩ := hrest
  have hne : c ≠ '+' ∧ c ≠ '-' := by
    constructor
    · rintro rfl
      exact absurd hc (by decide)
    · rintro rfl
      exact absurd hc (by decide)
  simp only [signs, List.mem_cons, List.not_mem_nil, or_false] at hsign
  rcases hsign with rfl | rfl | rfl
  · simp [splitSign, hne]
  · rfl
  · rfl

/-- Every text has one of the signs in front of what is left without it. -/
theorem exists_sign (cs : List Char) :
    ∃ sign ∈ signs, cs = sign ++ (splitSign cs).2 ∧ (splitSign cs).1 = decide (sign = ['-']) := by
  unfold splitSign
  split
  · exact ⟨['-'], by decide, rfl, rfl⟩
  · exact ⟨['+'], by decide, rfl, rfl⟩
  · exact ⟨[], by decide, rfl, rfl⟩

/-! ## Whole numerals -/

theorem whole?_eq (cs : List Char) :
    whole? cs = if isDigits (splitSign cs).2 = true then
      some (signed (splitSign cs).1 (digitsValue (splitSign cs).2)) else none := rfl

theorem whole?_eq_some_iff {cs : List Char} {n : Int} : whole? cs = some n ↔ Whole cs n := by
  constructor
  · intro h
    obtain ⟨sign, hsign, hcs, hnegative⟩ := exists_sign cs
    rw [whole?_eq, hnegative] at h
    generalize (splitSign cs).2 = ds at h hcs
    subst hcs
    split at h
    · next hdigits =>
      cases h
      exact .mk hsign (isDigits_iff.mp hdigits)
    · cases h
  · rintro ⟨hsign, hds⟩
    have hunsigned := hds.unsigned_append []
    rw [List.append_nil] at hunsigned
    rw [whole?_eq, splitSign_append hsign hunsigned, if_pos (isDigits_iff.mpr hds), digitsValue]

theorem fitsInt64_iff {n : Int} :
    FitsInt64 n ↔ Int64.minValue.toInt ≤ n ∧ n ≤ Int64.maxValue.toInt := by
  have hmin : Int64.minValue.toInt = -9223372036854775808 := by decide
  have hmax : Int64.maxValue.toInt = 9223372036854775807 := by decide
  rw [FitsInt64, hmin, hmax]

theorem fitsInt64_toInt (k : Int64) : FitsInt64 k.toInt :=
  fitsInt64_iff.mpr ⟨k.minValue_le_toInt, k.toInt_le⟩

theorem FitsInt64.exists_toInt {n : Int} (h : FitsInt64 n) : ∃ k : Int64, k.toInt = n :=
  ⟨Int64.ofInt n, Int64.toInt_ofInt_of_le h.1 (Int.lt_add_one_of_le h.2)⟩

theorem int64?_eq_some_iff {cs : List Char} {k : Int64} :
    int64? cs = some k ↔ Whole cs k.toInt := by
  rw [← whole?_eq_some_iff, int64?, Option.bind_eq_bind, Option.bind_eq_some_iff]
  constructor
  · rintro ⟨n, hn, hk⟩
    split at hk
    · next hfits =>
      cases hk
      obtain ⟨k, rfl⟩ := (fitsInt64_iff.mpr hfits).exists_toInt
      rw [hn, Int64.ofInt_toInt]
    · cases hk
  · intro h
    have hfits := fitsInt64_iff.mp (fitsInt64_toInt k)
    exact ⟨k.toInt, h, by rw [if_pos hfits, Int64.ofInt_toInt]⟩

/-! ## Decimal numerals -/

theorem exponent?_cons (mark : Char) (rest : List Char) :
    exponent? (mark :: rest) =
      if (mark = 'e' ∨ mark = 'E') ∧ isDigits (splitSign rest).2 = true then
        some (signed (splitSign rest).1 (exponentValue (splitSign rest).2)) else none := rfl

theorem exists_exponent?_iff {cs : List Char} : (∃ k, exponent? cs = some k) ↔ Exponent cs := by
  constructor
  · rintro ⟨k, h⟩
    cases cs with
    | nil => exact .absent
    | cons mark rest =>
      rw [exponent?_cons] at h
      obtain ⟨sign, hsign, hrest, _⟩ := exists_sign rest
      generalize (splitSign rest).2 = ds at h hrest
      subst hrest
      split at h
      · next hexponent =>
        obtain ⟨hmark, hds⟩ := hexponent
        exact .present (by simpa using hmark) hsign (isDigits_iff.mp hds)
      · cases h
  · rintro (_ | ⟨hmark, hsign, hds⟩)
    · exact ⟨0, rfl⟩
    · have hunsigned := hds.unsigned_append []
      rw [List.append_nil] at hunsigned
      rw [exponent?_cons, splitSign_append hsign hunsigned,
        if_pos ⟨by simpa using hmark, isDigits_iff.mpr hds⟩]
      exact ⟨_, rfl⟩

/-- The digits of a significand end where its exponent starts. -/
theorem splits_of_exponent? {e : List Char} {k : Int} (h : exponent? e = some k) :
    e.takeWhile Char.isDigit = [] ∧ e.dropWhile Char.isDigit = e ∧ splitFraction e = ([], e) := by
  rcases exists_exponent?_iff.mp ⟨k, h⟩ with _ | ⟨hmark, _, _⟩
  · exact ⟨rfl, rfl, rfl⟩
  · simp only [List.mem_cons, List.not_mem_nil, or_false] at hmark
    rcases hmark with rfl | rfl <;> exact ⟨rfl, rfl, rfl⟩

/-- The value of a numeral without a point. -/
theorem decimal?_whole {ds e : List Char} {k : Int} (hds : Digits ds) (he : exponent? e = some k) :
    decimal? (ds ++ e) = some ⟨digitsValue ds, k⟩ := by
  obtain ⟨htake, hdrop, hsplit⟩ := splits_of_exponent? he
  simp [decimal?, takeWhile_append_digits hds.2, dropWhile_append_digits hds.2, htake, hdrop,
    hsplit, he, hds.1]

/-- The value of a numeral with a point. -/
theorem decimal?_pointed {ds fs e : List Char} {k : Int} (hds : ds ⊆ digits) (hfs : fs ⊆ digits)
    (hne : ds ++ fs ≠ []) (he : exponent? e = some k) :
    decimal? (ds ++ '.' :: (fs ++ e)) = some ⟨digitsValue (ds ++ fs), k - (fs.length : Int)⟩ := by
  obtain ⟨htake, hdrop, _⟩ := splits_of_exponent? he
  have hempty : (ds.isEmpty && fs.isEmpty) = false := by
    cases ds with
    | nil => simpa using hne
    | cons c ds => rfl
  have hpoint : ('.' :: (fs ++ e)).takeWhile Char.isDigit = [] := rfl
  have hrest : ('.' :: (fs ++ e)).dropWhile Char.isDigit = '.' :: (fs ++ e) := rfl
  simp [decimal?, takeWhile_append_digits hds, dropWhile_append_digits hds, hpoint, hrest,
    splitFraction, takeWhile_append_digits hfs, dropWhile_append_digits hfs, htake, hdrop, he, hempty]

theorem decimal?_eq (cs : List Char) :
    decimal? cs =
      if ((cs.takeWhile Char.isDigit).isEmpty &&
        (splitFraction (cs.dropWhile Char.isDigit)).1.isEmpty) = true then none
      else (exponent? (splitFraction (cs.dropWhile Char.isDigit)).2).map fun k =>
        ⟨digitsValue (cs.takeWhile Char.isDigit ++ (splitFraction (cs.dropWhile Char.isDigit)).1),
          k - ((splitFraction (cs.dropWhile Char.isDigit)).1.length : Int)⟩ := rfl

/-- What follows the first digits either starts with a point, or has no part in the significand. -/
theorem splitFraction_cases (cs : List Char) :
    (∃ fs rest, cs = '.' :: (fs ++ rest) ∧ fs ⊆ digits ∧ splitFraction cs = (fs, rest)) ∨
      splitFraction cs = ([], cs) := by
  unfold splitFraction
  split
  · next rest =>
    exact .inl ⟨_, _, by rw [List.takeWhile_append_dropWhile], takeWhile_subset_digits rest, rfl⟩
  · exact .inr rfl

theorem exists_decimal?_iff {cs : List Char} :
    (∃ d, decimal? cs = some d) ↔ ∃ s e, Significand s ∧ Exponent e ∧ cs = s ++ e := by
  constructor
  · rintro ⟨d, h⟩
    have hcs : cs.takeWhile Char.isDigit ++ cs.dropWhile Char.isDigit = cs :=
      List.takeWhile_append_dropWhile
    have hds := takeWhile_subset_digits cs
    rw [decimal?_eq] at h
    generalize cs.takeWhile Char.isDigit = ds, cs.dropWhile Char.isDigit = others at h hcs hds
    subst hcs
    split at h
    · cases h
    · next hempty =>
      obtain ⟨k, hk, _⟩ := Option.map_eq_some_iff.mp h
      have hexponent := exists_exponent?_iff.mp ⟨k, hk⟩
      rcases splitFraction_cases others with ⟨fs, rest, rfl, hfs, hsplit⟩ | hsplit
      · rw [hsplit] at hexponent hempty
        refine ⟨ds ++ '.' :: fs, rest, ?_, hexponent, by simp⟩
        cases ds with
        | nil => exact .fraction ⟨by simpa using hempty, hfs⟩
        | cons c ds => exact .pointed ⟨List.cons_ne_nil c ds, hds⟩ hfs
      · rw [hsplit] at hexponent hempty
        exact ⟨ds, others, .whole ⟨by simpa using hempty, hds⟩, hexponent, rfl⟩
  · rintro ⟨s, e, hs, he, rfl⟩
    obtain ⟨k, hk⟩ := exists_exponent?_iff.mpr he
    cases hs with
    | whole hds => exact ⟨_, decimal?_whole hds hk⟩
    | @pointed ds fs hds hfs =>
      have hne : ds ++ fs ≠ [] := List.append_ne_nil_of_left_ne_nil hds.1 fs
      rw [List.append_assoc, List.cons_append]
      exact ⟨_, decimal?_pointed hds.2 hfs hne hk⟩
    | fraction hfs => exact ⟨_, decimal?_pointed (List.nil_subset _) hfs.2 hfs.1 hk⟩

theorem Significand.unsigned_append {s : List Char} (h : Significand s) (rest : List Char) :
    Unsigned (s ++ rest) := by
  cases h with
  | whole hds => exact hds.unsigned_append rest
  | pointed hds _ =>
    rw [List.append_assoc]
    exact hds.unsigned_append _
  | fraction _ => exact ⟨'.', _, rfl, List.mem_cons_self⟩

theorem exists_decimal?_splitSign_iff {cs : List Char} :
    (∃ d, decimal? (splitSign cs).2 = some d) ↔ IsDecimal cs := by
  constructor
  · intro h
    obtain ⟨sign, hsign, hcs, _⟩ := exists_sign cs
    obtain ⟨s, e, hs, he, hse⟩ := exists_decimal?_iff.mp h
    rw [hcs, hse]
    exact .mk hsign hs he
  · rintro ⟨hsign, hs, he⟩
    rw [splitSign_append hsign (hs.unsigned_append _)]
    exact exists_decimal?_iff.mpr ⟨_, _, hs, he, rfl⟩

/-- A whole numeral is a decimal numeral as well. -/
theorem Whole.isDecimal {cs : List Char} {n : Int} (h : Whole cs n) : IsDecimal cs := by
  obtain ⟨hsign, hds⟩ := h
  rw [← List.append_nil (_ ++ _), List.append_assoc]
  exact .mk hsign (.whole hds) .absent

/-! ## The characters of numerals -/

/-- The characters that occur in numerals. -/
def numeralChars : List Char := digits ++ ['+', '-', '.', 'e', 'E']

theorem looksNumeric_iff {cs : List Char} :
    looksNumeric cs = true ↔ (∃ c ∈ cs, c ∈ digits) ∧ cs ⊆ numeralChars := by
  simp only [looksNumeric, Bool.and_eq_true, List.any_eq_true, List.all_eq_true, Bool.or_eq_true,
    decide_eq_true_eq, isDigit_iff, numeralChars, ← List.mem_append]
  rfl

theorem digits_subset_numeralChars : digits ⊆ numeralChars := List.subset_append_left _ _

theorem subset_numeralChars_of_mem_signs {sign : List Char} (h : sign ∈ signs) :
    sign ⊆ numeralChars := by
  have hall : ∀ sign ∈ signs, sign ⊆ numeralChars := by decide
  exact hall sign h

theorem Digits.exists_mem {ds : List Char} (h : Digits ds) : ∃ c ∈ ds, c ∈ digits := by
  obtain ⟨c, hc⟩ := List.exists_mem_of_ne_nil ds h.1
  exact ⟨c, hc, h.2 hc⟩

theorem Digits.subset_numeralChars {ds : List Char} (h : Digits ds) : ds ⊆ numeralChars :=
  List.Subset.trans h.2 digits_subset_numeralChars

theorem Significand.looksNumeric {s : List Char} (h : Significand s) :
    Numeral.looksNumeric s = true := by
  have hpoint : '.' ∈ numeralChars := by decide
  rw [looksNumeric_iff]
  cases h with
  | whole hds => exact ⟨hds.exists_mem, hds.subset_numeralChars⟩
  | pointed hds hfs =>
    obtain ⟨c, hc, hdigit⟩ := hds.exists_mem
    refine ⟨⟨c, List.mem_append_left _ hc, hdigit⟩, ?_⟩
    exact List.append_subset.mpr ⟨hds.subset_numeralChars,
      List.cons_subset.mpr ⟨hpoint, List.Subset.trans hfs digits_subset_numeralChars⟩⟩
  | fraction hfs =>
    obtain ⟨c, hc, hdigit⟩ := hfs.exists_mem
    exact ⟨⟨c, List.mem_cons_of_mem _ hc, hdigit⟩,
      List.cons_subset.mpr ⟨hpoint, hfs.subset_numeralChars⟩⟩

theorem Exponent.subset_numeralChars {e : List Char} (h : Exponent e) : e ⊆ numeralChars := by
  cases h with
  | absent => exact List.nil_subset _
  | present hmark hsign hds =>
    have hmarks : ['e', 'E'] ⊆ numeralChars := by decide
    exact List.cons_subset.mpr ⟨hmarks hmark,
      List.append_subset.mpr ⟨subset_numeralChars_of_mem_signs hsign, hds.subset_numeralChars⟩⟩

/-- A decimal numeral looks like one. -/
theorem IsDecimal.looksNumeric {cs : List Char} (h : IsDecimal cs) :
    Numeral.looksNumeric cs = true := by
  obtain ⟨hsign, hs, he⟩ := h
  obtain ⟨⟨c, hc, hdigit⟩, hsub⟩ := looksNumeric_iff.mp hs.looksNumeric
  refine looksNumeric_iff.mpr ⟨⟨c, ?_, hdigit⟩, ?_⟩
  · exact List.mem_append_right _ (List.mem_append_left _ hc)
  · exact List.append_subset.mpr ⟨subset_numeralChars_of_mem_signs hsign,
      List.append_subset.mpr ⟨hsub, he.subset_numeralChars⟩⟩

/-- The names of the numbers that are not finite start with letters that no numeral has. -/
theorem nonFinite?_eq_none (negative : Bool) {cs : List Char} (h : cs ⊆ numeralChars) :
    nonFinite? negative cs = none := by
  have hletters : numeralChars.all (fun c => c.toLower != 'i' && c.toLower != 'n') = true := by decide
  cases cs with
  | nil => rfl
  | cons c cs =>
    have hfirst := List.all_eq_true.mp hletters c (List.cons_subset.mp h).1
    simp only [Bool.and_eq_true, bne_iff_ne] at hfirst
    simp [nonFinite?, hfirst]

theorem number?_eq (cs : List Char) :
    number? cs = ((decimal? (splitSign cs).2).map (Binary64.ofDecimal (splitSign cs).1)).or
      (nonFinite? (splitSign cs).1 (splitSign cs).2) := rfl

/-- Looking at the characters first makes no difference to numerals, and leaves nothing but
numerals. -/
theorem binary64?_eq_map (cs : List Char) :
    binary64? cs = (decimal? (splitSign cs).2).map (Binary64.ofDecimal (splitSign cs).1) := by
  unfold binary64?
  split
  · next hlooks =>
    obtain ⟨sign, _, hcs, _⟩ := exists_sign cs
    have hsub := (looksNumeric_iff.mp hlooks).2
    rw [hcs, List.append_subset] at hsub
    rw [number?_eq, nonFinite?_eq_none _ hsub.2, Option.or_none]
  · next hlooks =>
    cases hd : decimal? (splitSign cs).2 with
    | none => rfl
    | some d => exact absurd (exists_decimal?_splitSign_iff.mp ⟨d, hd⟩).looksNumeric hlooks

theorem exists_binary64?_iff {cs : List Char} : (∃ x, binary64? cs = some x) ↔ IsDecimal cs := by
  rw [← exists_decimal?_splitSign_iff, binary64?_eq_map]
  simp only [Option.map_eq_some_iff]
  constructor
  · rintro ⟨_, d, hd, _⟩
    exact ⟨d, hd⟩
  · rintro ⟨d, hd⟩
    exact ⟨_, d, hd, rfl⟩

end Numeral

open Numeral

/-! ## Tokens -/

/-- The words that denote constants. -/
def constants : List Token := ["true", "false", "nil"]

theorem not_isDecimal_of_mem_constants {token : Token} (h : token ∈ constants) :
    ¬ IsDecimal token.toList := by
  intro hdecimal
  have hlooks : ∀ token ∈ constants, looksNumeric token.toList = false := by decide
  exact absurd hdecimal.looksNumeric (by simp [hlooks token h])

theorem scalar_of_whole {token : Token} {k : Int64} (h : Whole token.toList k.toInt) :
    (scalar token : Value π) = .int k := by
  rw [scalar, int64?_eq_some_iff.mpr h]

theorem int64?_eq_none {token : Token} (h : ¬ ∃ n, Whole token.toList n ∧ FitsInt64 n) :
    int64? token.toList = none := by
  cases hint : int64? token.toList with
  | none => rfl
  | some k => exact absurd ⟨k.toInt, int64?_eq_some_iff.mp hint, fitsInt64_toInt k⟩ h

theorem scalar_of_isDecimal {token : Token} (h : IsDecimal token.toList)
    (hwhole : ¬ ∃ n, Whole token.toList n ∧ FitsInt64 n) :
    ∃ x, binary64? token.toList = some x ∧ (scalar token : Value π) = .float x := by
  obtain ⟨x, hx⟩ := exists_binary64?_iff.mpr h
  exact ⟨x, hx, by rw [scalar, int64?_eq_none hwhole, hx]⟩

theorem scalar_of_not_isDecimal {token : Token} (h : ¬ IsDecimal token.toList) :
    (scalar token : Value π) =
      if token = "true" then .bool true else if token = "false" then .bool false
      else if token = "nil" then .nil else .symbol ⟨token⟩ := by
  have hint : int64? token.toList = none := by
    refine int64?_eq_none ?_
    rintro ⟨_, hwhole, _⟩
    exact h hwhole.isDecimal
  have hbinary : binary64? token.toList = none := by
    cases hx : binary64? token.toList with
    | none => rfl
    | some x => exact absurd (exists_binary64?_iff.mp ⟨x, hx⟩) h
  rw [scalar, hint, hbinary]

/-- The words among the tokens. -/
theorem scalar_word {token : Token} (h : ¬ IsDecimal token.toList) :
    (∀ b, (scalar token : Value π) = .bool b ↔ token = if b then "true" else "false") ∧
      ((scalar token : Value π) = .nil ↔ token = "nil") ∧
      ∀ s, (scalar token : Value π) = .symbol s ↔ s.name = token ∧ token ∉ constants := by
  rw [scalar_of_not_isDecimal h]
  by_cases htrue : token = "true"
  · subst htrue
    simp [Value.bool, Value.symbol, constants]
  by_cases hfalse : token = "false"
  · subst hfalse
    simp [Value.bool, Value.symbol, constants]
  by_cases hnil : token = "nil"
  · subst hnil
    simp [Value.bool, Value.symbol, constants]
  rw [if_neg htrue, if_neg hfalse, if_neg hnil]
  refine ⟨?_, by simp [Value.symbol, hnil], ?_⟩
  · intro b
    cases b <;> simp [Value.bool, Value.symbol, htrue, hfalse]
  · rintro ⟨name⟩
    simp [Value.symbol, constants, htrue, hfalse, hnil, eq_comm]

/-- The three kinds of tokens. -/
theorem scalar_kinds (token : Token) :
    (∃ k : Int64, Whole token.toList k.toInt ∧ (scalar token : Value π) = .int k) ∨
      (IsDecimal token.toList ∧ (¬ ∃ n, Whole token.toList n ∧ FitsInt64 n) ∧
        ∃ x, (scalar token : Value π) = .float x) ∨
      (¬ IsDecimal token.toList ∧ (∀ k, (scalar token : Value π) ≠ .int k) ∧
        ∀ x, (scalar token : Value π) ≠ .float x) := by
  by_cases hwhole : ∃ n, Whole token.toList n ∧ FitsInt64 n
  · obtain ⟨n, hwhole, hfits⟩ := hwhole
    obtain ⟨k, rfl⟩ := hfits.exists_toInt
    exact .inl ⟨k, hwhole, scalar_of_whole hwhole⟩
  by_cases hdecimal : IsDecimal token.toList
  · obtain ⟨x, _, hx⟩ := scalar_of_isDecimal (π := π) hdecimal hwhole
    exact .inr (.inl ⟨hdecimal, hwhole, x, hx⟩)
  · refine .inr (.inr ⟨hdecimal, ?_⟩)
    rw [scalar_of_not_isDecimal hdecimal]
    split
    · simp [Value.bool, Value.int, Value.float]
    split
    · simp [Value.bool, Value.int, Value.float]
    split <;> simp [Value.symbol, Value.int, Value.float]

theorem kind_scalar {token : Token} (h : IsDecimal token.toList) :
    (scalar token : Value π).kind = .int ∨ (scalar token : Value π).kind = .float := by
  rcases scalar_kinds (π := π) token with ⟨k, _, hk⟩ | ⟨_, _, x, hx⟩ | ⟨hno, _⟩
  · rw [hk]
    exact .inl rfl
  · rw [hx]
    exact .inr rfl
  · exact absurd h hno

/-- What a token denotes is settled by the grammars.

* It is the integer `n` if it is a whole numeral with the value `n`, and `n` has 64 bits.
* It is a float if it is any other decimal numeral, a whole numeral that is out of range included.
* Three words are constants.
* Every other token is the symbol that has the token as its name. -/
theorem scalar_classified (token : Token) :
    (∀ n, (∃ k : Int64, k.toInt = n ∧ (scalar token : Value π) = .int k) ↔
      Whole token.toList n ∧ FitsInt64 n) ∧
    ((∃ x, (scalar token : Value π) = .float x) ↔
      IsDecimal token.toList ∧ ¬ ∃ n, Whole token.toList n ∧ FitsInt64 n) ∧
    (∀ b, (scalar token : Value π) = .bool b ↔ token = if b then "true" else "false") ∧
    ((scalar token : Value π) = .nil ↔ token = "nil") ∧
    (∀ s, (scalar token : Value π) = .symbol s ↔
      s.name = token ∧ ¬ IsDecimal token.toList ∧ token ∉ constants) := by
  refine ⟨fun n => ⟨?_, ?_⟩, ⟨?_, ?_⟩, ?_⟩
  · rintro ⟨k, rfl, hk⟩
    refine ⟨?_, fitsInt64_toInt k⟩
    rcases scalar_kinds (π := π) token with ⟨j, hwhole, hj⟩ | ⟨_, _, x, hx⟩ | ⟨_, hno, _⟩
    · cases hj.symm.trans hk
      exact hwhole
    · cases hx.symm.trans hk
    · exact absurd hk (hno k)
  · rintro ⟨hwhole, hfits⟩
    obtain ⟨k, rfl⟩ := hfits.exists_toInt
    exact ⟨k, rfl, scalar_of_whole hwhole⟩
  · rintro ⟨x, hx⟩
    rcases scalar_kinds (π := π) token with ⟨j, _, hj⟩ | ⟨hdecimal, hwhole, _⟩ | ⟨_, _, hno⟩
    · cases hj.symm.trans hx
    · exact ⟨hdecimal, hwhole⟩
    · exact absurd hx (hno x)
  · rintro ⟨hdecimal, hwhole⟩
    obtain ⟨x, _, hx⟩ := scalar_of_isDecimal (π := π) hdecimal hwhole
    exact ⟨x, hx⟩
  · by_cases hdecimal : IsDecimal token.toList
    · -- A numeral is no word, and what it denotes is a number.
      have hword : token ∉ constants := fun h => not_isDecimal_of_mem_constants h hdecimal
      have hkind := kind_scalar (π := π) hdecimal
      refine ⟨fun b => iff_of_false ?_ ?_, iff_of_false ?_ ?_, fun s => iff_of_false ?_ ?_⟩
      · intro h
        simp [h, Value.bool, Value.kind, Atom.kind] at hkind
      · rintro rfl
        cases b <;> exact hword (by decide)
      · intro h
        simp [h, Value.kind] at hkind
      · rintro rfl
        exact hword (by decide)
      · intro h
        simp [h, Value.symbol, Value.kind, Atom.kind] at hkind
      · exact fun h => h.2.1 hdecimal
    · obtain ⟨hbool, hnil, hsymbol⟩ := scalar_word (π := π) hdecimal
      refine ⟨hbool, hnil, fun s => ?_⟩
      rw [hsymbol, and_iff_right hdecimal]

end MiniLisp
