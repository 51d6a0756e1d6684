import MiniLisp.Proofs.Annotations
import MiniLisp.Proofs.PrintedFloats

/-!
# Floats in a source

Every float that the reader returns is the value of a numeral in the source, and never a NaN. It is
an infinity exactly if the value of the numeral is so large that it is not nearest to a finite
number: from the midpoint of the greatest finite number and the power of two behind it. An infinity
is printed by a name, which is read as a symbol. So a numeral survives reading, printing and reading
again exactly if it stays below that midpoint.

Results:
1. `Binary64.isFinite_ofDecimal_iff`: where the infinities begin.
2. `Grammar.IsForm.floats`: the floats in the tree of a form are denoted by its tokens.
3. `floats_of_read`: the floats that are read from a source.
4. `read_overflow`: infinities are among them.
-/

namespace MiniLisp

variable {π : Type}

/-! ## Overflow -/

namespace Binary64

/-- The least number that is not rounded to a finite one. It is the midpoint of the greatest finite
number, `2 ^ 1024 - 2 ^ 971`, and `2 ^ 1024`. -/
def leastOverflow : Nat := Nat.pow 2 1024 - Nat.pow 2 970

theorem midpoint_infinity :
    unitsOf (infinity - 1) + unitsOf infinity = 2 * (leastOverflow * unitsPerOne) := by
  decide +kernel

/-- At the midpoint itself the even one of the two is chosen, which is not finite. -/
theorem roundUnits_leastOverflow : roundUnits (leastOverflow * unitsPerOne) 1 = infinity := by
  decide +kernel

theorem roundUnits_eq_infinity_iff {n d : Nat} (hd : 0 < d) :
    roundUnits n d = infinity ↔ leastOverflow * unitsPerOne * d ≤ n := by
  have hbefore : infinity - 1 + 1 = infinity := by decide
  have hmidpoint := midpoint_infinity
  have heven := roundUnits_leastOverflow
  generalize leastOverflow * unitsPerOne = limit at hmidpoint heven ⊢
  constructor
  · intro hround
    refine Nat.le_of_not_lt fun hlt => ?_
    have hle : roundUnits n d ≤ infinity - 1 := by
      refine roundUnits_le_of_lt_midpoint hd ?_
      rw [hbefore, hmidpoint, Nat.mul_assoc]
      exact Nat.mul_lt_mul_of_pos_left hlt (by decide)
    rw [hround] at hle
    exact absurd hle (by decide)
  · intro hle
    rcases Nat.lt_or_eq_of_le hle with hlt | heq
    · refine Nat.le_antisymm (Nat.min_le_left _ _) ?_
      rw [← hbefore]
      refine le_roundUnits_of_midpoint_lt hd (by decide) ?_
      rw [hbefore, hmidpoint, Nat.mul_assoc]
      exact Nat.mul_lt_mul_of_pos_left hlt (by decide)
    · rw [← heven]
      exact roundUnits_congr hd Nat.one_pos (by rw [← heq, Nat.mul_one])

end Binary64

/-- The decimal is not nearest to a finite number. -/
def Decimal.Overflows (d : Decimal) : Prop :=
  Binary64.leastOverflow * Nat.pow 10 (-d.exponent).toNat ≤
    d.coefficient * Nat.pow 10 d.exponent.toNat

namespace Binary64

theorem isFinite_ofDecimal_iff {negative : Bool} {d : Decimal} :
    (ofDecimal negative d).isFinite = true ↔ ¬ d.Overflows := by
  have hle : (ofDecimal negative d).magnitude ≤ infinity := Nat.min_le_left _ _
  have hinfinite : (ofDecimal negative d).magnitude = infinity ↔ d.Overflows := by
    refine (roundUnits_eq_infinity_iff (pow_ten_pos _)).trans ?_
    rw [Nat.mul_right_comm, Nat.mul_le_mul_right_iff unitsPerOne_pos, Decimal.Overflows]
  rw [← hinfinite, isFinite, decide_eq_true_eq]
  omega

theorem isNaN_ofDecimal (negative : Bool) (d : Decimal) : (ofDecimal negative d).isNaN = false :=
  decide_eq_false (Nat.not_lt.mpr (Nat.min_le_left _ _))

end Binary64

/-! ## Numerals -/

open Numeral Grammar Value

instance (d : Decimal) : Decidable d.Overflows := inferInstanceAs (Decidable (_ ≤ _))

/-- The numeral is read as a decimal which overflows, with a sign or without one. -/
def Numeral.Overflows (cs : List Char) : Prop := ∃ d ∈ decimal? (splitSign cs).2, d.Overflows

instance : DecidablePred Numeral.Overflows := fun cs =>
  inferInstanceAs (Decidable (∃ d ∈ decimal? (splitSign cs).2, d.Overflows))

/-- A token that denotes a float is a decimal numeral, and the float is nearest to its value. -/
theorem exists_decimal_of_scalar {token : Token} {x : Binary64}
    (h : (scalar token : Value π) = .float x) :
    ∃ d, decimal? (splitSign token.toList).2 = some d ∧
      x = Binary64.ofDecimal (splitSign token.toList).1 d := by
  rcases scalar_kinds (π := π) token with ⟨k, _, hk⟩ | ⟨hdecimal, hwhole, _⟩ | ⟨_, _, hno⟩
  · cases hk.symm.trans h
  · obtain ⟨y, hy, hscalar⟩ := scalar_of_isDecimal (π := π) hdecimal hwhole
    cases hscalar.symm.trans h
    rw [binary64?_eq_map, Option.map_eq_some_iff] at hy
    obtain ⟨d, hd, hx⟩ := hy
    exact ⟨d, hd, hx.symm⟩
  · exact absurd h (hno x)

theorem scalar_eq_float {token : Token} {x : Binary64} (hint : int64? token.toList = none)
    (hx : binary64? token.toList = some x) : (scalar token : Value π) = .float x := by
  rw [scalar, hint, hx]

theorem isNaN_of_scalar {token : Token} {x : Binary64} (h : (scalar token : Value π) = .float x) :
    x.isNaN = false := by
  obtain ⟨d, _, rfl⟩ := exists_decimal_of_scalar h
  exact Binary64.isNaN_ofDecimal _ d

theorem isFinite_iff_of_scalar {token : Token} {x : Binary64}
    (h : (scalar token : Value π) = .float x) :
    x.isFinite = true ↔ ¬ Numeral.Overflows token.toList := by
  obtain ⟨d, hd, rfl⟩ := exists_decimal_of_scalar h
  rw [Binary64.isFinite_ofDecimal_iff, Numeral.Overflows, hd]
  simp

/-! ## The names of the other floats -/

theorem Binary64.toChars_of_not_isFinite {x : Binary64} (h : x.isFinite = false) :
    x.toChars ∈ ["NaN".toList, "Infinity".toList, "-Infinity".toList] := by
  unfold toChars
  split
  · decide
  · next hnan =>
    have hinfinite : x.isInfinite = true := by
      simp only [isFinite, isNaN, decide_eq_true_eq, decide_eq_false_iff_not] at h hnan
      exact decide_eq_true (Nat.le_antisymm (Nat.not_lt.mp hnan) (Nat.not_lt.mp h))
    rw [if_pos hinfinite]
    split <;> decide

/-- A float that is not finite has a name for a text, and the name is read as a symbol. -/
theorem scalar_print_of_not_isFinite {x : Binary64} (h : x.isFinite = false) :
    (scalar ((Atom.float x).print .readable) : Value π) =
      .symbol ⟨(Atom.float x).print .readable⟩ := by
  have htext : ((Atom.float x).print .readable).toList = x.toChars := String.toList_ofList
  have hnames : ∀ name ∈ ["NaN".toList, "Infinity".toList, "-Infinity".toList],
      looksNumeric name = false ∧ name ∉ constants.map String.toList := by decide
  obtain ⟨hlooks, hconstant⟩ := hnames _ (x.toChars_of_not_isFinite h)
  rw [← htext] at hlooks hconstant
  have hword : ¬ IsDecimal ((Atom.float x).print .readable).toList := by
    intro hdecimal
    rw [hdecimal.looksNumeric] at hlooks
    cases hlooks
  exact ((scalar_word hword).2.2 _).mpr ⟨rfl, fun hmem => hconstant (List.mem_map_of_mem hmem)⟩

/-- What the text of a float is read as. -/
theorem read_print_float_cases (x : Binary64) :
    read ((Atom.float x).print .readable) =
      .ok (if x.isFinite then .float x else .symbol ⟨(Atom.float x).print .readable⟩ : Value π) := by
  rw [read_print_atom_float]
  cases hfinite : x.isFinite with
  | true => rw [scalar_print_float hfinite, if_pos rfl]
  | false => rw [scalar_print_of_not_isFinite hfinite, if_neg Bool.false_ne_true]

/-! ## Floats in the tree of a form -/

theorem Grammar.Form.of_scalar {k : Nat} {token : Token} {rest : List Token} {value : Value π}
    (hleader : token ∉ leaders) (hcolon : token.toList.head? ≠ some ':')
    (hquote : token.toList.head? ≠ some '"') (hscalar : (scalar token : Value π) = value) :
    Form (k + 1) (token :: rest) value rest :=
  hscalar ▸ .literal hleader (.scalar hcolon hquote)

/-- A float is a form of one token. -/
theorem Grammar.IsForm.exists_token {tokens : List Token} {x : Binary64}
    (h : IsForm tokens (.float x : Value π)) :
    ∃ token ∈ tokens, (scalar token : Value π) = .float x := by
  obtain ⟨k, start, rest, hstart, hform⟩ := h
  generalize hvalue : (.float x : Value π) = value at hform
  cases hform with
  | collection _ hgather =>
    cases hgather with
    | map hmap =>
      obtain ⟨_, _, rfl⟩ := Value.mapOfItems_eq_ok hmap
      cases hvalue
    | _ => cases hvalue
  | shorthand _ _ => cases hvalue
  | annotated _ _ _ _ => cases hvalue
  | literal _ hdenotes =>
    cases hdenotes with
    | scalar _ _ => exact ⟨_, hstart.subset List.mem_cons_self, rfl⟩
    | _ => cases hvalue

/-- The floats of a form, those in its metadata included, are denoted by its tokens. -/
theorem Grammar.IsForm.floats {tokens : List Token} {value : Value π} (h : IsForm tokens value)
    {place : Place π} {x : Binary64} {md : Option (Value π)}
    (hnode : Node value place (.atom (.float x) md)) :
    ∃ token ∈ tokens, (scalar token : Value π) = .float x :=
  (InPlace.of_node h hnode).isForm.exists_token

theorem eq_unit_of_node {place : Place π} {x : Value π} (h : Node .unit place x) : x = .unit := by
  induction h with
  | top => rfl
  | child _ hchild ih =>
    subst ih
    cases hchild with
    | metadata hmetadata => cases hmetadata

/-! ## Floats in a source -/

/-- Every float in what is read from a source, at any depth and in metadata, is denoted by a token of
the source. It is no NaN, and it is finite exactly if the token does not overflow. Its text is read
as the same float if it is finite, and as a symbol if it is not. -/
theorem floats_of_read {source : String} {value : Value π} (hread : read source = .ok value)
    {place : Place π} {x : Binary64} {md : Option (Value π)}
    (hnode : Node value place (.atom (.float x) md)) :
    let text := (Value.float x : Value π).print .readable
    x.isNaN = false ∧
      (∃ token ∈ tokenize source, (scalar token : Value π) = .float x ∧
        (x.isFinite = true ↔ ¬ Numeral.Overflows token.toList)) ∧
      read text = .ok (if x.isFinite then .float x else .symbol ⟨text⟩ : Value π) := by
  have htoken : ∃ token ∈ tokenize source, (scalar token : Value π) = .float x := by
    rcases read_eq_ok_iff.mp hread with ⟨_, rfl⟩ | ⟨rest, hform⟩
    · cases eq_unit_of_node hnode
    · exact hform.isForm.floats hnode
  obtain ⟨token, hmem, hscalar⟩ := htoken
  exact ⟨isNaN_of_scalar hscalar, ⟨token, hmem, hscalar, isFinite_iff_of_scalar hscalar⟩,
    read_print_float_cases x⟩

/-- A vector of two floats, the second of which is an infinity. -/
theorem floats_of_read_vector :
    let lowest := Binary64.ofBits 0xfff0000000000000
    let value : Value Empty := .vector [.float (.ofBits 0x4004000000000000), .float lowest] none
    read "[2.5 -1e400]" = .ok value ∧ Node value (.under value .item) (.float lowest) ∧
      lowest.isNaN = false ∧ (∃ token ∈ tokenize "[2.5 -1e400]", Numeral.Overflows token.toList) ∧
      read ((Value.float lowest : Value Empty).print .readable) =
        .ok (.symbol ⟨"-Infinity"⟩ : Value Empty) := by
  intro lowest value
  have htokens : tokenize "[2.5 -1e400]" = ["[", "2.5", "-1e400", "]"] := by decide +kernel
  have hfirst : (scalar "2.5" : Value Empty) = .float (.ofBits 0x4004000000000000) :=
    scalar_eq_float (by decide +kernel) (by decide +kernel)
  have hsecond : (scalar "-1e400" : Value Empty) = .float lowest :=
    scalar_eq_float (by decide +kernel) (by decide +kernel)
  have hread : read "[2.5 -1e400]" = .ok value := by
    refine read_eq_ok_iff.mpr (.inr ⟨[], ?_⟩)
    rw [htokens]
    have hitems : Items 511 Bracket.vector.closer ["2.5", "-1e400", "]"]
        [Value.float (.ofBits 0x4004000000000000), .float lowest] [] :=
      .cons (by decide) (.of_scalar (by decide) (by decide) (by decide) hfirst)
        (.cons (by decide) (.of_scalar (by decide) (by decide) (by decide) hsecond) .nil)
    exact .collection hitems .vector
  have hnode : Node value (.under value .item) (.float lowest) :=
    .child .top (.vectorItem (by simp))
  have hfinite : lowest.isFinite = false := by decide +kernel
  obtain ⟨hnan, ⟨token, hmem, _, hoverflow⟩, hback⟩ := floats_of_read hread hnode
  refine ⟨hread, hnode, hnan, ⟨token, hmem, ?_⟩, ?_⟩
  · simpa [hfinite] using hoverflow
  · rw [hback, hfinite]
    rfl

/-- Not every numeral is that of a finite float, and the float of `1e400` is lost when it is printed:
its text is read as a symbol. -/
theorem read_overflow :
    (¬ ∀ (source : String) (value : Value Empty), read source = .ok value →
      ∀ place x md, Node value place (.atom (.float x) md) → x.isFinite = true) ∧
    ¬ ∀ (token : Token) (x : Binary64), (scalar token : Value Empty) = .float x →
      ∃ y, read ((Value.float x : Value Empty).print .readable) = .ok (.float y : Value Empty) := by
  let infinite := Binary64.ofBits 0x7ff0000000000000
  have hfinite : infinite.isFinite = false := by decide +kernel
  have hscalar : (scalar "1e400" : Value Empty) = .float infinite :=
    scalar_eq_float (by decide +kernel) (by decide +kernel)
  constructor
  · intro h
    have hread : read "1e400" = .ok (.float infinite : Value Empty) := by
      have htokens : tokenize "1e400" = ["1e400"] := by decide +kernel
      refine read_eq_ok_iff.mpr (.inr ⟨[], ?_⟩)
      rw [htokens]
      exact .of_scalar (by decide) (by decide) (by decide) hscalar
    exact absurd (h _ _ hread .top infinite none .top) (by rw [hfinite]; exact Bool.false_ne_true)
  · intro h
    obtain ⟨y, hy⟩ := h _ _ hscalar
    have hback := read_print_float_cases (π := Empty) infinite
    rw [hfinite] at hback
    cases hback.symm.trans hy

end MiniLisp
