import MiniLisp.Proofs.Equality

/-!
# Equality is structural

Values are equal if nothing tells them apart once metadata is erased. Erasure leaves no metadata at
any depth, and of a function only its name; floats are told apart by their 64 bits. So equality is
an equivalence relation, in which a NaN equals itself, and what equality cannot tell apart, printing
and the names of kinds cannot either. Attaching metadata to a value gives an equal value.

Results:
1. `Binary64.toBits_inj`: a float is given by its bits.
2. `Value.equivalence_beq`: equality is an equivalence relation.
3. `Value.beq_of_withMetadata`: metadata does not count for equality.
4. `Value.beq_structural`: all of it.
-/

namespace MiniLisp

variable {π : Type}

/-! ## Bits of floats -/

namespace Binary64

theorem toNat_toBits (x : Binary64) :
    x.toBits.toNat = (if x.negative then Nat.pow 2 63 else 0) + x.magnitude := by
  have hlt := x.magnitude_lt
  have hpow : Nat.pow 2 63 = 9223372036854775808 := rfl
  rw [toBits, UInt64.toNat_ofNat', Nat.mod_eq_of_lt]
  split <;> omega

/-- A float is given by its 64 bits. -/
theorem toBits_inj {x y : Binary64} : x.toBits = y.toBits ↔ x = y := by
  constructor
  · intro h
    have hbits := congrArg UInt64.toNat h
    have hx := x.magnitude_lt
    have hy := y.magnitude_lt
    rw [toNat_toBits, toNat_toBits] at hbits
    obtain ⟨negative, magnitude, _⟩ := x
    obtain ⟨negative', magnitude', _⟩ := y
    cases negative <;> cases negative' <;> simp at hbits hx hy ⊢ <;> omega
  · rintro rfl
    rfl

end Binary64

namespace Value

/-! ## Erasure -/

theorem kind_erase (value : Value π) : value.erase.kind = value.kind := by
  cases value <;> rfl

theorem erase_setMetadata (md : Option (Value π)) (value : Value π) :
    (value.setMetadata md).erase = value.erase := by
  cases value <;> rfl

/-! ## Metadata -/

theorem beq_of_withMetadata {value metadata result : Value π}
    (h : value.withMetadata metadata = .ok result) :
    (result == value) = true ∧ result.metadata? = some metadata := by
  have hplain : value.metadata? = none := by
    cases hmetadata : value.metadata? with
    | none => rfl
    | some md => simp [withMetadata, hmetadata] at h
  obtain ⟨htakes, rfl⟩ := (withMetadata_eq_ok_iff hplain).mp h
  exact ⟨(beq_iff_erase_eq _ _).mpr (erase_setMetadata _ value), metadata?_setMetadata htakes _⟩

/-! ## Equality -/

theorem equivalence_beq : Equivalence fun a b : Value π => (a == b) = true where
  refl a := (beq_iff_erase_eq a a).mpr rfl
  symm h := (beq_iff_erase_eq _ _).mpr ((beq_iff_erase_eq _ _).mp h).symm
  trans h h' :=
    (beq_iff_erase_eq _ _).mpr (((beq_iff_erase_eq _ _).mp h).trans ((beq_iff_erase_eq _ _).mp h'))

/-- Equality of values is structural equality after erasure.

Erasure leaves no metadata at any depth and no code of functions, and takes nothing else away;
floats are the same if their bits are. Equality is an equivalence relation. Equal values have the
same text in both styles, and kinds of the same name. A value with metadata attached equals the
value without it and gives the metadata back. Attaching fails for values that already have metadata
and for `nil` and `unit`, and for no others. -/
theorem beq_structural :
    (∀ a b : Value π, (a == b) = true ↔ a.erase = b.erase) ∧
      (∀ a inner : Value π, Within inner a.erase → inner.Stripped) ∧
      (∀ a : Value π, (∀ inner, Within inner a → inner.Stripped) → a.erase = a) ∧
      (∀ x y : Binary64, x = y ↔ x.toBits = y.toBits) ∧
      (Equivalence fun a b : Value π => (a == b) = true) ∧
      (∀ a b : Value π, (a == b) = true →
        (∀ style, a.print style = b.print style) ∧ a.kind.name = b.kind.name) ∧
      ∀ value metadata : Value π,
        (∀ result, value.withMetadata metadata = .ok result →
          (result == value) = true ∧ result.metadata? = some metadata) ∧
        ∀ error, value.withMetadata metadata = .error error ↔
          (value.metadata?.isSome = true ∧ error = .alreadyAttached value.kind) ∨
            ((value = .nil ∨ value = .unit) ∧ error = .unsupported value.kind) := by
  refine ⟨beq_iff_erase_eq, fun _ _ => Within.stripped_of_erase, fun _ => erase_eq_self,
    fun _ _ => Binary64.toBits_inj.symm, equivalence_beq, ?_, ?_⟩
  · intro a b h
    have herase : a.erase = b.erase := (beq_iff_erase_eq a b).mp h
    constructor
    · intro style
      rw [← print_erase, herase, print_erase]
    · rw [← kind_erase, herase, kind_erase]
  · intro value metadata
    exact ⟨fun _ => beq_of_withMetadata, fun _ => withMetadata_eq_error_iff⟩

/-- A NaN in a map and a function under a shorthand, once with metadata all over, and once without
and with other code of the function. -/
theorem beq_structural_nan :
    let form (body : Callable Empty) (md : Option (Value Empty)) : Value Empty :=
      .vector [.map [(.string "k", .atom (.float (.ofBits 0x7ff8000000000000)) md)] md,
        .sugar ⟨"quote"⟩ (.procedure ⟨⟨"+"⟩, body⟩ md) (some (.atom (.bool true) md)) none] none
    let marked := form (.arithmetic .add) (some .nil)
    let plain := form .invalid none
    (marked == plain) = true ∧ marked.erase = plain.erase ∧
      (∀ style, marked.print style = plain.print style) ∧
      ∃ noted, marked.withMetadata .unit = .ok noted ∧ (noted == marked) = true ∧
        noted.withMetadata .unit = .error (.alreadyAttached .vector) := by
  intro form marked plain
  obtain ⟨hequal, -, -, -, -, hprint, hattach⟩ := beq_structural (π := Empty)
  have hbeq : (marked == plain) = true := by decide
  have hnoted : marked.withMetadata .unit = .ok (marked.setMetadata (some .unit)) := rfl
  refine ⟨hbeq, (hequal _ _).mp hbeq, (hprint _ _ hbeq).1, _, hnoted, ?_, ?_⟩
  · exact ((hattach _ _).1 _ hnoted).1
  · exact ((hattach _ _).2 _).mpr (.inl ⟨rfl, rfl⟩)

end Value

end MiniLisp
