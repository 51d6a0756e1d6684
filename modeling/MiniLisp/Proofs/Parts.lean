import MiniLisp.Value.Basic

/-!
# Parts and height of values

The *parts* of a value are the values that it is made of: the items of a list or a vector, the
values of a map, and the forms of a shorthand. Metadata is no part, and neither are the keys of a
map.

1. `Value.induction_parts`: a property that passes from the parts of a value to the value holds of
   all values. All later inductions over values are of this kind.
2. `Value.Within`: a value occurs in another one, at any depth.
3. `Value.height`: how deep the parts of a value lie inside each other.
-/

namespace MiniLisp.Value

variable {π : Type}

/-! ## Parts -/

/-- The values that a value is made of. -/
def parts : Value π → List (Value π)
  | .nil => []
  | .unit => []
  | .atom _ _ => []
  | .list items _ => items
  | .vector items _ => items
  | .map entries _ => entries.map Prod.snd
  | .procedure _ _ => []
  | .sugar _ form metaForm _ => form :: metaForm.toList

theorem sizeOf_lt_of_mem_parts {part value : Value π} (h : part ∈ value.parts) :
    sizeOf part < sizeOf value := by
  cases value with
  | nil => cases h
  | unit => cases h
  | atom _ _ => cases h
  | list items md =>
    have hitem : sizeOf part < sizeOf items := List.sizeOf_lt_of_mem h
    simp only [list.sizeOf_spec]
    omega
  | vector items md =>
    have hitem : sizeOf part < sizeOf items := List.sizeOf_lt_of_mem h
    simp only [vector.sizeOf_spec]
    omega
  | map entries md =>
    obtain ⟨⟨key, _⟩, hmem, rfl⟩ := List.mem_map.mp h
    have hentry := List.sizeOf_lt_of_mem hmem
    simp only [Prod.mk.sizeOf_spec, map.sizeOf_spec] at hentry ⊢
    omega
  | procedure _ _ => cases h
  | sugar tag form metaForm md =>
    simp only [parts, List.mem_cons, Option.mem_toList] at h
    rcases h with rfl | rfl
    · simp only [sugar.sizeOf_spec]
      omega
    · simp only [sugar.sizeOf_spec, Option.some.sizeOf_spec]
      omega

/-- A property that a value has whenever its parts have it holds of all values. -/
@[elab_as_elim]
theorem induction_parts {motive : Value π → Prop}
    (step : ∀ value : Value π, (∀ part ∈ value.parts, motive part) → motive value)
    (value : Value π) : motive value :=
  step value fun part h =>
    have := sizeOf_lt_of_mem_parts h
    induction_parts step part
termination_by sizeOf value

/-! ## Occurrence -/

/-- `Within inner outer`: the value `inner` is `outer` or occurs in one of its parts. -/
inductive Within (inner : Value π) : Value π → Prop
  | refl : Within inner inner
  | part {part outer : Value π} : part ∈ outer.parts → Within inner part → Within inner outer

/-! ## Height -/

mutual

/-- How many levels a value has. An atom and an empty collection have one. -/
def height : Value π → Nat
  | .nil => 1
  | .unit => 1
  | .atom _ _ => 1
  | .list items _ => heightItems items + 1
  | .vector items _ => heightItems items + 1
  | .map entries _ => heightEntries entries + 1
  | .procedure _ _ => 1
  | .sugar _ form metaForm _ => max (height form) (heightOption metaForm) + 1
termination_by structural v => v

/-- The greatest height of the values in a sequence. -/
def heightItems : List (Value π) → Nat
  | [] => 0
  | x :: xs => max (height x) (heightItems xs)
termination_by structural vs => vs

/-- The greatest height of the keys and values of a map. A key has one level. -/
def heightEntries : List (MapKey × Value π) → Nat
  | [] => 0
  | (_, x) :: xs => max (max 1 (height x)) (heightEntries xs)
termination_by structural vs => vs

/-- The height of a value, if there is one. -/
def heightOption : Option (Value π) → Nat
  | none => 0
  | some x => height x
termination_by structural v => v

end

theorem height_pos (value : Value π) : 0 < value.height := by
  cases value <;> simp [height]

theorem exists_succ_of_height_le {value : Value π} {k : Nat} (h : value.height ≤ k) :
    ∃ j, k = j + 1 :=
  Nat.exists_eq_succ_of_ne_zero (Nat.ne_of_gt (Nat.lt_of_lt_of_le value.height_pos h))

theorem heightItems_le_iff {items : List (Value π)} {k : Nat} :
    heightItems items ≤ k ↔ ∀ x ∈ items, x.height ≤ k := by
  induction items with
  | nil => simp [heightItems]
  | cons x xs ih => rw [heightItems, Nat.max_le, ih, List.forall_mem_cons]

theorem heightEntries_le_iff {entries : List (MapKey × Value π)} {k : Nat} :
    heightEntries entries ≤ k ↔ ∀ x ∈ entries.map Prod.snd, x.height ≤ k := by
  induction entries with
  | nil => simp [heightEntries]
  | cons entry rest ih =>
    obtain ⟨key, x⟩ := entry
    have hpos := height_pos x
    simp only [heightEntries, Nat.max_le, ih, List.map_cons, List.forall_mem_cons]
    constructor
    · exact fun h => ⟨h.1.2, h.2⟩
    · exact fun h => ⟨⟨by omega, h.1⟩, h.2⟩

/-- A value fits into `k + 1` levels exactly if its parts fit into `k`. -/
theorem height_le_succ_iff {value : Value π} {k : Nat} :
    value.height ≤ k + 1 ↔ ∀ part ∈ value.parts, part.height ≤ k := by
  cases value with
  | nil => simp [height, parts]
  | unit => simp [height, parts]
  | atom _ _ => simp [height, parts]
  | list items _ => simp [height, parts, heightItems_le_iff]
  | vector items _ => simp [height, parts, heightItems_le_iff]
  | map entries _ => simp only [height, parts, Nat.add_le_add_iff_right, heightEntries_le_iff]
  | procedure _ _ => simp [height, parts]
  | sugar tag form metaForm _ =>
    rw [height, parts, Nat.add_le_add_iff_right, Nat.max_le, List.forall_mem_cons]
    cases metaForm <;> simp [heightOption]

/-! ## Metadata -/

theorem takesMetadata_iff {value : Value π} :
    value.takesMetadata = true ↔ value ≠ .nil ∧ value ≠ .unit := by
  cases value <;> simp [takesMetadata]

/-- Attaching succeeds on a value without metadata unless it is `nil` or `unit`. -/
theorem withMetadata_eq_ok_iff {value metadata result : Value π} (h : value.metadata? = none) :
    value.withMetadata metadata = .ok result ↔
      (value ≠ .nil ∧ value ≠ .unit) ∧ result = value.setMetadata (some metadata) := by
  rw [← takesMetadata_iff]
  cases htakes : value.takesMetadata <;> simp [withMetadata, h, htakes, eq_comm]

/-- Metadata is attached once, and `nil` and `unit` take none. -/
theorem withMetadata_eq_error_iff {value metadata : Value π} {error : MetadataError} :
    value.withMetadata metadata = .error error ↔
      (value.metadata?.isSome = true ∧ error = .alreadyAttached value.kind) ∨
        ((value = .nil ∨ value = .unit) ∧ error = .unsupported value.kind) := by
  cases hmetadata : value.metadata? with
  | some md =>
    have hslot : ¬ (value = .nil ∨ value = .unit) := by
      rintro (rfl | rfl) <;> cases hmetadata
    simp [withMetadata, hmetadata, hslot, eq_comm (a := error)]
  | none =>
    have hslot : (value = .nil ∨ value = .unit) ↔ value.takesMetadata = false := by
      cases value <;> simp [takesMetadata]
    rw [hslot]
    cases htakes : value.takesMetadata <;>
      simp [withMetadata, hmetadata, htakes, eq_comm (a := error)]

theorem setMetadata_setMetadata (value : Value π) (md md' : Option (Value π)) :
    (value.setMetadata md).setMetadata md' = value.setMetadata md' := by
  cases value <;> rfl

theorem setMetadata_none {value : Value π} (h : value.metadata? = none) :
    value.setMetadata none = value := by
  cases value <;> first | rfl | (cases h; rfl)

theorem metadata?_setMetadata {value : Value π} (h : value ≠ .nil ∧ value ≠ .unit)
    (md : Option (Value π)) : (value.setMetadata md).metadata? = md := by
  cases value with
  | nil => exact absurd rfl h.1
  | unit => exact absurd rfl h.2
  | _ => rfl

theorem parts_setMetadata (md : Option (Value π)) (value : Value π) :
    (value.setMetadata md).parts = value.parts := by
  cases value <;> rfl

theorem height_setMetadata (md : Option (Value π)) (value : Value π) :
    (value.setMetadata md).height = value.height := by
  cases value <;> rfl

end MiniLisp.Value
