import MiniLisp.Proofs.Parts
import MiniLisp.Value.Equality
import MiniLisp.Value.Printer

/-!
# Equality and printing look past metadata

`Value.erase` takes the metadata of a value and of its parts away, and leaves of a function only its
name. What is left is all that equality and printing look at.

1. `Value.Within.stripped_of_erase`, `Value.erase_eq_self`: what erasure takes away and what not.
2. `Value.beq_iff_erase_eq`: two values are equal exactly if they are the same after erasure.
3. `Value.print_erase`: erasure does not change the text of a value.
-/

namespace MiniLisp.Value

variable {π : Type}

/-! ## Erasure -/

mutual

/-- The value without metadata at any depth, with its functions reduced to their names. -/
def erase : Value π → Value π
  | .nil => .nil
  | .unit => .unit
  | .atom a _ => .atom a none
  | .list items _ => .list (eraseItems items) none
  | .vector items _ => .vector (eraseItems items) none
  | .map entries _ => .map (eraseEntries entries) none
  | .procedure f _ => .procedure ⟨f.name, .invalid⟩ none
  | .sugar tag form metaForm _ => .sugar tag (erase form) (eraseOption metaForm) none
termination_by structural v => v

/-- Erasure of every value in a sequence. -/
def eraseItems : List (Value π) → List (Value π)
  | [] => []
  | x :: xs => erase x :: eraseItems xs
termination_by structural vs => vs

/-- Erasure of every value of a map. -/
def eraseEntries : List (MapKey × Value π) → List (MapKey × Value π)
  | [] => []
  | (k, x) :: xs => (k, erase x) :: eraseEntries xs
termination_by structural vs => vs

/-- Erasure of a value, if there is one. -/
def eraseOption : Option (Value π) → Option (Value π)
  | none => none
  | some x => some (erase x)
termination_by structural v => v

end

/-- `value.Stripped`: the value itself has no metadata and, if it is a function, no code. What its
parts have does not matter. -/
def Stripped (value : Value π) : Prop :=
  value.metadata? = none ∧ ∀ f md, value = .procedure f md → f.body = .invalid

theorem eraseItems_eq_map (items : List (Value π)) : eraseItems items = items.map erase := by
  induction items with
  | nil => rfl
  | cons x xs ih => simp [eraseItems, ih]

theorem eraseEntries_eq_map (entries : List (MapKey × Value π)) :
    eraseEntries entries = entries.map (Prod.map id erase) := by
  induction entries with
  | nil => rfl
  | cons entry rest ih => simp [eraseEntries, ih, Prod.map]

theorem parts_erase (value : Value π) : value.erase.parts = value.parts.map erase := by
  cases value with
  | list items _ => exact eraseItems_eq_map items
  | vector items _ => exact eraseItems_eq_map items
  | map entries _ =>
    rw [erase, eraseEntries_eq_map, parts, parts, List.map_map, List.map_map]
    rfl
  | sugar _ _ metaForm _ => cases metaForm <;> rfl
  | _ => rfl

/-- At no depth does erasure leave metadata or the code of a function. -/
theorem Within.stripped_of_erase {inner value : Value π} (h : Within inner value.erase) :
    inner.Stripped := by
  generalize herase : value.erase = outer at h
  induction h generalizing value with
  | refl =>
    subst herase
    cases value <;> simp [Stripped, erase, metadata?]
  | part hmem _ ih =>
    rw [← herase, parts_erase] at hmem
    obtain ⟨part, _, hpart⟩ := List.mem_map.mp hmem
    exact ih hpart

/-- Erasure takes nothing else away. -/
theorem erase_eq_self {value : Value π} (h : ∀ inner, Within inner value → inner.Stripped) :
    value.erase = value := by
  induction value using induction_parts with
  | step value ih =>
    have hparts : ∀ part ∈ value.parts, part.erase = part := fun part hmem =>
      ih part hmem fun inner hinner => h inner (.part hmem hinner)
    obtain ⟨hmetadata, hcode⟩ := h value .refl
    cases value with
    | nil => rfl
    | unit => rfl
    | atom a md =>
      obtain rfl : md = none := hmetadata
      rfl
    | list items md =>
      obtain rfl : md = none := hmetadata
      rw [parts] at hparts
      rw [erase, eraseItems_eq_map, List.map_congr_left hparts, List.map_id']
    | vector items md =>
      obtain rfl : md = none := hmetadata
      rw [parts] at hparts
      rw [erase, eraseItems_eq_map, List.map_congr_left hparts, List.map_id']
    | map entries md =>
      obtain rfl : md = none := hmetadata
      have hentries : ∀ entry ∈ entries, Prod.map id erase entry = entry := fun entry hmem =>
        Prod.ext rfl (hparts entry.2 (List.mem_map_of_mem hmem))
      rw [erase, eraseEntries_eq_map, List.map_congr_left hentries, List.map_id']
    | procedure f md =>
      obtain rfl : md = none := hmetadata
      rw [erase, ← hcode f none rfl]
    | sugar tag form metaForm md =>
      obtain rfl : md = none := hmetadata
      have hform : form.erase = form := hparts form (by simp [parts])
      cases metaForm with
      | none => rw [erase, eraseOption, hform]
      | some m => rw [erase, eraseOption, hform, hparts m (by simp [parts])]

/-- Erasing twice erases no more. -/
theorem erase_erase (value : Value π) : value.erase.erase = value.erase :=
  erase_eq_self fun _ => Within.stripped_of_erase

/-! ## Equality -/

namespace EqualityLemmas

theorem beqItems_iff {xs ys : List (Value π)}
    (h : ∀ x ∈ xs, ∀ y, Value.beq x y = true ↔ x.erase = y.erase) :
    beqItems xs ys = true ↔ eraseItems xs = eraseItems ys := by
  induction xs generalizing ys with
  | nil => cases ys <;> simp [beqItems, eraseItems]
  | cons x xs ih =>
    cases ys with
    | nil => simp [beqItems, eraseItems]
    | cons y ys =>
      rw [List.forall_mem_cons] at h
      simp [beqItems, eraseItems, h.1 y, ih h.2]

theorem beqEntries_iff {xs ys : List (MapKey × Value π)}
    (h : ∀ x ∈ xs.map Prod.snd, ∀ y, Value.beq x y = true ↔ x.erase = y.erase) :
    beqEntries xs ys = true ↔ eraseEntries xs = eraseEntries ys := by
  induction xs generalizing ys with
  | nil => cases ys <;> simp [beqEntries, eraseEntries]
  | cons x xs ih =>
    cases ys with
    | nil => simp [beqEntries, eraseEntries]
    | cons y ys =>
      rw [List.map_cons, List.forall_mem_cons] at h
      simp [beqEntries, eraseEntries, h.1 y.2, ih h.2]

end EqualityLemmas

open EqualityLemmas

theorem beq_iff_erase_eq (a b : Value π) : (a == b) = true ↔ a.erase = b.erase := by
  change Value.beq a b = true ↔ _
  induction a using induction_parts generalizing b with
  | step a ih =>
    cases a with
    | nil => cases b <;> simp [Value.beq, erase]
    | unit => cases b <;> simp [Value.beq, erase]
    | atom _ _ => cases b <;> simp [Value.beq, erase]
    | list items _ => cases b <;> simp [Value.beq, erase, @beqItems_iff _ items _ ih]
    | vector items _ => cases b <;> simp [Value.beq, erase, @beqItems_iff _ items _ ih]
    | map entries _ => cases b <;> simp [Value.beq, erase, beqEntries_iff ih]
    | procedure _ _ => cases b <;> simp [Value.beq, erase]
    | sugar tag form metaForm _ =>
      have hform := ih form (by simp [parts])
      cases b with
      | sugar tag' form' metaForm' _ =>
        cases metaForm with
        | none => cases metaForm' <;> simp [Value.beq, beqOption, erase, eraseOption, hform]
        | some m =>
          have hmeta := ih m (by simp [parts])
          cases metaForm' <;>
            simp [Value.beq, beqOption, erase, eraseOption, hform, hmeta, and_assoc]
      | _ => simp [Value.beq, erase]

/-! ## Printing -/

/-- Values with the same texts as others make up a sequence with the same text. -/
theorem printItems_map {style : Style} {change : Value π → Value π} {items : List (Value π)}
    (h : ∀ x ∈ items, (change x).print style = x.print style) :
    printItems style (items.map change) = printItems style items := by
  induction items with
  | nil => rfl
  | cons x xs ih =>
    rw [List.forall_mem_cons] at h
    cases xs with
    | nil => simpa [printItems] using h.1
    | cons y ys => simpa [printItems, h.1] using ih h.2

theorem printEntries_map {style : Style} {change : Value π → Value π}
    {entries : List (MapKey × Value π)}
    (h : ∀ x ∈ entries.map Prod.snd, (change x).print style = x.print style) :
    printEntries style (entries.map (Prod.map id change)) = printEntries style entries := by
  induction entries with
  | nil => rfl
  | cons entry rest ih =>
    rw [List.map_cons, List.forall_mem_cons] at h
    cases rest with
    | nil => simpa [printEntries, Prod.map] using h.1
    | cons next rest => simpa [printEntries, Prod.map, h.1] using ih h.2

theorem print_erase (style : Style) (value : Value π) :
    value.erase.print style = value.print style := by
  induction value using induction_parts with
  | step value ih =>
    cases value with
    | nil => rfl
    | unit => rfl
    | atom _ _ => rfl
    | list items _ => simp [erase, print, eraseItems_eq_map, @printItems_map _ style _ items ih]
    | vector items _ => simp [erase, print, eraseItems_eq_map, @printItems_map _ style _ items ih]
    | map entries _ => simp [erase, print, eraseEntries_eq_map, printEntries_map ih]
    | procedure _ _ => rfl
    | sugar tag form metaForm _ =>
      have hform := ih form (by simp [parts])
      cases metaForm with
      | none => simp [erase, eraseOption, print, printOption, hform]
      | some m =>
        have hmeta := ih m (by simp [parts])
        simp [erase, eraseOption, print, printOption, hform, hmeta]

end MiniLisp.Value
