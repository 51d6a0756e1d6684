import MiniLisp.Proofs.Equality

/-!
# Shorthands as lists

`Value.desugar` puts in place of every shorthand the list that it stands for. Neither the text nor
the height of a value shows the difference.

1. `Value.print_desugar`: desugaring does not change the text.
2. `Value.height_desugar`: desugaring does not change the height.
-/

namespace MiniLisp.Value

variable {π : Type}

mutual

/-- The value with the list of its items in place of each shorthand, at every depth. Metadata stays
as it is. -/
def desugar : Value π → Value π
  | .nil => .nil
  | .unit => .unit
  | .atom a md => .atom a md
  | .list items md => .list (desugarItems items) md
  | .vector items md => .vector (desugarItems items) md
  | .map entries md => .map (desugarEntries entries) md
  | .procedure f md => .procedure f md
  | .sugar tag form metaForm md => .list (sugarItems tag (desugar form) (desugarOption metaForm)) md
termination_by structural v => v

/-- Desugaring of every value in a sequence. -/
def desugarItems : List (Value π) → List (Value π)
  | [] => []
  | x :: xs => desugar x :: desugarItems xs
termination_by structural vs => vs

/-- Desugaring of every value of a map. -/
def desugarEntries : List (MapKey × Value π) → List (MapKey × Value π)
  | [] => []
  | (k, x) :: xs => (k, desugar x) :: desugarEntries xs
termination_by structural vs => vs

/-- Desugaring of a value, if there is one. -/
def desugarOption : Option (Value π) → Option (Value π)
  | none => none
  | some x => some (desugar x)
termination_by structural v => v

end

theorem desugarItems_eq_map (items : List (Value π)) : desugarItems items = items.map desugar := by
  induction items with
  | nil => rfl
  | cons x xs ih => simp [desugarItems, ih]

theorem desugarEntries_eq_map (entries : List (MapKey × Value π)) :
    desugarEntries entries = entries.map (Prod.map id desugar) := by
  induction entries with
  | nil => rfl
  | cons entry rest ih => simp [desugarEntries, ih, Prod.map]

/-- The list of a shorthand holds the tag and what the parts of the shorthand stand for. -/
theorem desugar_sugar (tag : Symbol) (form : Value π) (metaForm md : Option (Value π)) :
    (Value.sugar tag form metaForm md).desugar =
      .list (.symbol tag :: (Value.sugar tag form metaForm md).parts.map desugar) md := by
  cases metaForm <;> rfl

/-- The metadata of a value has no influence on how it is desugared. -/
theorem desugar_setMetadata (md : Option (Value π)) (value : Value π) :
    (value.setMetadata md).desugar = value.desugar.setMetadata md := by
  cases value <;> rfl

/-! ## Text -/

theorem print_desugar (style : Style) (value : Value π) :
    value.desugar.print style = value.print style := by
  induction value using induction_parts with
  | step value ih =>
    cases value with
    | nil => rfl
    | unit => rfl
    | atom _ _ => rfl
    | list items _ => simp [desugar, print, desugarItems_eq_map, @printItems_map _ style _ items ih]
    | vector items _ =>
      simp [desugar, print, desugarItems_eq_map, @printItems_map _ style _ items ih]
    | map entries _ => simp [desugar, print, desugarEntries_eq_map, printEntries_map ih]
    | procedure _ _ => rfl
    | sugar tag form metaForm _ =>
      have hform := ih form (by simp [parts])
      cases metaForm with
      | none =>
        simp [desugar, desugarOption, sugarItems, print, printItems, printOption, hform, symbol,
          Atom.print, String.append_assoc]
      | some m =>
        have hmeta := ih m (by simp [parts])
        simp [desugar, desugarOption, sugarItems, print, printItems, printOption, hform, hmeta,
          symbol, Atom.print, String.append_assoc]

/-! ## Height -/

namespace DesugaringLemmas

theorem heightItems_map {change : Value π → Value π} {items : List (Value π)}
    (h : ∀ x ∈ items, (change x).height = x.height) :
    heightItems (items.map change) = heightItems items := by
  induction items with
  | nil => rfl
  | cons x xs ih =>
    rw [List.forall_mem_cons] at h
    simp [heightItems, h.1, ih h.2]

theorem heightEntries_map {change : Value π → Value π} {entries : List (MapKey × Value π)}
    (h : ∀ x ∈ entries.map Prod.snd, (change x).height = x.height) :
    heightEntries (entries.map (Prod.map id change)) = heightEntries entries := by
  induction entries with
  | nil => rfl
  | cons entry rest ih =>
    rw [List.map_cons, List.forall_mem_cons] at h
    simp [heightEntries, Prod.map, h.1, ih h.2]

end DesugaringLemmas

open DesugaringLemmas

/-- A shorthand and its list have the same height: the tag, which only the list has as an item, is
no higher than the form after it. -/
theorem height_desugar (value : Value π) : value.desugar.height = value.height := by
  induction value using induction_parts with
  | step value ih =>
    cases value with
    | nil => rfl
    | unit => rfl
    | atom _ _ => rfl
    | list items _ => simp [desugar, height, desugarItems_eq_map, @heightItems_map _ _ items ih]
    | vector items _ => simp [desugar, height, desugarItems_eq_map, @heightItems_map _ _ items ih]
    | map entries _ => simp [desugar, height, desugarEntries_eq_map, heightEntries_map ih]
    | procedure _ _ => rfl
    | sugar tag form metaForm _ =>
      have hform := ih form (by simp [parts])
      have hpos := form.height_pos
      cases metaForm with
      | none =>
        simp only [desugar, desugarOption, sugarItems, height, heightItems, heightOption, symbol,
          Option.toList, hform]
        omega
      | some m =>
        have hmeta := ih m (by simp [parts])
        simp only [desugar, desugarOption, sugarItems, height, heightItems, heightOption, symbol,
          Option.toList, hform, hmeta]
        omega

end MiniLisp.Value
