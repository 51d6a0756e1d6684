import MiniLisp.Value.Basic

/-!
# Maps and the sequences that make them up

A map prints as an alternating sequence of keys and values. Taking that sequence as the items of a
map gives the map back, because its keys are in order and each occurs once.

1. `Entries.ofPairs_of_sorted`: entries in order are the entries of the map that takes them up.
2. `Value.mapOfItems_flatItems`: the flat sequence of entries in order makes up the map.
-/

namespace MiniLisp

variable {π : Type}

namespace Entries

variable {α : Type}

theorem insert_of_forall_lt {key : MapKey} {value : α} {entries : Entries α}
    (h : ∀ entry ∈ entries, compare entry.1 key = .lt) :
    insert key value entries = entries ++ [(key, value)] := by
  induction entries with
  | nil => rfl
  | cons entry rest ih =>
    rw [List.forall_mem_cons] at h
    have hgt : compare key entry.1 = .gt := (MapKey.compare_gt_iff key entry.1).mpr h.1
    simp [insert, hgt, ih h.2]

/-- Entries in order are taken up as they are. -/
theorem ofPairs_of_sorted {pairs : Entries α} (h : Sorted pairs) : ofPairs pairs = pairs := by
  suffices hfold : ∀ entries : Entries α, Sorted (entries ++ pairs) →
      pairs.foldl (fun entries pair => insert pair.1 pair.2 entries) entries = entries ++ pairs from
    hfold [] h
  clear h
  induction pairs with
  | nil =>
    intro entries _
    simp
  | cons pair rest ih =>
    intro entries hsorted
    -- All keys so far come before the next one, so it goes to the end.
    have hlt : ∀ entry ∈ entries, compare entry.1 pair.1 = .lt := by
      intro entry hmem
      exact (List.pairwise_append.mp hsorted).2.2 entry hmem pair List.mem_cons_self
    have hnext : Sorted ((entries ++ [pair]) ++ rest) := by
      simpa using hsorted
    rw [List.foldl_cons, insert_of_forall_lt hlt, ih _ hnext]
    simp

/-- An entry of a map was one of the pairs that it took up. -/
theorem mem_of_mem_ofPairs {pairs : Entries α} {entry : MapKey × α} (h : entry ∈ ofPairs pairs) :
    entry ∈ pairs := by
  suffices hfold : ∀ entries : Entries α,
      entry ∈ pairs.foldl (fun entries pair => insert pair.1 pair.2 entries) entries →
      entry ∈ entries ∨ entry ∈ pairs by
    rcases hfold [] h with hmem | hmem
    · cases hmem
    · exact hmem
  clear h
  induction pairs with
  | nil =>
    intro entries hmem
    exact .inl hmem
  | cons pair rest ih =>
    intro entries hmem
    rcases ih _ hmem with hmem | hmem
    · rcases mem_insert hmem with rfl | hmem
      · exact .inr List.mem_cons_self
      · exact .inl hmem
    · exact .inr (List.mem_cons_of_mem _ hmem)

end Entries

namespace Value

/-- The keys and values of entries, one after the other. -/
def flatItems (entries : List (MapKey × Value π)) : List (Value π) :=
  entries.flatMap fun entry => [ofKey entry.1, entry.2]

theorem mem_flatItems {entries : List (MapKey × Value π)} {value : Value π} :
    value ∈ flatItems entries ↔ ∃ entry ∈ entries, value = ofKey entry.1 ∨ value = entry.2 := by
  simp [flatItems]

theorem toKey_ofKey (key : MapKey) : (ofKey key : Value π).toKey = .ok key := by
  cases key <;> rfl

theorem toKey_eq_ok {value : Value π} {key : MapKey} (h : value.toKey = .ok key) :
    ∃ md, value = (ofKey key : Value π).setMetadata md := by
  unfold toKey at h
  split at h
  · cases h
    exact ⟨_, rfl⟩
  · cases h
    exact ⟨_, rfl⟩
  · cases h

theorem toPairs_flatItems (entries : List (MapKey × Value π)) :
    toPairs (flatItems entries) = .ok entries := by
  induction entries with
  | nil => rfl
  | cons entry rest ih =>
    have hrest : toPairs (flatItems rest) = .ok rest := ih
    simp only [flatItems, List.flatMap_cons, List.cons_append, List.nil_append, toPairs,
      toKey_ofKey]
    rw [← flatItems, hrest]
    rfl

theorem length_flatItems (entries : List (MapKey × Value π)) :
    (flatItems entries).length = 2 * entries.length := by
  induction entries with
  | nil => rfl
  | cons entry rest ih =>
    simp only [flatItems, List.flatMap_cons, List.length_append, List.length_cons,
      List.length_nil] at ih ⊢
    omega

theorem mapOfItems_flatItems {entries : List (MapKey × Value π)} (h : Entries.Sorted entries) :
    mapOfItems (flatItems entries) = .ok (.map entries none) := by
  have heven : ¬ (flatItems entries).length % 2 = 1 := by
    rw [length_flatItems]
    omega
  unfold mapOfItems
  rw [if_neg heven, toPairs_flatItems]
  simp [bind, Except.bind, pure, Except.pure, Entries.ofPairs_of_sorted h]

/-- A map is made of the pairs of its items. -/
theorem mapOfItems_eq_ok {items : List (Value π)} {value : Value π}
    (h : mapOfItems items = .ok value) :
    ∃ pairs, toPairs items = .ok pairs ∧ value = .map (Entries.ofPairs pairs) none := by
  unfold mapOfItems at h
  split at h
  · cases h
  · cases hpairs : toPairs items with
    | error error =>
      rw [hpairs] at h
      cases h
    | ok pairs =>
      rw [hpairs] at h
      cases h
      exact ⟨pairs, rfl, rfl⟩

/-- A pair of a sequence is made of two of its items, and the first of them is the key. -/
theorem mem_of_mem_toPairs {items : List (Value π)} {pairs : List (MapKey × Value π)}
    (h : toPairs items = .ok pairs) {pair : MapKey × Value π} (hmem : pair ∈ pairs) :
    (∃ key ∈ items, key.toKey = .ok pair.1) ∧ pair.2 ∈ items := by
  fun_induction toPairs items generalizing pairs with
  | case1 key value rest ih =>
    cases hkey : key.toKey with
    | error error =>
      rw [hkey] at h
      cases h
    | ok k =>
      cases hrest : toPairs rest with
      | error error =>
        rw [hkey, hrest] at h
        cases h
      | ok others =>
        rw [hkey, hrest] at h
        cases h
        rcases List.mem_cons.mp hmem with rfl | hmem
        · exact ⟨⟨key, by simp, hkey⟩, by simp⟩
        · obtain ⟨⟨other, hother, hotherKey⟩, hvalue⟩ := ih hrest hmem
          exact ⟨⟨other, by simp [hother], hotherKey⟩, by simp [hvalue]⟩
  | case2 =>
    cases h
    cases hmem

end Value

end MiniLisp
