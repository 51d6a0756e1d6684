import Mathlib.Data.List.Induction
import MiniLisp.Eval.Basic
import MiniLisp.Proofs.Equality
import MiniLisp.Proofs.Maps

/-!
# What a map holds

A map is made of a flat sequence of keys and values. It holds, for each key, the value behind the
last occurrence of that key, and it holds its keys in their order. So the order of the sequence does
not matter where no key occurs twice.

* `MapKey.Before` is the order of keys, said without a comparison function.
* `Value.KeyAt` says which key stands at a place for keys in a flat sequence.
* `Value.Alternating` ties a flat sequence to the pairs that it lists.

Results:
1. `Entries.mem_ofPairs_iff`: of several values for a key the last one stays.
2. `Entries.ofPairs_eq_of_perm`: pairs with distinct keys can be taken up in any order.
3. `Value.mapOfItems_contents`: both for flat sequences, together with the errors.
-/

namespace MiniLisp

variable {π : Type}

/-! ## The order of keys -/

/-- `Before a b`: strings come before keywords, and keys of one kind are in the order of their
texts, code point by code point. -/
inductive MapKey.Before : MapKey → MapKey → Prop
  | strings {a b : String} :
      List.Lex (fun c d : Char => c.toNat < d.toNat) a.toList b.toList →
      Before (.string a) (.string b)
  | kinds {a : String} {b : Keyword} : Before (.string a) (.keyword b)
  | keywords {a b : Keyword} :
      List.Lex (fun c d : Char => c.toNat < d.toNat) a.name.toList b.name.toList →
      Before (.keyword a) (.keyword b)

namespace MapKey

theorem lex_of_compare {a b : String} (h : compare a b = .lt) :
    List.Lex (fun c d : Char => c.toNat < d.toNat) a.toList b.toList :=
  compareOfLessAndEq_eq_lt.mp h

theorem before_of_compare {a b : MapKey} (h : compare a b = .lt) : Before a b := by
  cases a with
  | string s =>
    cases b with
    | string t => exact .strings (lex_of_compare h)
    | keyword k => exact .kinds
  | keyword j =>
    cases b with
    | string t => cases h
    | keyword k => exact .keywords (lex_of_compare h)

theorem ne_of_compare {a b : MapKey} (h : compare a b = .lt) : a ≠ b := by
  intro heq
  rw [(compare_eq_iff a b).mpr heq] at h
  cases h

end MapKey

/-! ## Entries -/

namespace Entries

variable {α : Type}

/-- In entries with increasing keys, an entry is what is found at its key. -/
theorem Sorted.mem_iff {entries : Entries α} (h : Sorted entries) {key : MapKey} {value : α} :
    (key, value) ∈ entries ↔ find? key entries = some value := by
  induction entries with
  | nil => simp [find?]
  | cons entry rest ih =>
    obtain ⟨k, v⟩ := entry
    obtain ⟨hfirst, hrest⟩ := List.pairwise_cons.mp h
    rw [find?_cons, List.mem_cons]
    split
    · next hkey =>
      subst hkey
      have hrest : (key, value) ∉ rest := fun hmem => MapKey.ne_of_compare (hfirst _ hmem) rfl
      simp [hrest, eq_comm]
    · next hkey => simp [hkey, ih hrest]

theorem Sorted.nodup {entries : Entries α} (h : Sorted entries) : entries.Nodup :=
  h.imp fun hlt heq => MapKey.ne_of_compare hlt (congrArg Prod.fst heq)

/-- Entries with increasing keys are determined by what is among them. -/
theorem Sorted.ext {entries others : Entries α} (h : Sorted entries) (hothers : Sorted others)
    (hmem : ∀ entry, entry ∈ entries ↔ entry ∈ others) : entries = others := by
  have hperm : entries.Perm others := (List.perm_ext_iff_of_nodup h.nodup hothers.nodup).mpr hmem
  refine hperm.eq_of_pairwise ?_ h hothers
  intro a b _ _ hab hba
  exact absurd rfl (MapKey.ne_of_compare (MapKey.compare_lt_trans hab hba))

theorem mem_ofPairs_concat {pairs : List (MapKey × α)} {key other : MapKey} {value v : α} :
    (other, v) ∈ ofPairs (pairs ++ [(key, value)]) ↔
      if other = key then v = value else (other, v) ∈ ofPairs pairs := by
  have hconcat : ofPairs (pairs ++ [(key, value)]) = insert key value (ofPairs pairs) := by
    simp [ofPairs]
  rw [(sorted_ofPairs _).mem_iff, (sorted_ofPairs pairs).mem_iff, hconcat, find?_insert]
  split
  · simp [eq_comm]
  · rfl

/-- A map holds the last value of each key, and no other keys. -/
theorem mem_ofPairs_iff {pairs : List (MapKey × α)} {key : MapKey} {value : α} :
    (key, value) ∈ ofPairs pairs ↔
      ∃ i : Nat, pairs[i]? = some (key, value) ∧
        ∀ j, i < j → ∀ other, pairs[j]? ≠ some (key, other) := by
  induction pairs using List.reverseRecOn with
  | nil => simp [ofPairs]
  | append_singleton pairs pair ih =>
    obtain ⟨k, v⟩ := pair
    have hend : (pairs ++ [(k, v)])[pairs.length]? = some (k, v) := List.getElem?_concat_length
    rw [mem_ofPairs_concat]
    split
    · next hkey =>
      -- The pair at the end is the last one of its key.
      subst hkey
      constructor
      · rintro rfl
        refine ⟨pairs.length, hend, ?_⟩
        intro j hj other
        rw [List.getElem?_eq_none (by simp; omega)]
        simp
      · rintro ⟨i, hi, hlast⟩
        have hlength : i = pairs.length := by
          have hle : ¬ i < pairs.length := fun hlt => hlast pairs.length hlt v hend
          have hlt := (List.getElem?_eq_some_iff.mp hi).1
          simp only [List.length_append, List.length_cons, List.length_nil] at hlt
          omega
        rw [hlength, hend] at hi
        cases hi
        rfl
    · next hkey =>
      -- The pair at the end has another key and changes nothing.
      have hother : ∀ (j : Nat) (other : α), (pairs ++ [(k, v)])[j]? = some (key, other) ↔
          pairs[j]? = some (key, other) := by
        intro j other
        rcases Nat.lt_trichotomy j pairs.length with hlt | rfl | hgt
        · rw [List.getElem?_append_left hlt]
        · rw [hend, List.getElem?_eq_none (Nat.le_refl _)]
          simp [Ne.symm hkey]
        · rw [List.getElem?_eq_none (by simp; omega), List.getElem?_eq_none (by omega)]
      simp only [ih, ne_eq, hother]

/-- If no key occurs twice, a map holds the pairs that it took up. -/
theorem mem_ofPairs_of_nodup {pairs : List (MapKey × α)} (h : (pairs.map Prod.fst).Nodup)
    {entry : MapKey × α} : entry ∈ ofPairs pairs ↔ entry ∈ pairs := by
  constructor
  · exact mem_of_mem_ofPairs
  · intro hmem
    obtain ⟨i, hi⟩ := List.mem_iff_getElem?.mp hmem
    refine mem_ofPairs_iff.mpr ⟨i, hi, ?_⟩
    intro j hj other hother
    have hlt : i < (pairs.map Prod.fst).length := by
      simpa using (List.getElem?_eq_some_iff.mp hi).1
    have hsame : i = j := (List.getElem?_inj hlt h).mp (by simp [hi, hother])
    omega

/-- Pairs with distinct keys make up the same map in any order. -/
theorem ofPairs_eq_of_perm {pairs others : List (MapKey × α)} (h : pairs.Perm others)
    (hkeys : (pairs.map Prod.fst).Nodup) : ofPairs pairs = ofPairs others := by
  have hothers : (others.map Prod.fst).Nodup := (h.map Prod.fst).nodup_iff.mp hkeys
  refine (sorted_ofPairs pairs).ext (sorted_ofPairs others) fun entry => ?_
  rw [mem_ofPairs_of_nodup hkeys, mem_ofPairs_of_nodup hothers, h.mem_iff]

end Entries

/-! ## Flat sequences -/

namespace Value

/-- Strings and keywords can be keys. -/
def IsKey (value : Value π) : Prop := value.kind = .string ∨ value.kind = .keyword

/-- `KeyAt items i key`: the item at the `i`-th place for keys is the given key, whatever metadata
it carries. The places for keys are those with even numbers. -/
def KeyAt (items : List (Value π)) (i : Nat) (key : MapKey) : Prop :=
  ∃ item, items[2 * i]? = some item ∧ (item == ofKey key) = true

/-- `Alternating items pairs`: the items are the keys and the values of the pairs in turn. The keys
may carry metadata. -/
inductive Alternating : List (Value π) → List (MapKey × Value π) → Prop
  | nil : Alternating [] []
  | cons {item value : Value π} {key : MapKey} {items : List (Value π)}
      {pairs : List (MapKey × Value π)} :
      (item == ofKey key) = true → Alternating items pairs →
      Alternating (item :: value :: items) ((key, value) :: pairs)

/-! ### Keys -/

theorem toKey_eq_ok_iff {item : Value π} {key : MapKey} :
    item.toKey = .ok key ↔ (item == ofKey key) = true := by
  rw [beq_iff_erase_eq]
  cases item with
  | atom a md => cases a <;> cases key <;> simp [toKey, ofKey, string, keyword, erase]
  | _ => cases key <;> simp [toKey, ofKey, string, keyword, erase]

theorem IsKey.exists_beq {item : Value π} (h : item.IsKey) : ∃ key, (item == ofKey key) = true := by
  simp only [← toKey_eq_ok_iff]
  cases item with
  | atom a md => cases a <;> simp_all [IsKey, kind, Atom.kind, toKey]
  | _ => simp [IsKey, kind] at h

theorem toKey_eq_error {item : Value π} (h : ¬ item.IsKey) :
    item.toKey = .error (.invalidKey item.kind) := by
  cases item with
  | atom a md => cases a <;> simp_all [IsKey, kind, Atom.kind, toKey]
  | _ => rfl

theorem keyAt_zero {item value : Value π} {items : List (Value π)} {key : MapKey} :
    KeyAt (item :: value :: items) 0 key ↔ (item == ofKey key) = true := by
  simp [KeyAt]

theorem keyAt_succ {item value : Value π} {items : List (Value π)} {i : Nat} {key : MapKey} :
    KeyAt (item :: value :: items) (i + 1) key ↔ KeyAt items i key := by
  simp [KeyAt, Nat.mul_add]

/-! ### Pairs -/

theorem Alternating.length_eq {items : List (Value π)} {pairs : List (MapKey × Value π)}
    (h : Alternating items pairs) : items.length = 2 * pairs.length := by
  induction h with
  | nil => rfl
  | cons _ _ ih =>
    simp only [List.length_cons, ih]
    omega

theorem Alternating.toPairs_eq {items : List (Value π)} {pairs : List (MapKey × Value π)}
    (h : Alternating items pairs) : toPairs items = .ok pairs := by
  induction h with
  | nil => rfl
  | cons hkey _ ih =>
    rw [toPairs, toKey_eq_ok_iff.mpr hkey, ih]
    rfl

/-- The `i`-th pair is made of the `i`-th key and the item behind it. -/
theorem Alternating.getElem?_eq_some_iff {items : List (Value π)}
    {pairs : List (MapKey × Value π)} (h : Alternating items pairs) {i : Nat} {key : MapKey}
    {value : Value π} :
    pairs[i]? = some (key, value) ↔ KeyAt items i key ∧ items[2 * i + 1]? = some value := by
  induction h generalizing i with
  | nil => simp [KeyAt]
  | @cons item first k items pairs hkey _ ih =>
    cases i with
    | zero =>
      rw [keyAt_zero, ← toKey_eq_ok_iff, toKey_eq_ok_iff.mpr hkey]
      simp
    | succ i =>
      rw [keyAt_succ, List.getElem?_cons_succ, ih]
      simp [Nat.mul_add]

/-- At each place for keys there is a key, and a value behind it. -/
theorem Alternating.keyAt_iff {items : List (Value π)} {pairs : List (MapKey × Value π)}
    (h : Alternating items pairs) {i : Nat} {key : MapKey} :
    KeyAt items i key ↔ ∃ value, pairs[i]? = some (key, value) := by
  simp only [h.getElem?_eq_some_iff, exists_and_left]
  constructor
  · intro hkey
    refine ⟨hkey, ?_⟩
    obtain ⟨item, hitem, _⟩ := hkey
    have hlt := (List.getElem?_eq_some_iff.mp hitem).1
    have hlength := h.length_eq
    exact ⟨_, List.getElem?_eq_getElem (by omega)⟩
  · exact And.left

/-- An even number of items with keys at the places for keys lists pairs. -/
theorem exists_alternating {items : List (Value π)} (heven : items.length % 2 = 0)
    (hkeys : ∀ i item, items[2 * i]? = some item → item.IsKey) :
    ∃ pairs, Alternating items pairs := by
  induction items using toPairs.induct with
  | case1 item value rest ih =>
    simp only [List.length_cons] at heven
    obtain ⟨key, hkey⟩ := (hkeys 0 item rfl).exists_beq
    obtain ⟨pairs, hpairs⟩ := ih (by omega) fun i other hother =>
      hkeys (i + 1) other (by simpa [Nat.mul_add] using hother)
    exact ⟨_, hpairs.cons hkey⟩
  | case2 items hshort =>
    cases items with
    | nil => exact ⟨[], .nil⟩
    | cons item rest =>
      cases rest with
      | nil => cases heven
      | cons value rest => exact absurd rfl (hshort item value rest)

/-- The first wrong key is reported. -/
theorem toPairs_eq_error {items : List (Value π)} (heven : items.length % 2 = 0) {i : Nat}
    {item : Value π} (hitem : items[2 * i]? = some item) (hwrong : ¬ item.IsKey)
    (hkeys : ∀ j < i, ∀ earlier, items[2 * j]? = some earlier → earlier.IsKey) :
    toPairs items = .error (.invalidKey item.kind) := by
  induction items using toPairs.induct generalizing i with
  | case1 first value rest ih =>
    cases i with
    | zero =>
      obtain rfl : first = item := by simpa using hitem
      rw [toPairs, toKey_eq_error hwrong]
      rfl
    | succ i =>
      simp only [List.length_cons] at heven
      obtain ⟨key, hkey⟩ := (hkeys 0 (by omega) first rfl).exists_beq
      have hrest : toPairs rest = .error (.invalidKey item.kind) := by
        refine ih (by omega) (by simpa [Nat.mul_add] using hitem) ?_
        intro j hj earlier hearlier
        exact hkeys (j + 1) (by omega) earlier (by simpa [Nat.mul_add] using hearlier)
      rw [toPairs, toKey_eq_ok_iff.mpr hkey, hrest]
      rfl
  | case2 items hshort =>
    cases items with
    | nil => cases hitem
    | cons first rest =>
      cases rest with
      | nil => cases heven
      | cons value rest => exact absurd rfl (hshort first value rest)

theorem mapOfItems_of_even {items : List (Value π)} (heven : items.length % 2 = 0) :
    mapOfItems items = (toPairs items).map fun pairs => .map (Entries.ofPairs pairs) none := by
  have hodd : ¬ items.length % 2 = 1 := by omega
  unfold mapOfItems
  rw [if_neg hodd]
  cases toPairs items <;> rfl

theorem Alternating.mapOfItems_eq {items : List (Value π)} {pairs : List (MapKey × Value π)}
    (h : Alternating items pairs) :
    mapOfItems items = .ok (.map (Entries.ofPairs pairs) none) := by
  have heven : items.length % 2 = 0 := by
    rw [h.length_eq]
    omega
  rw [mapOfItems_of_even heven, h.toPairs_eq]
  rfl

/-- What a flat sequence of keys and values comes to.

An odd number of items is refused, and so is the first wrong key. Otherwise the sequence makes up a
map that holds, in the order of the keys, the value behind the last occurrence of each key.
Sequences that list the same pairs with distinct keys, in whatever order, make up equal maps, which
have the same text in both styles and come to the same value or the same error in every
environment. -/
theorem mapOfItems_contents (items : List (Value π)) :
    (items.length % 2 = 1 → mapOfItems items = .error (.oddElementCount items.length)) ∧
      (items.length % 2 = 0 → ∀ i item, items[2 * i]? = some item → ¬ item.IsKey →
        (∀ j < i, ∀ earlier, items[2 * j]? = some earlier → earlier.IsKey) →
        mapOfItems items = .error (.invalidKey item.kind)) ∧
      (items.length % 2 = 0 → (∀ i item, items[2 * i]? = some item → item.IsKey) →
        ∃ entries, mapOfItems items = .ok (.map entries none) ∧
          entries.Pairwise (fun a b => a.1.Before b.1) ∧
          ∀ key value, (key, value) ∈ entries ↔
            ∃ i, KeyAt items i key ∧ items[2 * i + 1]? = some value ∧
              ∀ j, i < j → ¬ KeyAt items j key) ∧
      ∀ (others : List (Value π)) (pairs pairs' : List (MapKey × Value π)),
        Alternating items pairs → Alternating others pairs' → pairs.Perm pairs' →
        (pairs.map Prod.fst).Nodup →
        ∃ map map', mapOfItems items = .ok map ∧ mapOfItems others = .ok map' ∧
          (map == map') = true ∧ (∀ style, map.print style = map'.print style) ∧
          ∀ (host : Host π) (env : Env π) (gauge : Gauge),
            (eval host env map).run gauge = (eval host env map').run gauge := by
  refine ⟨?_, ?_, ?_, ?_⟩
  · intro hodd
    unfold mapOfItems
    rw [if_pos hodd]
    rfl
  · intro heven i item hitem hwrong hkeys
    rw [mapOfItems_of_even heven, toPairs_eq_error heven hitem hwrong hkeys]
    rfl
  · intro heven hkeys
    obtain ⟨pairs, hpairs⟩ := exists_alternating heven hkeys
    refine ⟨Entries.ofPairs pairs, hpairs.mapOfItems_eq, ?_, ?_⟩
    · exact (Entries.sorted_ofPairs pairs).imp MapKey.before_of_compare
    · intro key value
      rw [Entries.mem_ofPairs_iff]
      simp only [← and_assoc, ← hpairs.getElem?_eq_some_iff]
      simp only [hpairs.keyAt_iff, not_exists, ne_eq]
  · intro others pairs pairs' hitems hothers hperm hkeys
    have hmap : mapOfItems others = .ok (.map (Entries.ofPairs pairs) none) := by
      rw [hothers.mapOfItems_eq, Entries.ofPairs_eq_of_perm hperm hkeys]
    refine ⟨_, _, hitems.mapOfItems_eq, hmap, ?_, fun _ => rfl, fun _ _ _ => rfl⟩
    exact (beq_iff_erase_eq _ _).mpr rfl

/-- A key that occurs twice, once with metadata; two wrong keys; two orders of the same pairs. -/
theorem mapOfItems_contents_repeated :
    let b (md : Option (Value Empty)) : Value Empty := .atom (.keyword ⟨"b"⟩) md
    let a : Value Empty := .string "a"
    (∃ entries, mapOfItems [b none, .int 1, a, .int 2, b (some .nil), .int 3] =
          .ok (.map entries none) ∧
        entries.Pairwise (fun x y => x.1.Before y.1) ∧ (.keyword ⟨"b"⟩, .int 3) ∈ entries) ∧
      mapOfItems [a, .int 1, .nil, .int 2, .unit, .int 3] = .error (.invalidKey .nil) ∧
      ∃ map map', mapOfItems [b none, .int 1, a, .int 2] = .ok map ∧
        mapOfItems [a, .int 2, b (some .nil), .int 1] = .ok map' ∧ (map == map') = true := by
  intro b a
  refine ⟨?_, ?_, ?_⟩
  · let items : List (Value Empty) := [b none, .int 1, a, .int 2, b (some .nil), .int 3]
    have hend : ∀ i, 2 < i → items[2 * i]? = none := by
      intro i hi
      exact List.getElem?_eq_none (by simp [items]; omega)
    have hkeys : ∀ i item, items[2 * i]? = some item → item.IsKey := by
      rintro (_ | _ | _ | i) item hitem
      · cases hitem
        exact .inr rfl
      · cases hitem
        exact .inl rfl
      · cases hitem
        exact .inr rfl
      · rw [hend _ (by omega)] at hitem
        cases hitem
    obtain ⟨entries, hmap, horder, hmem⟩ :=
      (mapOfItems_contents items).2.2.1 (by simp [items]) hkeys
    refine ⟨entries, hmap, horder, (hmem _ _).mpr ⟨2, ⟨_, rfl, by decide⟩, rfl, ?_⟩⟩
    rintro j hj ⟨item, hitem, _⟩
    rw [hend j hj] at hitem
    cases hitem
  · have hwrong : ¬ (Value.nil : Value Empty).IsKey := by
      rintro (h | h) <;> cases h
    refine (mapOfItems_contents _).2.1 (by simp) 1 .nil rfl hwrong ?_
    intro j hj item hitem
    obtain rfl : j = 0 := by omega
    cases hitem
    exact .inl rfl
  · obtain ⟨map, map', hmap, hmap', hequal, -⟩ :=
      (mapOfItems_contents [b none, .int 1, a, .int 2]).2.2.2 [a, .int 2, b (some .nil), .int 1]
        [(.keyword ⟨"b"⟩, .int 1), (.string "a", .int 2)]
        [(.string "a", .int 2), (.keyword ⟨"b"⟩, .int 1)]
        (.cons (by decide) (.cons (by decide) .nil)) (.cons (by decide) (.cons (by decide) .nil))
        (.swap _ _ _) (by decide)
    exact ⟨map, map', hmap, hmap', hequal⟩

end Value

end MiniLisp
