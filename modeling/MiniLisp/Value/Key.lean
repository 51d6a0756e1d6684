import MiniLisp.Name
import MiniLisp.Text.Quoted

/-!
# Map keys and map entries

Only strings and keywords are keys of a map. A map holds its entries in the order of their keys, all
strings before all keywords, and each key once.
-/

namespace MiniLisp

/-- A key of a map. -/
inductive MapKey where
  | string (text : String)
  | keyword (name : Keyword)
deriving DecidableEq, Repr, Inhabited

namespace MapKey

/-- All strings come before all keywords; among their kind keys follow the order of their texts. -/
protected def compare : MapKey → MapKey → Ordering
  | .string a, .string b => Ord.compare a b
  | .string _, .keyword _ => .lt
  | .keyword _, .string _ => .gt
  | .keyword a, .keyword b => Ord.compare a b

instance : Ord MapKey := ⟨MapKey.compare⟩

@[simp] theorem compare_string (a b : String) :
    compare (MapKey.string a) (.string b) = compare a b := rfl

@[simp] theorem compare_keyword (a b : Keyword) :
    compare (MapKey.keyword a) (.keyword b) = compare a.name b.name := rfl

@[simp] theorem compare_string_keyword (a : String) (b : Keyword) :
    compare (MapKey.string a) (.keyword b) = .lt := rfl

@[simp] theorem compare_keyword_string (a : Keyword) (b : String) :
    compare (MapKey.keyword a) (.string b) = .gt := rfl

/-- Keys that the order does not tell apart are the same. -/
theorem compare_eq_iff (a b : MapKey) : compare a b = .eq ↔ a = b := by
  cases a with
  | string s => cases b <;> simp
  | keyword j =>
    cases b with
    | string t => simp
    | keyword k =>
      obtain ⟨j⟩ := j
      obtain ⟨k⟩ := k
      simp

/-- Turning two keys around turns their comparison around. -/
theorem compare_swap (a b : MapKey) : (compare a b).swap = compare b a := by
  cases a with
  | string s =>
    cases b with
    | string t => exact (Std.OrientedOrd.eq_swap : compare t s = _).symm
    | keyword k => rfl
  | keyword j =>
    cases b with
    | string t => rfl
    | keyword k => exact (Std.OrientedOrd.eq_swap : compare k.name j.name = _).symm

theorem compare_gt_iff (a b : MapKey) : compare a b = .gt ↔ compare b a = .lt := by
  rw [← compare_swap a b]
  cases compare a b <;> simp

theorem compare_lt_trans {a b c : MapKey} (hab : compare a b = .lt) (hbc : compare b c = .lt) :
    compare a c = .lt := by
  cases a <;> cases b <;> cases c <;> simp at hab hbc ⊢
  · exact Std.TransCmp.lt_trans hab hbc
  · exact Std.TransCmp.lt_trans hab hbc

/-- The text of a key. Strings are always quoted. -/
def text : MapKey → String
  | .string s => String.ofList (Text.Quoted.encode s.toList)
  | .keyword k => k.text

end MapKey

/-- The entries of a map, in the order of their keys. -/
abbrev Entries (α : Type) := List (MapKey × α)

namespace Entries

variable {α : Type}

/-- The entries with `value` at `key`, in place of what was there. -/
def insert (key : MapKey) (value : α) : Entries α → Entries α
  | [] => [(key, value)]
  | (k, v) :: rest =>
    match compare key k with
    | .lt => (key, value) :: (k, v) :: rest
    | .eq => (key, value) :: rest
    | .gt => (k, v) :: insert key value rest

/-- The entries of a map that took up `pairs` one after the other, so that the last value of a key
stays. -/
def ofPairs (pairs : List (MapKey × α)) : Entries α :=
  pairs.foldl (fun entries pair => insert pair.1 pair.2 entries) []

/-- The value at `key`. -/
def find? (key : MapKey) (entries : Entries α) : Option α :=
  entries.lookup key

/-- The keys increase, so that each occurs once. -/
def Sorted (entries : Entries α) : Prop :=
  entries.Pairwise fun a b => compare a.1 b.1 = .lt

/-! ### Laws of insertion -/

theorem find?_cons (key k : MapKey) (v : α) (rest : Entries α) :
    find? key ((k, v) :: rest) = if key = k then some v else find? key rest := by
  by_cases h : key = k
  · simp [find?, h]
  · have hk : (key == k) = false := by simpa using h
    simp [find?, List.lookup_cons, h, hk]

/-- Insertion changes what is at one key. -/
theorem find?_insert (key other : MapKey) (value : α) (entries : Entries α) :
    find? other (insert key value entries) =
      if other = key then some value else find? other entries := by
  induction entries with
  | nil => simp [insert, find?_cons]
  | cons entry rest ih =>
    obtain ⟨k, v⟩ := entry
    simp only [insert]
    split
    · simp only [find?_cons]
    · next heq =>
      have hk : key = k := (MapKey.compare_eq_iff key k).mp heq
      subst hk
      simp only [find?_cons]
      split <;> rfl
    · next hgt =>
      have hne : key ≠ k := by
        intro hk
        rw [(MapKey.compare_eq_iff key k).mpr hk] at hgt
        cases hgt
      simp only [find?_cons, ih]
      by_cases h : other = k
      · subst h
        simp [Ne.symm hne]
      · simp [h]

/-- An entry after an insertion is the new one or was there before. -/
theorem mem_insert {key : MapKey} {value : α} {entries : Entries α} {entry : MapKey × α}
    (h : entry ∈ insert key value entries) : entry = (key, value) ∨ entry ∈ entries := by
  induction entries with
  | nil => exact .inl (by simpa [insert] using h)
  | cons first rest ih =>
    obtain ⟨k, v⟩ := first
    simp only [insert] at h
    split at h
    · simpa using h
    · rcases List.mem_cons.mp h with h | h
      · exact .inl h
      · exact .inr (List.mem_cons_of_mem _ h)
    · rcases List.mem_cons.mp h with h | h
      · exact .inr (by simp [h])
      · rcases ih h with h | h
        · exact .inl h
        · exact .inr (List.mem_cons_of_mem _ h)

/-- Insertion keeps the order. -/
theorem sorted_insert {entries : Entries α} (h : Sorted entries) (key : MapKey) (value : α) :
    Sorted (insert key value entries) := by
  induction entries with
  | nil => exact List.pairwise_singleton _ _
  | cons first rest ih =>
    obtain ⟨k, v⟩ := first
    obtain ⟨hfirst, hrest⟩ := List.pairwise_cons.mp h
    simp only [insert]
    split
    · next hlt =>
      refine List.pairwise_cons.mpr ⟨?_, h⟩
      intro entry hentry
      rcases List.mem_cons.mp hentry with rfl | hentry
      · exact hlt
      · exact MapKey.compare_lt_trans hlt (hfirst entry hentry)
    · next heq =>
      have hk : key = k := (MapKey.compare_eq_iff key k).mp heq
      subst hk
      exact List.pairwise_cons.mpr ⟨hfirst, hrest⟩
    · next hgt =>
      refine List.pairwise_cons.mpr ⟨?_, ih hrest⟩
      intro entry hentry
      rcases mem_insert hentry with rfl | hentry
      · exact (MapKey.compare_gt_iff _ _).mp hgt
      · exact hfirst entry hentry

/-- The entries of a map are sorted, in whatever order they came. -/
theorem sorted_ofPairs (pairs : List (MapKey × α)) : Sorted (ofPairs pairs) := by
  suffices h : ∀ entries : Entries α, Sorted entries →
      Sorted (pairs.foldl (fun entries pair => insert pair.1 pair.2 entries) entries) from
    h [] List.Pairwise.nil
  induction pairs with
  | nil => intro entries h; exact h
  | cons pair rest ih => intro entries h; exact ih _ (sorted_insert h pair.1 pair.2)

end Entries

end MiniLisp
