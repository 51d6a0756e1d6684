import MiniLisp.Text.Grapheme

/-!
# Backspaces

A backspace in a line takes back the grapheme cluster before it, and is not kept itself. A backspace
with nothing before it takes back nothing. Clusters are taken back by their size in bytes, and there
is no result if that cuts a character.

Main statement: a line without backspaces stays as it is.
-/

namespace MiniLisp.Text

/-- The character that takes back the cluster before it. -/
def backspace : Char := '\x08'

/-- The number of bytes that the characters take. -/
def byteSize (cs : List Char) : Nat :=
  cs.foldr (fun c size => c.utf8Size + size) 0

/-- The characters without the first `n` bytes, unless that cuts a character. -/
def dropBytes? (n : Nat) : List Char → Option (List Char)
  | [] => if n = 0 then some [] else none
  | c :: cs =>
    if n = 0 then some (c :: cs)
    else if c.utf8Size ≤ n then dropBytes? (n - c.utf8Size) cs
    else none

/-- What is kept of a line: its characters, last one first, and the sizes of the clusters that can
be taken back, last one first. A size has one byte, so of a cluster of 256 bytes or more only the
remainder is taken back. -/
structure Kept where
  chars : List Char := []
  sizes : List UInt8 := []

/-- What is kept after one more cluster. -/
def Kept.push? (kept : Kept) (cluster : List Char) : Option Kept :=
  if cluster = [backspace] then
    match kept.sizes with
    | [] => some kept
    | size :: sizes =>
      (dropBytes? size.toNat kept.chars).map fun chars => { chars := chars, sizes := sizes }
  else
    some { chars := cluster.reverse ++ kept.chars
           sizes := (byteSize cluster).toUInt8 :: kept.sizes }

/-- What backspaces leave of a line, unless one of them cuts a character. -/
def eraseBackspaces? (line : List Char) : Option (List Char) :=
  ((Grapheme.clusters line).foldlM Kept.push? {}).map fun kept => kept.chars.reverse

theorem Kept.foldlM_push? (kept : Kept) (clusters : List (List Char))
    (free : [backspace] ∉ clusters) :
    (clusters.foldlM Kept.push? kept).map Kept.chars =
      some (clusters.flatten.reverse ++ kept.chars) := by
  induction clusters generalizing kept with
  | nil => rfl
  | cons cluster rest ih =>
    simp only [List.mem_cons, not_or] at free
    rw [List.foldlM_cons, Kept.push?, if_neg (Ne.symm free.1)]
    simp [ih _ free.2]

/-- A line without backspaces stays as it is. -/
theorem eraseBackspaces?_eq_some {line : List Char} (free : backspace ∉ line) :
    eraseBackspaces? line = some line := by
  have none_alone : [backspace] ∉ Grapheme.clusters line := by
    intro alone
    apply free
    rw [← Grapheme.flatten_clusters line]
    exact List.mem_flatten.mpr ⟨_, alone, List.mem_singleton.mpr rfl⟩
  have chars := Kept.foldlM_push? {} _ none_alone
  rw [Grapheme.flatten_clusters] at chars
  obtain ⟨kept, folds, chars⟩ := Option.map_eq_some_iff.mp chars
  simp [eraseBackspaces?, folds, chars]

end MiniLisp.Text
