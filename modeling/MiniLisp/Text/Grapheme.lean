import MiniLisp.Text.Grapheme.Table

/-!
# Grapheme clusters

A grapheme cluster is what a reader takes for one character: a letter with its accents, a Hangul
syllable, a flag, a family of pictographs. The clusters are the extended ones of Unicode, so a
conjunct of consonants is one cluster too.

Main statement: the clusters of a text make up the text.
-/

namespace MiniLisp.Text.Grapheme

/-- What a character means for the bounds of clusters. -/
inductive Break where
  | other
  | carriageReturn
  | lineFeed
  | control
  | extend
  | linker
  | nonJoiner
  | joiner
  | spacingMark
  | prepend
  | regional
  | pictograph
  | consonant
  | leading
  | vowel
  | trailing
  | syllable
  | closedSyllable
deriving DecidableEq, Repr

/-- What the character `c` means for the bounds of clusters. A Hangul syllable is closed if it has a
trailing consonant, which only every twenty-eighth does not. -/
def Break.ofChar (c : Char) : Break :=
  let n := c.toNat
  if n = 0x0D then .carriageReturn
  else if n = 0x0A then .lineFeed
  else if n = 0x200C then .nonJoiner
  else if n = 0x200D then .joiner
  else if within n controlRanges then .control
  else if within n extendRanges then .extend
  else if within n linkerRanges then .linker
  else if within n spacingMarkRanges then .spacingMark
  else if within n prependRanges then .prepend
  else if within n consonantRanges then .consonant
  else if within n pictographRanges then .pictograph
  else if within n [(0x1F1E6, 0x1F1FF)] then .regional
  else if within n leadingJamoRanges then .leading
  else if within n vowelJamoRanges then .vowel
  else if within n trailingJamoRanges then .trailing
  else if within n [(0xAC00, 0xD7A3)] then
    if (n - 0xAC00) % 28 = 0 then .syllable else .closedSyllable
  else .other

/-- How a text ends, as far as it matters for the character after it. -/
inductive Ending where
  /-- Nothing but marks can go on with the cluster. -/
  | plain
  | carriageReturn
  | control
  | prepend
  /-- A regional indicator that still lacks its partner. -/
  | regional
  /-- A pictograph and characters that extend it. -/
  | pictograph
  /-- A pictograph, characters that extend it, and a joiner. -/
  | joined
  /-- A consonant and characters that extend it. -/
  | consonant
  /-- A consonant and characters that extend it, with a linker among them. -/
  | conjunct
  | leading
  | vowel
  | trailing
deriving DecidableEq, Repr

/-- Whether a character goes on with the cluster of the text before it. -/
def Ending.joins : Ending → Break → Bool
  | .carriageReturn, .lineFeed => true
  | .carriageReturn, _ | .control, _ => false
  | _, .carriageReturn | _, .lineFeed | _, .control => false
  | _, .extend | _, .linker | _, .nonJoiner | _, .joiner | _, .spacingMark => true
  | .prepend, _ => true
  | .regional, .regional | .joined, .pictograph | .conjunct, .consonant => true
  | .leading, .leading | .leading, .vowel | .leading, .syllable | .leading, .closedSyllable => true
  | .vowel, .vowel | .vowel, .trailing | .trailing, .trailing => true
  | _, _ => false

/-- How a text ends after one more character. -/
def Ending.push : Ending → Break → Ending
  | _, .carriageReturn => .carriageReturn
  | _, .lineFeed | _, .control => .control
  | _, .prepend => .prepend
  | .regional, .regional => .plain
  | _, .regional => .regional
  | _, .pictograph => .pictograph
  | .pictograph, .extend | .pictograph, .linker | .pictograph, .nonJoiner => .pictograph
  | .pictograph, .joiner => .joined
  | _, .consonant => .consonant
  | .consonant, .extend | .consonant, .joiner => .consonant
  | .consonant, .linker => .conjunct
  | .conjunct, .extend | .conjunct, .joiner | .conjunct, .linker => .conjunct
  | _, .leading => .leading
  | _, .vowel | _, .syllable => .vowel
  | _, .trailing | _, .closedSyllable => .trailing
  | _, _ => .plain

/-- A text cut into clusters, last cluster first and each with its last character first. -/
structure Cut where
  clusters : List (List Char) := []
  ending : Ending := .plain

/-- One more character at the end of the text. -/
def Cut.push (cut : Cut) (c : Char) : Cut where
  clusters :=
    match cut.clusters with
    | [] => [[c]]
    | cluster :: rest =>
      if cut.ending.joins (.ofChar c) then (c :: cluster) :: rest else [c] :: cluster :: rest
  ending := cut.ending.push (.ofChar c)

/-- The clusters of a cut text, first one first. -/
def Cut.toList (cut : Cut) : List (List Char) :=
  (cut.clusters.map List.reverse).reverse

/-- The grapheme clusters of a text. -/
def clusters (cs : List Char) : List (List Char) :=
  (cs.foldl Cut.push {}).toList

theorem Cut.flatten_toList_push (cut : Cut) (c : Char) :
    (cut.push c).toList.flatten = cut.toList.flatten ++ [c] := by
  cases h : cut.clusters with
  | nil => simp [Cut.toList, Cut.push, h]
  | cons cluster rest =>
    by_cases joined : cut.ending.joins (.ofChar c) <;> simp [Cut.toList, Cut.push, h, joined]

theorem Cut.flatten_toList_foldl (cut : Cut) (cs : List Char) :
    (cs.foldl Cut.push cut).toList.flatten = cut.toList.flatten ++ cs := by
  induction cs generalizing cut with
  | nil => simp
  | cons c cs ih => simp [ih, Cut.flatten_toList_push]

/-- The clusters of a text make up the text. -/
@[simp]
theorem flatten_clusters (cs : List Char) : (clusters cs).flatten = cs := by
  rw [clusters, Cut.flatten_toList_foldl]
  rfl

end MiniLisp.Text.Grapheme
