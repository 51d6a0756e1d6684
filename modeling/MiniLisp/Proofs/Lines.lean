import Mathlib.Data.List.TakeWhile
import MiniLisp.Text.Blank
import MiniLisp.Text.Lines

/-!
# Lines and blanks

What is used of lines by those who read texts line by line.

Results:
1. `trim_eq_nil_iff`: a text is blank exactly if trimming leaves nothing of it.
2. `linesFrom_line`, `linesFrom_last`: the first line of a text, and a text that is one line.
3. `mem_of_mem_lines`, `lines_self`: a line holds characters of the text, and no line feed. So it is
   the only line of a text of its own.
-/

namespace MiniLisp.Text

/-- The text holds no line feed. -/
def OneLine (text : String) : Prop := '\n' ∉ text.toList

instance : DecidablePred OneLine := fun text => inferInstanceAs (Decidable ('\n' ∉ text.toList))

theorem oneLine_append {a b : String} : OneLine (a ++ b) ↔ OneLine a ∧ OneLine b := by
  simp [OneLine]

/-! ## Blanks -/

theorem trim_eq_nil_iff {cs : List Char} : trim cs = [] ↔ isBlankText cs = true := by
  simp only [trim, trimStart, List.reverse_eq_nil_iff, List.dropWhile_eq_nil_iff,
    List.mem_reverse, isBlankText, List.all_eq_true]
  constructor
  · intro h c hc
    rw [← List.takeWhile_append_dropWhile (p := isBlank) (l := cs)] at hc
    rcases List.mem_append.mp hc with hfront | hback
    · exact List.mem_takeWhile_imp hfront
    · exact h c hback
  · intro h c hc
    exact h c ((List.dropWhile_sublist isBlank).mem hc)

/-! ## Lines -/

theorem dropReturn_append_return (cs : List Char) : dropReturn (cs ++ ['\r']) = cs := by
  simp [dropReturn]

theorem dropReturn_of_getLast? {cs : List Char} (h : cs.getLast? ≠ some '\r') :
    dropReturn cs = cs :=
  if_neg h

theorem linesFrom_append {cs : List Char} (h : '\n' ∉ cs) (passed rest : List Char) :
    linesFrom passed (cs ++ rest) = linesFrom (cs.reverse ++ passed) rest := by
  induction cs generalizing passed with
  | nil => rfl
  | cons c cs ih =>
    simp only [List.mem_cons, not_or] at h
    simp [linesFrom, Ne.symm h.1, ih h.2]

/-- The first line of a text, if a line feed ends it. -/
theorem linesFrom_line {cs : List Char} (h : '\n' ∉ cs) (rest : List Char) :
    linesFrom [] (cs ++ '\n' :: rest) = dropReturn cs :: linesFrom [] rest := by
  rw [linesFrom_append h]
  simp [linesFrom]

/-- A text without line feeds is one line, or it is empty and has none. -/
theorem linesFrom_last {cs : List Char} (h : '\n' ∉ cs) :
    linesFrom [] cs = if cs = [] then [] else [cs] := by
  have hall := linesFrom_append h [] []
  simpa [linesFrom] using hall

theorem mem_of_mem_dropReturn {cs : List Char} {c : Char} (h : c ∈ dropReturn cs) : c ∈ cs := by
  unfold dropReturn at h
  split at h
  · exact (List.dropLast_sublist cs).mem h
  · exact h

/-- A line holds characters of the text, those passed included, and of the rest no line feed. -/
theorem mem_of_mem_linesFrom {passed cs line : List Char} (h : line ∈ linesFrom passed cs) {c : Char}
    (hc : c ∈ line) : c ∈ passed ∨ (c ∈ cs ∧ c ≠ '\n') := by
  induction cs generalizing passed with
  | nil =>
    rw [linesFrom] at h
    split at h
    · cases h
    · rw [List.mem_singleton.mp h] at hc
      exact .inl (List.mem_reverse.mp hc)
  | cons d cs ih =>
    rw [linesFrom] at h
    split at h
    · rcases List.mem_cons.mp h with rfl | h
      · exact .inl (List.mem_reverse.mp (mem_of_mem_dropReturn hc))
      · rcases ih h with hpassed | ⟨hmem, hne⟩
        · cases hpassed
        · exact .inr ⟨List.mem_cons_of_mem d hmem, hne⟩
    · next hd =>
      rcases ih h with hpassed | ⟨hmem, hne⟩
      · rcases List.mem_cons.mp hpassed with rfl | hpassed
        · exact .inr ⟨List.mem_cons_self, hd⟩
        · exact .inl hpassed
      · exact .inr ⟨List.mem_cons_of_mem d hmem, hne⟩

theorem mem_of_mem_lines {text line : String} (h : line ∈ lines text) {c : Char}
    (hc : c ∈ line.toList) : c ∈ text.toList ∧ c ≠ '\n' := by
  obtain ⟨cs, hcs, rfl⟩ := List.mem_map.mp h
  rw [String.toList_ofList] at hc
  rcases mem_of_mem_linesFrom hcs hc with hpassed | hmem
  · cases hpassed
  · exact hmem

theorem oneLine_of_mem_lines {text line : String} (h : line ∈ lines text) : OneLine line :=
  fun hmem => (mem_of_mem_lines h hmem).2 rfl

/-- A line, unless it is empty, is the only line of a text of its own. -/
theorem lines_self {line : String} (h : OneLine line) (hne : line.toList ≠ []) :
    lines line = [line] := by
  rw [lines, linesFrom_last h, if_neg hne]
  simp

end MiniLisp.Text
