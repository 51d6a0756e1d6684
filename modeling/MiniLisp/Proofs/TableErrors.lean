import MiniLisp.Proofs.Tables

/-!
# Tables that are rejected

A line with a semicolon and an unknown mark behind it is an error only where an expectation is looked
for, which is right behind an input. The first such line is the error of the table. In any other
place the line is passed over: before the first input, behind an expectation, or behind another line
with a semicolon.

Results:
1. `expectation_visible_eq_error_iff`: the lines that are rejected in place of an expectation.
2. `casesOf_visible_cons`: what one line adds to the error of the lines below it, and from it
   `WrongFrom.of_casesOf` and `WrongFrom.exists_error` for all lines.
3. `cases_eq_error_iff`: the tables that are rejected, and the error.
4. `cases_malformed`: a table with such a line that is not rejected.
-/

namespace MiniLisp.Conformance

/-! ## Definitions -/

/-- A line that starts with a semicolon but not with the mark of an expectation. -/
structure Malformed (line : String) : Prop where
  semicolon : ";".toList <+: line.toList
  not_exactly : ¬ ";=>".toList <+: line.toList
  not_matching : ¬ ";/".toList <+: line.toList

instance : DecidablePred Malformed := fun _ =>
  decidable_of_iff' (_ ∧ _ ∧ _)
    ⟨fun h => ⟨h.semicolon, h.not_exactly, h.not_matching⟩, fun h => ⟨h.1, h.2.1, h.2.2⟩⟩

/-- A line that is taken for an input. -/
def takenAsInput (line : String) : Bool := !isIgnored line.toList && !isRemark line.toList

/-- `WrongFrom number lines error`: there is a malformed line right behind an input, with nothing but
lines that are passed over between them. The first of the lines has the given number. -/
inductive WrongFrom (number : Nat) : List String → TableError → Prop
  | intro {above between below : List String} {input line : String} :
      takenAsInput input = true → (∀ other ∈ between, isIgnored other.toList = true) →
      isIgnored line.toList = false → Malformed line →
      WrongFrom number (above ++ input :: (between ++ line :: below))
        ⟨number + above.length + 1 + between.length, line⟩

/-! ## Where an expectation is looked for -/

theorem Expectation.ofLine?_eq_none_iff {line : List Char} :
    ofLine? line = none ↔ ¬ ";=>".toList <+: line ∧ ¬ ";/".toList <+: line := by
  unfold ofLine?
  split
  · simp
  · simp
  · next hexactly hmatching =>
    refine iff_of_true rfl ⟨?_, ?_⟩
    · rintro ⟨text, rfl⟩
      exact hexactly text rfl
    · rintro ⟨pattern, rfl⟩
      exact hmatching pattern rfl

theorem malformed_iff {line : String} :
    Malformed line ↔ isRemark line.toList = true ∧ Expectation.ofLine? line.toList = none := by
  rw [isRemark, List.isPrefixOf_iff_prefix, Expectation.ofLine?_eq_none_iff]
  exact ⟨fun h => ⟨h.semicolon, h.not_exactly, h.not_matching⟩, fun h => ⟨h.1, h.2.1, h.2.2⟩⟩

theorem expectation_eq_error_iff {number : Nat} {line : String} {rest : List NumberedLine}
    {error : TableError} :
    expectation ((number, line) :: rest) = .error error ↔
      Malformed line ∧ error = ⟨number, line⟩ := by
  rw [malformed_iff, expectation]
  split
  · next hremark =>
    split
    · next hsome => simp [hsome]
    · next hnone => simp [hremark, hnone, eq_comm]
  · next hremark => simp [hremark]

/-- A line is rejected in place of an expectation if it is malformed and the first line that is not
passed over. -/
theorem expectation_visible_eq_error_iff {number : Nat} {lines : List String} {error : TableError} :
    expectation (visible number lines) = .error error ↔
      ∃ between below, lines = between ++ error.text :: below ∧
        error.line = number + between.length ∧
        (∀ other ∈ between, isIgnored other.toList = true) ∧
        isIgnored error.text.toList = false ∧ Malformed error.text := by
  induction lines generalizing number with
  | nil =>
    refine iff_of_false ?_ ?_
    · rintro ⟨⟩
    · rintro ⟨between, below, hlines, _⟩
      cases between <;> cases hlines
  | cons line lines ih =>
    cases hignored : isIgnored line.toList with
    | true =>
      rw [visible_cons_of_isIgnored hignored, ih]
      constructor
      · rintro ⟨between, below, rfl, hnumber, hbetween, hrest⟩
        refine ⟨line :: between, below, rfl, ?_, List.forall_mem_cons.mpr ⟨hignored, hbetween⟩, hrest⟩
        rw [hnumber, List.length_cons, Nat.add_assoc, Nat.add_comm 1]
      · rintro ⟨between, below, hlines, hnumber, hbetween, hvisible, hmalformed⟩
        cases between with
        | nil =>
          cases hlines
          rw [hignored] at hvisible
          cases hvisible
        | cons first between =>
          cases hlines
          refine ⟨between, below, rfl, ?_, (List.forall_mem_cons.mp hbetween).2, hvisible, hmalformed⟩
          rw [hnumber, List.length_cons, Nat.add_assoc, Nat.add_comm 1]
    | false =>
      rw [visible_cons hignored, expectation_eq_error_iff]
      constructor
      · rintro ⟨hmalformed, rfl⟩
        exact ⟨[], lines, rfl, rfl, List.forall_mem_nil _, hignored, hmalformed⟩
      · rintro ⟨between, below, hlines, hnumber, hbetween, _, hmalformed⟩
        obtain ⟨reported, text⟩ := error
        cases between with
        | nil =>
          cases hlines
          cases hnumber
          exact ⟨hmalformed, rfl⟩
        | cons first between =>
          cases hlines
          rw [(List.forall_mem_cons.mp hbetween).1] at hignored
          cases hignored

/-! ## Wrong lines -/

/-- The wrong lines behind the first line, and the one that the first line has if it is an input. -/
theorem wrongFrom_cons_iff {number : Nat} {line : String} {lines : List String}
    {error : TableError} :
    WrongFrom number (line :: lines) error ↔
      (takenAsInput line = true ∧ expectation (visible (number + 1) lines) = .error error) ∨
        WrongFrom (number + 1) lines error := by
  constructor
  · intro h
    generalize hall : line :: lines = all at h
    cases h with
    | @intro above between below input wrong hinput hbetween hvisible hmalformed =>
      cases above with
      | nil =>
        cases hall
        exact .inl ⟨hinput, expectation_visible_eq_error_iff.mpr
          ⟨between, below, rfl, rfl, hbetween, hvisible, hmalformed⟩⟩
      | cons first above =>
        cases hall
        have hnumber : number + (above.length + 1) + 1 + between.length =
            number + 1 + above.length + 1 + between.length := by omega
        rw [List.length_cons, hnumber]
        exact .inr (.intro hinput hbetween hvisible hmalformed)
  · rintro (⟨hinput, hexpectation⟩ | h)
    · obtain ⟨reported, text⟩ := error
      obtain ⟨between, below, rfl, hnumber, hbetween, hvisible, hmalformed⟩ :=
        expectation_visible_eq_error_iff.mp hexpectation
      cases hnumber
      exact @WrongFrom.intro number [] _ _ _ _ hinput hbetween hvisible hmalformed
    · cases h with
      | @intro above between below input wrong hinput hbetween hvisible hmalformed =>
        have hnumber : number + 1 + above.length + 1 + between.length =
            number + (line :: above).length + 1 + between.length := by
          rw [List.length_cons]
          omega
        rw [hnumber]
        exact @WrongFrom.intro number (line :: above) _ _ _ _ hinput hbetween hvisible hmalformed

/-- The number of a wrong line is that of a line with its text, which is not the first one. -/
theorem WrongFrom.exists_getElem? {number : Nat} {lines : List String} {error : TableError}
    (h : WrongFrom number lines error) :
    ∃ k, error.line = number + (k + 1) ∧ lines[k + 1]? = some error.text := by
  cases h with
  | @intro above between below input wrong _ _ _ _ =>
    refine ⟨above.length + between.length, by dsimp only; omega, ?_⟩
    rw [Nat.add_assoc, List.getElem?_append_right (Nat.le_add_right _ _), Nat.add_sub_cancel_left,
      List.getElem?_cons_succ]
    simp

theorem WrongFrom.eq_of_line_eq {number : Nat} {lines : List String} {error other : TableError}
    (h : WrongFrom number lines error) (hother : WrongFrom number lines other)
    (hline : error.line = other.line) : error = other := by
  obtain ⟨j, hj, hjtext⟩ := h.exists_getElem?
  obtain ⟨k, hk, hktext⟩ := hother.exists_getElem?
  obtain rfl : j = k := by omega
  obtain ⟨_, _⟩ := error
  cases hline
  cases hjtext.symm.trans hktext
  rfl

/-- A line that is rejected in place of an expectation is before all wrong lines that follow. -/
theorem line_le_of_expectation {number : Nat} {lines : List String} {error other : TableError}
    (h : expectation (visible number lines) = .error error) (hother : WrongFrom number lines other) :
    error.line ≤ other.line := by
  induction lines generalizing number with
  | nil => cases h
  | cons line lines ih =>
    cases hignored : isIgnored line.toList with
    | true =>
      rw [visible_cons_of_isIgnored hignored] at h
      rcases wrongFrom_cons_iff.mp hother with ⟨hinput, _⟩ | hother
      · simp [takenAsInput, hignored] at hinput
      · exact ih h hother
    | false =>
      rw [visible_cons hignored, expectation_eq_error_iff] at h
      obtain ⟨k, hk, _⟩ := hother.exists_getElem?
      rw [h.2, hk]
      exact Nat.le_add_right _ _

theorem wrongFrom_cons_of_not {number : Nat} {line : String} {lines : List String}
    {error : TableError}
    (h : ¬ (takenAsInput line = true ∧ expectation (visible (number + 1) lines) = .error error)) :
    WrongFrom number (line :: lines) error ↔ WrongFrom (number + 1) lines error := by
  rw [wrongFrom_cons_iff, or_iff_right h]

/-! ## Cases -/

theorem casesOf_visible_cons_of_not_input {line : String} (h : takenAsInput line = false)
    (number : Nat) (lines : List String) :
    casesOf (visible number (line :: lines)) = casesOf (visible (number + 1) lines) := by
  cases hignored : isIgnored line.toList with
  | true => rw [visible_cons_of_isIgnored hignored]
  | false =>
    have hremark : isRemark line.toList = true := by simpa [takenAsInput, hignored] using h
    rw [visible_cons hignored, casesOf_cons_of_isRemark hremark]

/-- At an input the expectation is looked for first. -/
theorem casesOf_visible_cons_of_input {line : String} (h : takenAsInput line = true) (number : Nat)
    (lines : List String) :
    casesOf (visible number (line :: lines)) = (do
      let expected ← expectation (visible (number + 1) lines)
      let cases ← casesOf (visible (number + 1) lines)
      return ⟨number, line, expected⟩ :: cases) := by
  simp only [takenAsInput, Bool.and_eq_true, Bool.not_eq_true'] at h
  rw [visible_cons h.1, casesOf, if_neg (by simp [h.2])]

/-- One line: either the expectation of an input is wrong, and that is the error, or the error is that
of the lines below. -/
theorem casesOf_visible_cons (number : Nat) (line : String) (lines : List String) :
    (∃ error, takenAsInput line = true ∧
        expectation (visible (number + 1) lines) = .error error ∧
        casesOf (visible number (line :: lines)) = .error error) ∨
      (∀ error,
        ¬ (takenAsInput line = true ∧ expectation (visible (number + 1) lines) = .error error)) ∧
      ∀ error, casesOf (visible number (line :: lines)) = .error error ↔
        casesOf (visible (number + 1) lines) = .error error := by
  cases hinput : takenAsInput line with
  | false =>
    refine .inr ⟨by simp, fun error => ?_⟩
    rw [casesOf_visible_cons_of_not_input hinput]
  | true =>
    rw [casesOf_visible_cons_of_input hinput]
    cases expectation (visible (number + 1) lines) with
    | error first => exact .inl ⟨first, rfl, rfl, rfl⟩
    | ok expected =>
      refine .inr ⟨by simp, fun error => ?_⟩
      cases casesOf (visible (number + 1) lines) with
      | error later => exact Iff.rfl
      | ok found => exact iff_of_false (by rintro ⟨⟩) (by rintro ⟨⟩)

/-- The error is a wrong line, and there is none before it. -/
theorem WrongFrom.of_casesOf {number : Nat} {lines : List String} {error : TableError}
    (h : casesOf (visible number lines) = .error error) :
    WrongFrom number lines error ∧
      ∀ other, WrongFrom number lines other → error.line ≤ other.line := by
  induction lines generalizing number with
  | nil => cases h
  | cons line lines ih =>
    rcases casesOf_visible_cons number line lines with
      ⟨first, hinput, hexpectation, hfirst⟩ | ⟨hnone, hbelow⟩
    · cases hfirst.symm.trans h
      refine ⟨wrongFrom_cons_iff.mpr (.inl ⟨hinput, hexpectation⟩), fun other hother => ?_⟩
      rcases wrongFrom_cons_iff.mp hother with ⟨_, hsame⟩ | hother
      · cases hexpectation.symm.trans hsame
        exact Nat.le_refl _
      · exact line_le_of_expectation hexpectation hother
    · obtain ⟨hwrong, hleast⟩ := ih ((hbelow error).mp h)
      refine ⟨(wrongFrom_cons_of_not (hnone error)).mpr hwrong, fun other hother => ?_⟩
      exact hleast other ((wrongFrom_cons_of_not (hnone other)).mp hother)

/-- Where there is a wrong line there is an error. -/
theorem WrongFrom.exists_error {number : Nat} {lines : List String} {wrong : TableError}
    (h : WrongFrom number lines wrong) : ∃ error, casesOf (visible number lines) = .error error := by
  induction lines generalizing number with
  | nil =>
    obtain ⟨_, _, hline⟩ := h.exists_getElem?
    cases hline
  | cons line lines ih =>
    rcases casesOf_visible_cons number line lines with ⟨first, _, _, hfirst⟩ | ⟨hnone, hbelow⟩
    · exact ⟨first, hfirst⟩
    · obtain ⟨error, herror⟩ := ih ((wrongFrom_cons_of_not (hnone wrong)).mp h)
      exact ⟨error, (hbelow error).mpr herror⟩

/-! ## Tables -/

/-- A table is rejected exactly if one of its lines is malformed and right behind an input. The error
is the first of these lines, with its number. Malformed lines in other places are not looked at. -/
theorem cases_eq_error_iff (table : String) :
    ((∃ error, cases table = .error error) ↔ ∃ error, WrongFrom 1 (Text.lines table) error) ∧
    ∀ error, cases table = .error error ↔
      WrongFrom 1 (Text.lines table) error ∧
        ∀ other, WrongFrom 1 (Text.lines table) other → error.line ≤ other.line := by
  have hcases : cases table = casesOf (visible 1 (Text.lines table)) := rfl
  rw [hcases]
  refine ⟨⟨?_, ?_⟩, fun error => ⟨WrongFrom.of_casesOf, ?_⟩⟩
  · rintro ⟨error, herror⟩
    exact ⟨error, (WrongFrom.of_casesOf herror).1⟩
  · rintro ⟨wrong, hwrong⟩
    exact hwrong.exists_error
  · rintro ⟨herror, hbefore⟩
    obtain ⟨first, hfirst⟩ := herror.exists_error
    obtain ⟨hwrong, hleast⟩ := WrongFrom.of_casesOf hfirst
    have hline := Nat.le_antisymm (hleast error herror) (hbefore first hwrong)
    rw [hfirst, hwrong.eq_of_line_eq herror hline]

/-- A malformed line does not make a table wrong: behind an expectation it is passed over. -/
theorem cases_malformed :
    ¬ ∀ table : String,
      (∃ line ∈ Text.lines table, isIgnored line.toList = false ∧ Malformed line) →
        ∃ error, cases table = .error error := by
  intro h
  obtain ⟨error, herror⟩ := h "1\n;=>1\n;-> 2\n" ⟨";-> 2", by decide +kernel, by decide, by decide⟩
  have hcases : cases "1\n;=>1\n;-> 2\n" = .ok [⟨1, "1", some (.exactly "1")⟩] := by decide +kernel
  cases hcases.symm.trans herror

end MiniLisp.Conformance
