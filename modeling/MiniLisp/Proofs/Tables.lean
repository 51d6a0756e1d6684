import MiniLisp.Conformance
import MiniLisp.Proofs.Lines

/-!
# Tables as they are written

A table is written line by line: for each case its input and, if there is one, its expectation, with
lines that are passed over in any number and in any place. The lines are joined to a text by line
feeds, with or without carriage returns.

The number of a line counts all lines, and an expectation is looked for among those that are not
passed over. `visible` has both: it numbers the lines first and leaves out those that are passed over
afterwards.

Results:
1. `Joined.visible_eq`: what is visible of a text is what is visible of the lines that it was joined
   from, however they were joined.
2. `casesOf_visible`: the cases among visible lines are those that were written.
3. `cases_of_joined`: a table that was written reads back.
-/

namespace MiniLisp.Conformance

open Text

/-! ## Definitions -/

/-- A line that is passed over: it is blank, or it starts with one of two marks. -/
structure Ignorable (line : String) : Prop where
  oneLine : OneLine line
  ignored : trim line.toList = [] ∨ ";;".toList <+: line.toList ∨ ";>>>".toList <+: line.toList

/-- A line that is found again as it was: it holds no line feed, and no carriage return at its end. -/
structure Plain (line : String) : Prop where
  oneLine : OneLine line
  no_return : line.toList.getLast? ≠ some '\r'

/-- A line that is an input. -/
structure IsInput (line : String) : Prop extends Plain line where
  not_blank : trim line.toList ≠ []
  no_semicolon : line.toList.head? ≠ some ';'

instance : DecidablePred Ignorable := fun _ =>
  decidable_of_iff' (_ ∧ _) ⟨fun h => ⟨h.oneLine, h.ignored⟩, fun h => ⟨h.1, h.2⟩⟩

instance : DecidablePred Plain := fun _ =>
  decidable_of_iff' (_ ∧ _) ⟨fun h => ⟨h.oneLine, h.no_return⟩, fun h => ⟨h.1, h.2⟩⟩

instance : DecidablePred IsInput := fun _ =>
  decidable_of_iff' (_ ∧ _ ∧ _)
    ⟨fun h => ⟨h.toPlain, h.not_blank, h.no_semicolon⟩, fun h => ⟨h.1, h.2.1, h.2.2⟩⟩

/-- The text or the pattern of an expectation. -/
def Expectation.text : Expectation → String
  | .exactly text => text
  | .matching pattern => pattern

/-- The mark before it. -/
def Expectation.mark : Expectation → String
  | .exactly _ => ";=>"
  | .matching _ => ";/"

/-- The line that states an expectation. -/
def Expectation.line (expected : Expectation) : String := expected.mark ++ expected.text

/-- A case as it is written, with the lines that are passed over before its input and behind it. -/
structure Entry where
  above : List String
  input : String
  between : List String
  expected : Option Expectation
  above_ignorable : ∀ line ∈ above, Ignorable line
  input_isInput : IsInput input
  between_ignorable : ∀ line ∈ between, Ignorable line
  expected_plain : ∀ expectation ∈ expected, Plain expectation.text

/-- The cases of a table, and the lines behind the last of them. -/
structure Table where
  entries : List Entry
  below : List String
  below_ignorable : ∀ line ∈ below, Ignorable line

/-- The lines of a case. -/
def Entry.lines (entry : Entry) : List String :=
  entry.above ++ entry.input :: (entry.between ++ (entry.expected.map Expectation.line).toList)

/-- The lines of a table. -/
def Table.lines (table : Table) : List String :=
  table.entries.flatMap Entry.lines ++ table.below

/-- The cases of entries, the first line of which has the given number. -/
def Entry.casesFrom (number : Nat) : List Entry → List Case
  | [] => []
  | entry :: rest =>
    ⟨number + entry.above.length, entry.input, entry.expected⟩ ::
      casesFrom (number + entry.lines.length) rest

/-- The cases of a table, with the numbers of the lines of their inputs. -/
def Table.cases (table : Table) : List Case := Entry.casesFrom 1 table.entries

/-- `Joined lines text`: the text has these lines, with a line feed between two of them, and with a
line feed or with none behind the last. There may be a carriage return before each line feed. -/
inductive Joined : List String → String → Prop
  | nil : Joined [] ""
  | last {line : String} : Joined [line] line
  | cons {line ending text : String} {lines : List String} :
      ending = "\n" ∨ ending = "\r\n" → Joined lines text →
      Joined (line :: lines) (line ++ ending ++ text)

/-- The lines that are not passed over, with their numbers among all lines. -/
def visible (number : Nat) (lines : List String) : List NumberedLine :=
  (numberFrom number lines).filter fun line => !isIgnored line.2.toList

/-! ## Lines that are passed over -/

theorem Ignorable.isIgnored_eq {line : String} (h : Ignorable line) :
    isIgnored line.toList = true := by
  simp only [isIgnored, Bool.or_eq_true, List.isPrefixOf_iff_prefix, ← trim_eq_nil_iff, or_assoc]
  exact h.ignored

theorem visible_cons_of_isIgnored {line : String} (h : isIgnored line.toList = true) (number : Nat)
    (lines : List String) : visible number (line :: lines) = visible (number + 1) lines := by
  simp [visible, numberFrom, h]

theorem visible_cons {line : String} (h : isIgnored line.toList = false) (number : Nat)
    (lines : List String) :
    visible number (line :: lines) = (number, line) :: visible (number + 1) lines := by
  simp [visible, numberFrom, h]

theorem visible_cons_congr {line : String} {number : Nat} {lines lines' : List String}
    (h : visible (number + 1) lines = visible (number + 1) lines') :
    visible number (line :: lines) = visible number (line :: lines') := by
  cases hline : isIgnored line.toList with
  | true => rw [visible_cons_of_isIgnored hline, visible_cons_of_isIgnored hline, h]
  | false => rw [visible_cons hline, visible_cons hline, h]

/-- Lines that are passed over are counted all the same. -/
theorem visible_append {above : List String} (h : ∀ line ∈ above, Ignorable line) (number : Nat)
    (lines : List String) :
    visible number (above ++ lines) = visible (number + above.length) lines := by
  induction above generalizing number with
  | nil => rfl
  | cons line above ih =>
    rw [List.forall_mem_cons] at h
    rw [List.cons_append, visible_cons_of_isIgnored h.1.isIgnored_eq, ih h.2, List.length_cons,
      Nat.add_right_comm, Nat.add_assoc]

theorem visible_eq_nil {lines : List String} (h : ∀ line ∈ lines, Ignorable line) (number : Nat) :
    visible number lines = [] := by
  rw [← List.append_nil lines, visible_append h]
  rfl

/-! ## From the text to its lines -/

/-- A line that loses a carriage return keeps the marks that it starts with. -/
theorem prefix_dropReturn {mark cs : List Char} (hmark : mark.getLast? ≠ some '\r')
    (h : mark <+: cs) : mark <+: dropReturn cs := by
  obtain ⟨rest, rfl⟩ := h
  unfold dropReturn
  split
  · next hreturn =>
    cases rest with
    | nil =>
      rw [List.append_nil] at hreturn
      exact absurd hreturn hmark
    | cons c cs =>
      rw [List.dropLast_append_of_ne_nil (List.cons_ne_nil c cs)]
      exact List.prefix_append _ _
  · exact List.prefix_append _ _

theorem isIgnored_dropReturn {cs : List Char} (h : isIgnored cs = true) :
    isIgnored (dropReturn cs) = true := by
  simp only [isIgnored, Bool.or_eq_true, List.isPrefixOf_iff_prefix] at h ⊢
  rcases h with (hblank | hmark) | hmark
  · refine .inl (.inl ?_)
    simp only [isBlankText, List.all_eq_true] at hblank ⊢
    exact fun c hc => hblank c (mem_of_mem_dropReturn hc)
  · exact .inl (.inr (prefix_dropReturn (by decide) hmark))
  · exact .inr (prefix_dropReturn (by decide) hmark)

/-- The first line of a joined text is the line that was joined, or it has lost a carriage return at
its end. -/
theorem exists_lines_eq {line ending : String} (hline : OneLine line)
    (hending : ending = "\n" ∨ ending = "\r\n") (text : String) :
    ∃ first, Text.lines (line ++ ending ++ text) = first :: Text.lines text ∧
      (first = line ∨ first = String.ofList (dropReturn line.toList)) := by
  rcases hending with rfl | rfl
  · refine ⟨_, ?_, .inr rfl⟩
    simp [Text.lines, linesFrom_line hline]
  · refine ⟨line, ?_, .inl rfl⟩
    have hreturn : '\n' ∉ line.toList ++ ['\r'] := by
      simpa [OneLine] using hline
    have hfirst := linesFrom_line hreturn text.toList
    rw [dropReturn_append_return, List.append_assoc] at hfirst
    simpa [Text.lines] using congrArg (List.map String.ofList) hfirst

/-- The same lines are visible in a text and among the lines that it was joined from. -/
theorem Joined.visible_eq {lines : List String} {text : String} (h : Joined lines text)
    (hlines : ∀ line ∈ lines, Ignorable line ∨ Plain line) (number : Nat) :
    visible number (Text.lines text) = visible number lines := by
  have honeLine : ∀ line ∈ lines, OneLine line :=
    fun line hline => (hlines line hline).elim Ignorable.oneLine Plain.oneLine
  induction h generalizing number with
  | nil => rfl
  | @last line =>
    -- An empty line at the end of the text is none, but it would be passed over anyway.
    by_cases hempty : line = ""
    · subst hempty
      rfl
    · have hne : line.toList ≠ [] := by simpa using hempty
      simp [Text.lines, linesFrom_last (honeLine line List.mem_cons_self), hne]
  | @cons line ending text lines hending _ ih =>
    rw [List.forall_mem_cons] at hlines honeLine
    obtain ⟨first, hfirst, hsame⟩ := exists_lines_eq honeLine.1 hending text
    have hrest := ih hlines.2 (number + 1) honeLine.2
    rw [hfirst]
    rcases hlines.1 with hline | hline
    · have hignored : isIgnored first.toList = true := by
        rcases hsame with rfl | rfl
        · exact hline.isIgnored_eq
        · rw [String.toList_ofList]
          exact isIgnored_dropReturn hline.isIgnored_eq
      rw [visible_cons_of_isIgnored hignored, visible_cons_of_isIgnored hline.isIgnored_eq, hrest]
    · have hsame : first = line := by
        rcases hsame with rfl | rfl
        · rfl
        · rw [dropReturn_of_getLast? hline.no_return, String.ofList_toList]
      rw [hsame]
      exact visible_cons_congr hrest

/-! ## Inputs and expectations -/

theorem isIgnored_eq_false {line : String} (hblank : trim line.toList ≠ [])
    (hdouble : ¬ ";;".toList <+: line.toList) (harrows : ¬ ";>>>".toList <+: line.toList) :
    isIgnored line.toList = false := by
  rw [Bool.eq_false_iff, isIgnored, Ne, Bool.or_eq_true, Bool.or_eq_true,
    List.isPrefixOf_iff_prefix, List.isPrefixOf_iff_prefix, ← trim_eq_nil_iff]
  exact not_or.mpr ⟨not_or.mpr ⟨hblank, hdouble⟩, harrows⟩

theorem IsInput.not_prefix {line : String} (h : IsInput line) (mark : List Char) :
    ¬ (';' :: mark) <+: line.toList := by
  rintro ⟨rest, hrest⟩
  exact h.no_semicolon (by rw [← hrest]; rfl)

theorem IsInput.isIgnored_eq {line : String} (h : IsInput line) :
    isIgnored line.toList = false :=
  isIgnored_eq_false h.not_blank (h.not_prefix _) (h.not_prefix _)

theorem IsInput.isRemark_eq {line : String} (h : IsInput line) : isRemark line.toList = false := by
  rw [Bool.eq_false_iff, isRemark, Ne, List.isPrefixOf_iff_prefix]
  exact h.not_prefix []

namespace Expectation

theorem isIgnored_line (expected : Expectation) : isIgnored expected.line.toList = false := by
  have hblank : trim expected.line.toList ≠ [] := by
    intro htrim
    rw [trim_eq_nil_iff, isBlankText, List.all_eq_true] at htrim
    have hsemicolon : isBlank ';' = true := htrim ';' (by cases expected <;> simp [line, mark])
    exact absurd hsemicolon (by decide)
  cases expected with
  | exactly text => exact isIgnored_eq_false hblank (by simp [line, mark]) (by simp [line, mark])
  | matching pattern => exact isIgnored_eq_false hblank (by simp [line, mark]) (by simp [line, mark])

theorem isRemark_line (expected : Expectation) : isRemark expected.line.toList = true := by
  cases expected <;> simp [line, mark, isRemark]

/-- An expectation is found again in its line. -/
theorem ofLine?_line (expected : Expectation) : ofLine? expected.line.toList = some expected := by
  cases expected <;> simp [line, mark, text, ofLine?]

/-- The mark before the text of an expectation keeps its line plain. -/
theorem plain_line {expected : Expectation} (h : Plain expected.text) : Plain expected.line := by
  have hmark : Plain expected.mark := by
    cases expected with
    | exactly _ => exact (by decide : Plain ";=>")
    | matching _ => exact (by decide : Plain ";/")
  constructor
  · exact oneLine_append.mpr ⟨hmark.oneLine, h.oneLine⟩
  · rw [line, String.toList_append, List.getLast?_append]
    cases hlast : expected.text.toList.getLast? with
    | none => exact hmark.no_return
    | some c =>
      rw [Option.some_or, ← hlast]
      exact h.no_return

end Expectation

/-! ## From the lines to the cases -/

theorem casesOf_cons_of_isRemark {line : String} (h : isRemark line.toList = true) (number : Nat)
    (rest : List NumberedLine) : casesOf ((number, line) :: rest) = casesOf rest := by
  simp [casesOf, h]

theorem casesOf_cons {line : String} {rest : List NumberedLine} {expected : Option Expectation}
    {found : List Case} (h : isRemark line.toList = false) (number : Nat)
    (hexpected : expectation rest = .ok expected) (hrest : casesOf rest = .ok found) :
    casesOf ((number, line) :: rest) = .ok (⟨number, line, expected⟩ :: found) := by
  rw [casesOf, if_neg (by simp [h]), hexpected, hrest]
  rfl

/-- In the visible lines of a case, the input is followed by its expectation or, if it has none, by
what follows the case. -/
theorem Entry.visible_lines_append (entry : Entry) (number : Nat) (following : List String) :
    ∃ rest, visible number (entry.lines ++ following) =
        (number + entry.above.length, entry.input) :: rest ∧
      casesOf rest = casesOf (visible (number + entry.lines.length) following) ∧
      (expectation (visible (number + entry.lines.length) following) = .ok none →
        expectation rest = .ok entry.expected) := by
  obtain ⟨above, input, between, expected, habove, hinput, hbetween, hexpected⟩ := entry
  simp only [lines, List.append_assoc, List.cons_append, visible_append habove,
    visible_cons hinput.isIgnored_eq, visible_append hbetween, List.length_append, List.length_cons]
  refine ⟨_, rfl, ?_⟩
  cases expected with
  | none =>
    have hnumber : number + (above.length + (between.length + 0 + 1)) =
        number + above.length + 1 + between.length := by omega
    simp only [Option.map_none, Option.toList_none, List.length_nil, List.nil_append, hnumber]
    exact ⟨trivial, id⟩
  | some e =>
    have hnumber : number + (above.length + (between.length + 1 + 1)) =
        number + above.length + 1 + between.length + 1 := by omega
    simp only [Option.map_some, Option.toList_some, List.length_singleton, List.singleton_append,
      hnumber, visible_cons e.isIgnored_line]
    refine ⟨casesOf_cons_of_isRemark e.isRemark_line _ _, fun _ => ?_⟩
    rw [expectation, if_pos e.isRemark_line, e.ofLine?_line]

/-- The lines of a table do not begin with an expectation, nor do those that are left behind a case. -/
theorem expectation_visible (entries : List Entry) {below : List String}
    (hbelow : ∀ line ∈ below, Ignorable line) (number : Nat) :
    expectation (visible number (entries.flatMap Entry.lines ++ below)) = .ok none := by
  cases entries with
  | nil =>
    rw [List.flatMap_nil, List.nil_append, visible_eq_nil hbelow]
    rfl
  | cons entry entries =>
    rw [List.flatMap_cons, List.append_assoc]
    obtain ⟨rest, hvisible, _⟩ := entry.visible_lines_append number
      (entries.flatMap Entry.lines ++ below)
    rw [hvisible, expectation, if_neg (by simp [entry.input_isInput.isRemark_eq])]

/-- The cases among the visible lines of a table are those that were written. -/
theorem casesOf_visible (entries : List Entry) {below : List String}
    (hbelow : ∀ line ∈ below, Ignorable line) (number : Nat) :
    casesOf (visible number (entries.flatMap Entry.lines ++ below)) =
      .ok (Entry.casesFrom number entries) := by
  induction entries generalizing number with
  | nil =>
    rw [List.flatMap_nil, List.nil_append, visible_eq_nil hbelow]
    rfl
  | cons entry entries ih =>
    rw [List.flatMap_cons, List.append_assoc]
    obtain ⟨rest, hvisible, hrest, hexpected⟩ := entry.visible_lines_append number
      (entries.flatMap Entry.lines ++ below)
    rw [hvisible]
    exact casesOf_cons entry.input_isInput.isRemark_eq _
      (hexpected (expectation_visible entries hbelow _)) (hrest.trans (ih _))

/-! ## Tables -/

/-- The cases of a table, up to their numbers. -/
theorem Entry.map_casesFrom (number : Nat) (entries : List Entry) :
    (casesFrom number entries).map (fun case => (case.input, case.expected)) =
      entries.map fun entry => (entry.input, entry.expected) := by
  induction entries generalizing number with
  | nil => rfl
  | cons entry entries ih => rw [casesFrom, List.map_cons, List.map_cons, ih]

/-- The number of a case is that of the line of its input. -/
theorem Entry.getElem?_of_mem_casesFrom {number : Nat} {entries : List Entry} {case : Case}
    (h : case ∈ casesFrom number entries) (below : List String) :
    ∃ k, case.line = number + k ∧
      (entries.flatMap Entry.lines ++ below)[k]? = some case.input := by
  induction entries generalizing number with
  | nil => cases h
  | cons entry entries ih =>
    rw [List.flatMap_cons, List.append_assoc]
    rcases List.mem_cons.mp h with rfl | h
    · refine ⟨entry.above.length, rfl, ?_⟩
      simp [lines]
    · obtain ⟨k, hk, hline⟩ := ih h
      refine ⟨entry.lines.length + k, by rw [hk, Nat.add_assoc], ?_⟩
      rw [List.getElem?_append_right (Nat.le_add_right _ _), Nat.add_sub_cancel_left, hline]

theorem Entry.ignorable_or_plain {entry : Entry} {line : String} (h : line ∈ entry.lines) :
    Ignorable line ∨ Plain line := by
  simp only [lines, List.mem_append, List.mem_cons, Option.mem_toList, Option.map_eq_some_iff] at h
  rcases h with habove | rfl | hbetween | ⟨expected, hexpected, rfl⟩
  · exact .inl (entry.above_ignorable line habove)
  · exact .inr entry.input_isInput.toPlain
  · exact .inl (entry.between_ignorable line hbetween)
  · exact .inr (Expectation.plain_line (entry.expected_plain expected hexpected))

theorem Table.ignorable_or_plain {table : Table} {line : String} (h : line ∈ table.lines) :
    Ignorable line ∨ Plain line := by
  rcases List.mem_append.mp h with hentries | hbelow
  · obtain ⟨entry, _, hline⟩ := List.mem_flatMap.mp hentries
    exact entry.ignorable_or_plain hline
  · exact .inl (table.below_ignorable line hbelow)

/-- A table is read back from every text that its lines were joined to: the cases are those that were
written, in their order, each with its input and its expectation and with the number of the line that
its input is in. -/
theorem cases_of_joined {table : Table} {text : String} (h : Joined table.lines text) :
    cases text = .ok table.cases ∧
      table.cases.map (fun case => (case.input, case.expected)) =
        table.entries.map (fun entry => (entry.input, entry.expected)) ∧
      ∀ case ∈ table.cases, ∃ k, case.line = k + 1 ∧ table.lines[k]? = some case.input := by
  refine ⟨?_, Entry.map_casesFrom 1 table.entries, ?_⟩
  · calc cases text = casesOf (visible 1 (Text.lines text)) := rfl
      _ = casesOf (visible 1 table.lines) :=
        congrArg casesOf (h.visible_eq (fun _ => table.ignorable_or_plain) 1)
      _ = .ok table.cases := casesOf_visible table.entries table.below_ignorable 1
  · intro case hcase
    obtain ⟨k, hk, hline⟩ := Entry.getElem?_of_mem_casesFrom hcase table.below
    exact ⟨k, hk.trans (Nat.add_comm 1 k), hline⟩

/-- A table of two cases, the first of which has lines that are passed over on both sides of its
input. The text has one line feed without a carriage return, and none at its end. -/
theorem cases_of_joined_two :
    cases ";; sums\r\n(+ 1 2)\r\n \r\r\n;>>> soft=True\n;=>3\r\n(def x 1)" =
      .ok [⟨2, "(+ 1 2)", some (.exactly "3")⟩, ⟨6, "(def x 1)", none⟩] := by
  let table : Table :=
    { entries :=
        [⟨[";; sums"], "(+ 1 2)", [" \r", ";>>> soft=True"], some (.exactly "3"),
            by decide, by decide, by decide, by decide⟩,
          ⟨[], "(def x 1)", [], none, by decide, by decide, by decide, by decide⟩]
      below := []
      below_ignorable := by decide }
  have hreturn : "\r\n" = "\n" ∨ "\r\n" = "\r\n" := .inr rfl
  have hjoined : Joined table.lines
      (";; sums" ++ "\r\n" ++ ("(+ 1 2)" ++ "\r\n" ++ (" \r" ++ "\r\n" ++
        (";>>> soft=True" ++ "\n" ++ (";=>3" ++ "\r\n" ++ "(def x 1)"))))) :=
    .cons hreturn (.cons hreturn (.cons hreturn (.cons (.inl rfl) (.cons hreturn .last))))
  exact (cases_of_joined hjoined).1

end MiniLisp.Conformance
