import MiniLisp.Proofs.SingleLines
import MiniLisp.Shell.Input

/-!
# Sessions line by line

A session hands its gauge on from one line to the next, so an answer could depend on the lines before
it. It does not: evaluation leaves the gauge as it was, also where it fails. And since an answer is
always on one line, the output can be taken apart into the answers again.

The reader of lines is a parameter. Of what it delivers only `LineReader.Splits` is assumed, and only
for the inputs that are talked about.

Results:
1. `run_answer`: answering a line leaves the gauge alone.
2. `oneLine_reply`: the answer to a line is on one line.
3. `run_lines`: the answers of a session are those to its lines, each taken by itself.
4. `run_eq`: the outcome of a run, whatever the reader delivers.
5. `splits_inputLines`: the reader of the program splits all inputs without backspaces.
6. `run_session`: all of it for a reader that splits the input.
-/

namespace MiniLisp.Shell

open Text

/-! ## Definitions -/

/-- The lines that a session answers: of those before the first that is the command to leave, all that
are not blank. -/
def answered (lines : List String) : List String :=
  (lines.takeWhile fun line => trim line.toList ≠ exitCommand.toList).filter fun line =>
    trim line.toList ≠ []

/-- One of the lines is the command to leave. -/
def leaves (lines : List String) : Bool :=
  lines.any fun line => trim line.toList = exitCommand.toList

/-- The reader delivers the lines of the input, and then its end. -/
def LineReader.Splits (reader : LineReader) (input : String) : Prop :=
  reader input = { lines := lines input, ending := .closed }

/-- The answer to a line at the start of a session. -/
def Mode.reply (mode : Mode) (line : String) : String :=
  ((mode.answer line).run {}).1

/-! ## One line -/

theorem oneLine_readLine {line : String} (h : OneLine line) : OneLine (readLine line) := by
  unfold readLine
  split
  · next hread => exact oneLine_print_of_read h hread
  · next hread => exact oneLine_message_of_read h hread

theorem oneLine_standard (symbol : Symbol) (f : Procedure Empty)
    (h : Env.standard.find? symbol = some f) : OneLine f.name.text := by
  obtain ⟨op, _, rfl⟩ := Env.find?_standard_eq_some_iff.mp h
  exact op.oneLine_name

/-- Evaluating a line leaves the gauge as it was, and the answer is on one line if the line is. -/
theorem exists_run_evalLine (line : String) (gauge : Gauge) :
    ∃ text, (evalLine line).run gauge = (text, gauge) ∧ (OneLine line → OneLine text) := by
  cases hread : (read line : Except ReadError (Value Empty)) with
  | error e =>
    refine ⟨e.message, ?_, fun h => oneLine_message_of_read h hread⟩
    simp only [evalLine, StateT.run, rep, evalSource, hread]
    rfl
  | ok form =>
    refine ⟨shown (outcome .standard (some gauge.limit) gauge.depth form), ?_, ?_⟩
    · simp only [evalLine, StateT.run, run_rep Host.none Env.arithmetic_standard hread]
      cases outcome .standard (some gauge.limit) gauge.depth form <;> rfl
    · intro h
      exact oneLine_outcome oneLine_standard _ _ (oneLine_print_of_read h hread)

theorem exists_run_answer (mode : Mode) (line : String) (gauge : Gauge) :
    ∃ text, (mode.answer line).run gauge = (text, gauge) ∧ (OneLine line → OneLine text) := by
  cases mode with
  | echo => exact ⟨line, rfl, id⟩
  | read => exact ⟨readLine line, rfl, oneLine_readLine⟩
  | eval => exact exists_run_evalLine line gauge

/-- After an answer, a session is where it was at its start. -/
theorem run_answer (mode : Mode) (line : String) :
    (mode.answer line).run {} = (mode.reply line, {}) := by
  obtain ⟨text, hrun, _⟩ := exists_run_answer mode line {}
  have hreply : mode.reply line = text := congrArg Prod.fst hrun
  rw [hrun, hreply]

/-- An answer has no line feed if the line has none, in whatever mode. -/
theorem oneLine_reply (mode : Mode) {line : String} (h : OneLine line) :
    OneLine (mode.reply line) := by
  obtain ⟨text, hrun, hline⟩ := exists_run_answer mode line {}
  have hreply : mode.reply line = text := congrArg Prod.fst hrun
  rw [hreply]
  exact hline h

/-! ## All lines -/

/-- What one line does in a session that is where it was at its start. -/
theorem run_step (mode : Mode) (line : String) :
    (mode.step line).run {} =
      (if trim line.toList = exitCommand.toList then .leave
        else if trim line.toList = [] then .pass
        else .answer (mode.reply line), {}) := by
  unfold Mode.step
  split
  · rfl
  · simp only [← trim_eq_nil_iff]
    split
    · rfl
    · rw [StateT.run_bind, run_answer]
      rfl

theorem answered_cons (line : String) (rest : List String) :
    answered (line :: rest) =
      if trim line.toList = exitCommand.toList then []
      else if trim line.toList = [] then answered rest
      else line :: answered rest := by
  unfold answered
  by_cases hexit : trim line.toList = exitCommand.toList
  · rw [if_pos hexit, List.takeWhile_cons_of_neg (by simpa using hexit)]
    rfl
  · rw [if_neg hexit, List.takeWhile_cons_of_pos (by simpa using hexit)]
    by_cases hblank : trim line.toList = []
    · rw [if_pos hblank, List.filter_cons_of_neg (by simpa using hblank)]
    · rw [if_neg hblank, List.filter_cons_of_pos (by simpa using hblank)]

theorem leaves_cons (line : String) (rest : List String) :
    leaves (line :: rest) = (decide (trim line.toList = exitCommand.toList) || leaves rest) :=
  List.any_cons

/-- The answers of a session are those to its lines, each taken by itself, and the gauge is where it
was at the start. How it ends is up to the reader, unless it is left. -/
theorem run_lines (mode : Mode) (ending : Ending) (lines : List String) :
    (mode.session ending lines).run {} =
      (((answered lines).map mode.reply, if leaves lines then .closed else ending), {}) := by
  induction lines with
  | nil => rfl
  | cons line rest ih =>
    rw [Mode.session, StateT.run_bind, run_step, answered_cons, leaves_cons]
    by_cases hexit : trim line.toList = exitCommand.toList
    · simp only [hexit, if_true, decide_true, Bool.true_or]
      rfl
    · simp only [hexit, if_false, decide_false, Bool.false_or]
      by_cases hblank : trim line.toList = []
      · rw [if_pos hblank, if_pos hblank]
        exact ih
      · rw [if_neg hblank, if_neg hblank]
        show (mode.session ending rest >>= fun later =>
          pure (mode.reply line :: later.1, later.2) : StateM Gauge _).run {} = _
        rw [StateT.run_bind, ih]
        rfl

/-! ## Output -/

theorem toList_unlines_cons (line : String) (lines : List String) :
    (unlines (line :: lines)).toList = line.toList ++ '\n' :: (unlines lines).toList := by
  simp [unlines, String.toList_join]

/-- Lines that are put one after the other can be told apart again. The last line feed has nothing
behind it. -/
theorem splitOn_unlines {lines : List String} (h : ∀ line ∈ lines, OneLine line) :
    (unlines lines).toList.splitOn '\n' = lines.map String.toList ++ [[]] := by
  induction lines with
  | nil => rfl
  | cons line lines ih =>
    rw [List.forall_mem_cons] at h
    rw [toList_unlines_cons, List.splitOn_append_cons_self_of_not_mem h.1, ih h.2]
    rfl

/-! ## Readers -/

theorem deliver_eq {lines : List String} (h : ∀ line ∈ lines, backspace ∉ line.toList) :
    deliver lines = { lines := lines, ending := .closed } := by
  induction lines with
  | nil => rfl
  | cons line rest ih =>
    rw [List.forall_mem_cons] at h
    simp [deliver, eraseBackspaces?_eq_some h.1, ih h.2]

/-- Without backspaces, the reader of the program delivers the lines of the text. -/
theorem splits_inputLines {input : String} (h : backspace ∉ input.toList) :
    LineReader.Splits inputLines input :=
  deliver_eq fun _ hline hmem => h (mem_of_mem_lines hline hmem).1

/-! ## The program -/

theorem mem_answered {line : String} {lines : List String} (h : line ∈ answered lines) :
    line ∈ lines ∧ answered [line] = [line] := by
  obtain ⟨hbefore, hblank⟩ := List.mem_filter.mp h
  have hexit := List.mem_takeWhile_imp hbefore
  refine ⟨(List.takeWhile_sublist _).mem hbefore, ?_⟩
  rw [answered_cons, if_neg (by simpa using hexit), if_neg (by simpa using hblank)]
  rfl

/-- The outcome of a session, whatever the reader makes of the input. -/
theorem run_eq (reader : LineReader) {args : List String} {mode : Mode}
    (hargs : Command.ofArgs args = .ok (.session mode)) (input : String) :
    run reader args input =
      (if leaves (reader input).lines then .closed else (reader input).ending : Ending).outcome
        ((answered (reader input).lines).map mode.reply) := by
  simp only [run, hargs, run_lines]

theorem LineReader.Splits.run_eq {reader : LineReader} {input : String} (h : reader.Splits input)
    {args : List String} {mode : Mode} (hargs : Command.ofArgs args = .ok (.session mode)) :
    run reader args input =
      { exitCode := 0, output := unlines ((answered (lines input)).map mode.reply),
        errors := "" } := by
  rw [Shell.run_eq reader hargs, h, ite_self]
  rfl

/-- A session in whatever mode, on whatever input, with a reader that splits the input.

* It prints the answers to the lines that it answers, in order and each with a line feed behind it.
  It exits with zero and prints no errors.
* No answer to a line of the input has a line feed, in this mode and in the others. So the output
  splits into the answers at its line feeds.
* Each answer is the one that a session gives whose input has just that line. The line by itself is
  such an input. -/
theorem run_session (reader : LineReader) {args : List String} {mode : Mode}
    (hargs : Command.ofArgs args = .ok (.session mode)) {input : String}
    (hinput : reader.Splits input) :
    run reader args input =
        { exitCode := 0, output := unlines ((answered (lines input)).map mode.reply),
          errors := "" } ∧
      (∀ other : Mode, ∀ line ∈ lines input, '\n' ∉ (other.reply line).toList) ∧
      (run reader args input).output.toList.splitOn '\n' =
        (answered (lines input)).map (fun line => (mode.reply line).toList) ++ [[]] ∧
      ∀ line ∈ answered (lines input), lines line = [line] ∧
        ∀ alone, lines alone = [line] → reader.Splits alone →
          run reader args alone =
            { exitCode := 0, output := mode.reply line ++ "\n", errors := "" } := by
  refine ⟨hinput.run_eq hargs, ?_, ?_, ?_⟩
  · intro other line hline
    exact oneLine_reply other (oneLine_of_mem_lines hline)
  · rw [hinput.run_eq hargs, splitOn_unlines, List.map_map]
    · rfl
    · rw [List.forall_mem_map]
      intro line hline
      exact oneLine_reply mode (oneLine_of_mem_lines (mem_answered hline).1)
  · intro line hline
    obtain ⟨hmem, hanswered⟩ := mem_answered hline
    refine ⟨lines_self (oneLine_of_mem_lines hmem) ?_, ?_⟩
    · -- A line that is answered is not blank.
      intro hempty
      have hblank := (List.mem_filter.mp hline).2
      rw [hempty] at hblank
      exact absurd hblank (by decide)
    · intro alone halone hsplits
      rw [hsplits.run_eq hargs, halone, hanswered]
      simp [unlines]

/-- The reader of the program on an input with a list that is not closed, a blank line, a quotient by
zero before a carriage return, a string that holds a line feed, the command to leave with a blank
behind it, and a line that is not reached. -/
theorem run_session_failures :
    let args := ["--mode", "read", "-m", "eval"]
    let input := "(1\n \t\n(/ 1 0)\r\n\"a\\nb\"\n\\exit \n2"
    let answers := ["(1", "(/ 1 0)", "\"a\\nb\""].map Mode.eval.reply
    Command.ofArgs args = .ok (.session .eval) ∧ LineReader.Splits inputLines input ∧
      run inputLines args input = { exitCode := 0, output := unlines answers, errors := "" } ∧
      (run inputLines args input).output.toList.splitOn '\n' =
        answers.map String.toList ++ [[]] ∧
      LineReader.Splits inputLines "(/ 1 0)" ∧
      run inputLines args "(/ 1 0)" =
        { exitCode := 0, output := Mode.eval.reply "(/ 1 0)" ++ "\n", errors := "" } := by
  intro args input answers
  have hargs : Command.ofArgs args = .ok (.session .eval) := by decide
  have hlines : answered (lines input) = ["(1", "(/ 1 0)", "\"a\\nb\""] := by
    decide +kernel
  have hinput : LineReader.Splits inputLines input := splits_inputLines (by decide)
  have hquotient : LineReader.Splits inputLines "(/ 1 0)" := splits_inputLines (by decide)
  obtain ⟨houtput, _, hsplit, halone⟩ := run_session inputLines hargs hinput
  rw [hlines] at houtput hsplit halone
  obtain ⟨hself, hrun⟩ := halone "(/ 1 0)" (by decide)
  exact ⟨hargs, hinput, houtput, hsplit, hquotient, hrun "(/ 1 0)" hself hquotient⟩

end MiniLisp.Shell
