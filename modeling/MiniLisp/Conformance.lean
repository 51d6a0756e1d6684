import MiniLisp.Text.Blank
import MiniLisp.Text.Lines

/-!
# Conformance tables

A conformance table lists inputs and what has to be printed for them. Each line has a meaning of its
own:

* blank lines, and lines that start with `;;` or `;>>>`, are passed over;
* a line that does not start with a semicolon is an input;
* a line with a semicolon right after an input is its expectation: `;=>` and the exact text, or `;/`
  and a pattern for the text;
* any other line with a semicolon is passed over as well.

Right after means that only lines which are passed over stand between.
-/

namespace MiniLisp.Conformance

/-- What has to be printed for an input. -/
inductive Expectation where
  | exactly (text : String)
  | matching (pattern : String)
deriving DecidableEq, Repr

/-- An input of a table, the number of its line, and what is expected of it, if anything is. -/
structure Case where
  line : Nat
  input : String
  expected : Option Expectation
deriving DecidableEq, Repr

/-- A line that stands in place of an expectation and is none. -/
structure TableError where
  line : Nat
  text : String
deriving DecidableEq, Repr

def TableError.message (error : TableError) : String :=
  "line " ++ toString error.line ++ ": invalid expected output: " ++ error.text

/-- How a case is announced. -/
def Case.title (case : Case) : String :=
  "line " ++ toString case.line ++ ": " ++ case.input

/-- Whether an expectation of an exact text accepts an output. For a pattern this is left open. -/
def Expectation.accepts? (expected : Expectation) (output : String) : Option Bool :=
  match expected with
  | .exactly text => some (output == text)
  | .matching _ => none

/-- Whether a line is passed over wherever it stands. -/
def isIgnored (line : List Char) : Bool :=
  Text.isBlankText line || ";;".toList.isPrefixOf line || ";>>>".toList.isPrefixOf line

/-- Whether a line is no input. -/
def isRemark (line : List Char) : Bool :=
  ";".toList.isPrefixOf line

/-- The expectation that a line states. -/
def Expectation.ofLine? : List Char → Option Expectation
  | ';' :: '=' :: '>' :: text => some (.exactly (String.ofList text))
  | ';' :: '/' :: pattern => some (.matching (String.ofList pattern))
  | _ => none

/-- A line with its number, counted from one. -/
abbrev NumberedLine := Nat × String

/-- The expectation of an input, given the lines that follow it. -/
def expectation (following : List NumberedLine) : Except TableError (Option Expectation) :=
  match following with
  | [] => .ok none
  | (number, line) :: _ =>
    if isRemark line.toList then
      match Expectation.ofLine? line.toList with
      | some expected => .ok (some expected)
      | none => .error ⟨number, line⟩
    else .ok none

/-- The cases among lines none of which is ignored. -/
def casesOf : List NumberedLine → Except TableError (List Case)
  | [] => .ok []
  | (number, line) :: rest =>
    if isRemark line.toList then casesOf rest
    else do
      let expected ← expectation rest
      let cases ← casesOf rest
      return ⟨number, line, expected⟩ :: cases

/-- The lines of a text with their numbers, counted from `number`. -/
def numberFrom (number : Nat) : List String → List NumberedLine
  | [] => []
  | line :: rest => (number, line) :: numberFrom (number + 1) rest

/-- The cases of a table, or its first wrong expectation. -/
def cases (table : String) : Except TableError (List Case) :=
  casesOf ((numberFrom 1 (Text.lines table)).filter fun line => !isIgnored line.2.toList)

end MiniLisp.Conformance
