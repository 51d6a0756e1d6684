import MiniLisp.Shell.Session
import MiniLisp.Text.Backspace
import MiniLisp.Text.Lines

/-!
# The reader of lines

The program gets its lines from a reader that carries out the backspaces in a line before it delivers
it. It does so line by line as it is asked for them, so it breaks down at the first line where
backspaces would cut a character, with the lines before it delivered already.
-/

namespace MiniLisp.Shell

/-- What the reader leaves behind where it breaks down. -/
def cutReport : String := "assertion failed: self.is_char_boundary(new_len)"

/-- The lines with their backspaces carried out. -/
def deliver : List String → Delivery
  | [] => { lines := [], ending := .closed }
  | line :: rest =>
    match Text.eraseBackspaces? line.toList with
    | none => { lines := [], ending := .aborted cutReport }
    | some edited =>
      let later := deliver rest
      { later with lines := String.ofList edited :: later.lines }

/-- The reader of lines that the program uses. -/
def inputLines : LineReader := fun input => deliver (Text.lines input)

end MiniLisp.Shell
