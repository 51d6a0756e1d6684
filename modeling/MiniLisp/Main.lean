import MiniLisp.Shell.Input

/-!
# The program

The outer layer of the shell: it reads lines as they come and prints the answers at once.
-/

namespace MiniLisp.Shell

/-- What is shown on a terminal where a line is expected. -/
def prompt : String := "user> "

/-- Answers lines of standard input until the session ends, and gives the exit code. -/
partial def interact (mode : Mode) (interactive : Bool) (gauge : Gauge) : IO UInt32 := do
  let stdout ← IO.getStdout
  if interactive then
    stdout.putStr prompt
    stdout.flush
  let chunk ← (← IO.getStdin).getLine
  let delivery := inputLines chunk
  match delivery.lines with
  | [] =>
    IO.eprint delivery.ending.errors
    return delivery.ending.exitCode
  | line :: _ =>
    let (step, gauge) := (mode.step line).run gauge
    match step with
    | .leave => return Ending.closed.exitCode
    | .pass => interact mode interactive gauge
    | .answer text =>
      stdout.putStrLn text
      stdout.flush
      interact mode interactive gauge

end MiniLisp.Shell

def main (args : List String) : IO UInt32 := do
  match MiniLisp.Shell.Command.ofArgs args with
  | .ok (.session mode) =>
    MiniLisp.Shell.interact mode (← (← IO.getStdin).isTty) {}
  | _ =>
    let outcome := MiniLisp.Shell.run MiniLisp.Shell.inputLines args ""
    IO.print outcome.output
    IO.eprint outcome.errors
    return outcome.exitCode
