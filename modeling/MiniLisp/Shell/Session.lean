import MiniLisp.Run
import MiniLisp.Shell.Options
import MiniLisp.Text.Blank

/-!
# Sessions

A session answers each line that its reader delivers by one line of output, until a line holds the
command to leave or the reader delivers no more. Lines that are blank are passed over. Every line is
evaluated in the standard environment, with the gauge as the lines before it have left it.

How the input is cut into lines is up to the reader, and so is why there are no more of them. The
reader that the program uses is in `MiniLisp.Shell.Input`.
-/

namespace MiniLisp.Shell

/-- The line that ends a session, blanks around it apart. -/
def exitCommand : String := "\\exit"

/-- The text of what a line reads as, or of the error. -/
def readLine (line : String) : String :=
  match (read line : Except ReadError (Value Empty)) with
  | .ok form => form.print .readable
  | .error error => error.message

/-- The text of the value of a line, or of the error. -/
def evalLine (line : String) : StateM Gauge String := fun gauge =>
  match (rep Host.none Env.standard line).run gauge with
  | .ok text after => (text, after)
  | .error failure after => (failure.message, after)

/-- The answer to a line. -/
def Mode.answer (mode : Mode) (line : String) : StateM Gauge String :=
  match mode with
  | .echo => return line
  | .read => return readLine line
  | .eval => evalLine line

/-- What a line does in a session. -/
inductive Step where
  | leave
  | pass
  | answer (text : String)
deriving DecidableEq, Repr

/-- What a line does in a session. The line is answered with the blanks around it. -/
def Mode.step (mode : Mode) (line : String) : StateM Gauge Step :=
  if Text.trim line.toList = exitCommand.toList then return .leave
  else if Text.isBlankText line.toList then return .pass
  else return .answer (← mode.answer line)

/-- Why a session gets no more lines. -/
inductive Ending where
  /-- The input is over, or the session was left. -/
  | closed
  /-- The reader reports an error. -/
  | failed (message : String)
  /-- The reader breaks down, and the program with it. -/
  | aborted (report : String)
deriving DecidableEq, Repr

def Ending.exitCode : Ending → UInt32
  | .closed => 0
  | .failed _ => 1
  | .aborted _ => 101

/-- What is printed about an ending. -/
def Ending.errors : Ending → String
  | .closed => ""
  | .failed message => "Error: " ++ message ++ "\n"
  | .aborted report => report ++ "\n"

/-- What a reader makes of an input: its lines, and why there are no more. -/
structure Delivery where
  lines : List String
  ending : Ending
deriving DecidableEq, Repr

/-- Something that cuts an input into lines. -/
abbrev LineReader := String → Delivery

/-- The answers of a session and how it ends, if it gets the given lines and then the given ending.
A session that is left does not ask for more lines. -/
def Mode.session (mode : Mode) (ending : Ending) :
    List String → StateM Gauge (List String × Ending)
  | [] => return ([], ending)
  | line :: rest => do
    match ← mode.step line with
    | .leave => return ([], .closed)
    | .pass => mode.session ending rest
    | .answer text =>
      let (texts, ending) ← mode.session ending rest
      return (text :: texts, ending)

/-- The lines as one text, each of them ended by a line feed. -/
def unlines (lines : List String) : String :=
  String.join (lines.map (· ++ "\n"))

/-- What a run of the program leaves behind. -/
structure Outcome where
  exitCode : UInt32 := 0
  output : String := ""
  errors : String := ""
deriving DecidableEq, Repr

/-- The outcome of a mistake on the command line. -/
def UsageError.outcome (error : UsageError) : Outcome where
  exitCode := 2
  errors := "Error: " ++ error.message ++ "\n\n" ++ usage ++ "\n"

/-- The outcome of a session that prints the given answers. -/
def Ending.outcome (ending : Ending) (answers : List String) : Outcome where
  exitCode := ending.exitCode
  output := unlines answers
  errors := ending.errors

/-- The outcome of a run with the given arguments and the given text as input. -/
def run (reader : LineReader) (args : List String) (input : String) : Outcome :=
  match Command.ofArgs args with
  | .ok (.session mode) =>
    let delivery := reader input
    let (answers, ending) := ((mode.session delivery.ending delivery.lines).run {}).1
    ending.outcome answers
  | .ok .version => { output := version ++ "\n" }
  | .ok .help => { output := usage ++ "\n" }
  | .error error => error.outcome

end MiniLisp.Shell
