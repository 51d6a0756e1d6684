/-!
# Options of the command line

The options are read from left to right. The first that asks for the version or for help decides, and
so does the first mistake; of several modes the last one holds.
-/

namespace MiniLisp.Shell

/-- What is done with a line of input. -/
inductive Mode where
  /-- Give it back. -/
  | echo
  /-- Read it, and print what was read. -/
  | read
  /-- Read and evaluate it, and print the value. -/
  | eval
deriving DecidableEq, Repr, Inhabited

/-- The mode of a name. -/
def Mode.ofName? (name : String) : Option Mode :=
  if name = "echo" then some .echo
  else if name = "read" then some .read
  else if name = "eval" then some .eval
  else none

/-- What the command line asks for. -/
inductive Command where
  | session (mode : Mode)
  | version
  | help
deriving DecidableEq, Repr

/-- What is wrong with the command line. -/
inductive UsageError where
  | missingValue (option : String)
  | unknownMode (name : String)
  | unexpectedArgument (arg : String)
deriving DecidableEq, Repr

def UsageError.message : UsageError → String
  | .missingValue option => "missing value for " ++ option
  | .unknownMode name => "unknown mode '" ++ name ++ "'"
  | .unexpectedArgument arg => "unexpected argument '" ++ arg ++ "'"

/-- Reads the options that are left when `mode` is the mode so far. -/
def Command.ofArgsFrom (mode : Mode) : List String → Except UsageError Command
  | [] => .ok (.session mode)
  | arg :: rest =>
    if arg = "--version" ∨ arg = "-v" then .ok .version
    else if arg = "--help" ∨ arg = "-h" then .ok .help
    else if arg = "--mode" ∨ arg = "-m" then
      match rest with
      | [] => .error (.missingValue arg)
      | name :: rest =>
        match Mode.ofName? name with
        | some mode => ofArgsFrom mode rest
        | none => .error (.unknownMode name)
    else .error (.unexpectedArgument arg)

/-- Reads the options. Lines are evaluated unless another mode is given. -/
def Command.ofArgs (args : List String) : Except UsageError Command :=
  Command.ofArgsFrom .eval args

/-- The text that explains the command line. -/
def usage : String :=
  "Usage: mal [--mode echo|read|eval]\n" ++
  "\n" ++
  "Options:\n" ++
  "  -m, --mode <MODE>  echo input, read and print it, or evaluate it (default: eval)\n" ++
  "  -v, --version      print the version and exit\n" ++
  "  -h, --help         print this help and exit\n" ++
  "\n" ++
  "Type \\exit or press Ctrl-D to leave the REPL. Set RUST_LOG to enable logging."

/-- The text that names the version. -/
def version : String := "mal v0.1.0"

end MiniLisp.Shell
