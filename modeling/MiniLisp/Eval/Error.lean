import MiniLisp.Value.Printer

/-!
# Errors of evaluation
-/

namespace MiniLisp

/-- Why a form has no value. Where a function is named, it is by the name it has for itself, not by
the one it is bound to. -/
inductive EvalError where
  | symbolNotFound (symbol : Symbol)
  /-- The head of a list is no function; `shown` is its text. -/
  | notCallable (shown : String)
  | notANumber (function : String) (got : Kind)
  | emptyArguments (function : String)
  | divisionByZero (function : String)
  | integerOverflow (function : String)
  /-- More than `limit` forms are being evaluated inside each other. -/
  | depthExceeded (limit : Nat)
  /-- What stands for a function cannot be called. -/
  | invalidProcedure (name : Symbol)
deriving DecidableEq, Repr

def EvalError.message : EvalError → String
  | .symbolNotFound symbol => "'" ++ symbol.text ++ "' not found"
  | .notCallable shown => shown ++ " is not a function"
  | .notANumber function got => function ++ ": cannot perform arithmetic on " ++ got.name
  | .emptyArguments function => function ++ ": requires at least one argument"
  | .divisionByZero function => function ++ ": division by zero"
  | .integerOverflow function => function ++ ": integer overflow"
  | .depthExceeded limit => "maximum evaluation depth (" ++ toString limit ++ ") exceeded"
  | .invalidProcedure name => "native function " ++ name.text ++ " has an invalid implementation"

end MiniLisp
