import MiniLisp.Eval.Basic
import MiniLisp.Reader.Form

/-!
# Read, evaluate, print
-/

namespace MiniLisp

variable {π : Type}

/-- Why a source text has no value: it cannot be read, or it cannot be evaluated. -/
inductive Failure where
  | read (error : ReadError)
  | eval (error : EvalError)
deriving DecidableEq, Repr

/-- The message is that of the cause. -/
def Failure.message : Failure → String
  | .read error => error.message
  | .eval error => error.message

/-- The value of the first form of a source text. -/
def evalSource (host : Host π) (env : Env π) (source : String) :
    EStateM Failure Gauge (Value π) :=
  match read source with
  | .ok form => (eval host env form).adaptExcept .eval
  | .error error => throw (.read error)

/-- The text of the value of the first form of a source text. -/
def rep (host : Host π) (env : Env π) (source : String) : EStateM Failure Gauge String := do
  let value ← evalSource host env source
  return value.print .readable

end MiniLisp
