import MiniLisp.Eval.Arithmetic
import MiniLisp.Eval.Environment

/-!
# Evaluation

There are no special forms. A list evaluates its items from left to right and applies the value of
the first one to the values of the others; a shorthand evaluates like the list that it stands for. A
symbol evaluates to the function that it is bound to. Vectors and maps evaluate what they hold, and
everything else is its own value. Results of evaluating a collection carry no metadata.

Evaluation counts how many forms it is inside of, and stops when the count would pass a limit. The
count and the limit are a state that functions of the embedding program may read and change. The
evaluator itself recurs over the form only, so it ends for every form, whatever those functions do.
-/

namespace MiniLisp

variable {π : Type}

/-! ## Depth of evaluation -/

/-- How many forms may be evaluated inside each other, unless something else is set. -/
def maxEvalDepth : Nat := 2048

/-- How many forms are being evaluated inside each other, and how many may be. -/
structure Gauge where
  depth : Nat := 0
  limit : Nat := maxEvalDepth
deriving DecidableEq, Repr, Inhabited

/-- Evaluation changes the gauge, also when it fails. -/
abbrev EvalM := EStateM EvalError Gauge

/-- Counts one form more while `action` runs. -/
def EvalM.nested {α : Type} (action : EvalM α) : EvalM α := fun gauge =>
  if gauge.limit ≤ gauge.depth then .error (.depthExceeded gauge.limit) gauge
  else
    match action.run { gauge with depth := gauge.depth + 1 } with
    | .ok value gauge => .ok value { gauge with depth := gauge.depth - 1 }
    | .error error gauge => .error error { gauge with depth := gauge.depth - 1 }

/-! ## Application -/

/-- What the functions of the embedding program do. -/
abbrev Host (π : Type) := π → List (Value π) → EvalM (Value π)

/-- The host without functions. -/
def Host.none : Host Empty := fun code _ => nomatch code

/-- Calls a function. -/
def Procedure.call (host : Host π) (f : Procedure π) (args : List (Value π)) : EvalM (Value π) :=
  match f.body with
  | .arithmetic op =>
    match op.reduce args with
    | .ok value => return value
    | .error error => throw error
  | .host code => host code args
  | .invalid => throw (.invalidProcedure f.name)

/-- Applies a value to arguments. Only functions can be applied. -/
def apply (host : Host π) (head : Value π) (args : List (Value π)) : EvalM (Value π) :=
  match head with
  | .procedure f _ => f.call host args
  | other => throw (.notCallable (other.print .readable))

/-- Applies the first of the values to the others. Without any, the result is the empty list. -/
def applyItems (host : Host π) : List (Value π) → EvalM (Value π)
  | [] => return .list [] none
  | head :: args => apply host head args

/-! ## Evaluation -/

/-- The value of a symbol. -/
def resolve (env : Env π) (symbol : Symbol) : EvalM (Value π) :=
  match env.find? symbol with
  | some f => return .procedure f none
  | none => throw (.symbolNotFound symbol)

/-- The value of an atom. -/
def evalAtom (env : Env π) (a : Atom) (md : Option (Value π)) : EvalM (Value π) :=
  match a with
  | .symbol s => resolve env s
  | a => return .atom a md

mutual

/-- The value of a form. -/
def eval (host : Host π) (env : Env π) : Value π → EvalM (Value π)
  | .nil => EvalM.nested (return .nil)
  | .unit => EvalM.nested (return .unit)
  | .atom a md => EvalM.nested (evalAtom env a md)
  | .list items _ => EvalM.nested do
    let values ← evalItems host env items
    applyItems host values
  | .vector items _ => EvalM.nested do
    let values ← evalItems host env items
    return .vector values none
  | .map entries _ => EvalM.nested do
    let values ← evalEntries host env entries
    return .map values none
  | .procedure f md => EvalM.nested (return .procedure f md)
  | .sugar tag form metaForm _ => EvalM.nested do
    let head ← EvalM.nested (resolve env tag)
    let first ← eval host env form
    let others ← evalOption host env metaForm
    applyItems host (head :: first :: others)
termination_by structural v => v

/-- The values of several forms, from left to right. -/
def evalItems (host : Host π) (env : Env π) : List (Value π) → EvalM (List (Value π))
  | [] => return []
  | x :: xs => do
    let value ← eval host env x
    let values ← evalItems host env xs
    return value :: values
termination_by structural vs => vs

/-- The keys with the values of their forms, in the order of the keys. -/
def evalEntries (host : Host π) (env : Env π) :
    List (MapKey × Value π) → EvalM (List (MapKey × Value π))
  | [] => return []
  | (key, x) :: xs => do
    let value ← eval host env x
    let values ← evalEntries host env xs
    return (key, value) :: values
termination_by structural vs => vs

/-- The value of a form, if there is one. -/
def evalOption (host : Host π) (env : Env π) : Option (Value π) → EvalM (List (Value π))
  | none => return []
  | some x => do
    let value ← eval host env x
    return [value]
termination_by structural v => v

end

end MiniLisp
