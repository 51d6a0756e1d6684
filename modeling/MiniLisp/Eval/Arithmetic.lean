import MiniLisp.Eval.Error

/-!
# Arithmetic

An operator goes through its operands from the left, starting with the first one, and computes with
binary64 numbers throughout. With a float among the operands the result is a float. With integers
alone it is an integer: the fraction is cut off, and what lies outside the 64-bit range goes to the
nearer end of it. Integers whose computation ends in an infinity or a NaN have no result.
-/

namespace MiniLisp

variable {π : Type}

/-- An operand of arithmetic. -/
inductive Number where
  | int (n : Int64)
  | float (x : Binary64)
deriving DecidableEq

namespace Number

/-- The number with which is computed. -/
def toBinary64 : Number → Binary64
  | .int n => Binary64.ofInt n.toInt
  | .float x => x

def isFloat : Number → Bool
  | .int _ => false
  | .float _ => true

end Number

namespace Operator

/-- The operation on two numbers. -/
def compute : Operator → Binary64 → Binary64 → Binary64
  | .add => Binary64.add
  | .sub => Binary64.sub
  | .mul => Binary64.mul
  | .div => Binary64.div

/-- A value as an operand. -/
def operand (op : Operator) : Value π → Except EvalError Number
  | .atom (.int n) _ => .ok (.int n)
  | .atom (.float x) _ => .ok (.float x)
  | other => .error (.notANumber op.name other.kind)

/-- The error if a computation with integers ends in an infinity or a NaN. Quotients of integers do
so only if a divisor is zero. -/
def nonFinite (op : Operator) : EvalError :=
  if op = .div then .divisionByZero op.name else .integerOverflow op.name

/-- The number that the operands are reduced to, from the left. -/
def total (op : Operator) (first : Number) (others : List Number) : Binary64 :=
  others.foldl (fun sum operand => op.compute sum operand.toBinary64) first.toBinary64

/-- The value for the number that the operands are reduced to. -/
def result (op : Operator) (anyFloat : Bool) (x : Binary64) : Except EvalError (Value π) :=
  if anyFloat then .ok (.float x)
  else if x.isFinite then .ok (.int (clampInt64 x.truncate))
  else .error op.nonFinite

/-- Applies an operator to its operands. The first one that is no number is reported. -/
def reduce (op : Operator) (args : List (Value π)) : Except EvalError (Value π) := do
  match ← args.mapM op.operand with
  | [] => throw (.emptyArguments op.name)
  | first :: others => op.result ((first :: others).any Number.isFloat) (op.total first others)

end Operator

end MiniLisp
