import MiniLisp.Value.Basic

/-!
# Equality of values

Two values are equal if they have the same shape and equal parts, whatever metadata they carry.
Floats are compared by their bits, so a NaN equals itself and the two zeros differ. Functions are
compared by their names.
-/

namespace MiniLisp.Value

variable {π : Type}

mutual

/-- Whether two values are equal up to metadata. -/
protected def beq : Value π → Value π → Bool
  | .nil, .nil => true
  | .unit, .unit => true
  | .atom a _, .atom b _ => a == b
  | .list xs _, .list ys _ => beqItems xs ys
  | .vector xs _, .vector ys _ => beqItems xs ys
  | .map xs _, .map ys _ => beqEntries xs ys
  | .procedure f _, .procedure g _ => f.name == g.name
  | .sugar s v m _, .sugar t w n _ => s == t && Value.beq v w && beqOption m n
  | _, _ => false
termination_by structural v => v

/-- Whether two sequences hold equal values at each place. -/
def beqItems : List (Value π) → List (Value π) → Bool
  | [], [] => true
  | x :: xs, y :: ys => Value.beq x y && beqItems xs ys
  | _, _ => false
termination_by structural vs => vs

/-- Whether two maps have the same keys with equal values. -/
def beqEntries : List (MapKey × Value π) → List (MapKey × Value π) → Bool
  | [], [] => true
  | (j, x) :: xs, (k, y) :: ys => j == k && Value.beq x y && beqEntries xs ys
  | _, _ => false
termination_by structural vs => vs

/-- Whether both values are missing, or both are there and equal. -/
def beqOption : Option (Value π) → Option (Value π) → Bool
  | none, none => true
  | some x, some y => Value.beq x y
  | _, _ => false
termination_by structural v => v

end

instance : BEq (Value π) := ⟨Value.beq⟩

end MiniLisp.Value
