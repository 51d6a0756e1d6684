import MiniLisp.Number.Decimal
import MiniLisp.Value.Key

/-!
# Values

One type of values serves the reader, whose result is a value that has not been evaluated, and the
evaluator. Every value but `nil` and `unit` has a slot for one value of *metadata*, which is attached
at most once and takes part in neither equality nor printing.

Functions are given by the program that embeds the interpreter. The type parameter `π` is the type
of names by which that program tells its own functions apart; arithmetic needs no such name. With
`π = Empty` there are no functions but arithmetic.
-/

namespace MiniLisp

/-! ## Functions -/

/-- The arithmetic operators. -/
inductive Operator where
  | add
  | sub
  | mul
  | div
deriving DecidableEq, Repr, Inhabited

/-- The name that an operator is bound to and that its errors mention. -/
def Operator.name : Operator → String
  | .add => "+"
  | .sub => "-"
  | .mul => "*"
  | .div => "/"

/-- What happens when a function is called: arithmetic, a function of the embedding program, or
nothing, because what stands for the function cannot be called. -/
inductive Callable (π : Type) where
  | arithmetic (op : Operator)
  | host (code : π)
  | invalid
deriving DecidableEq, Repr

/-- A function. Functions are told apart by their names. -/
structure Procedure (π : Type) where
  name : Symbol
  body : Callable π
deriving DecidableEq, Repr

/-! ## Values -/

/-- The values without parts. -/
inductive Atom where
  | bool (b : Bool)
  | int (n : Int64)
  | float (x : Binary64)
  | symbol (s : Symbol)
  | string (text : String)
  | keyword (k : Keyword)
deriving DecidableEq

/-- A value. Each but `nil` and `unit` ends in its metadata. -/
inductive Value (π : Type) where
  | nil
  /-- The empty list as it is read. It differs from the `list` without items. -/
  | unit
  | atom (a : Atom) (md : Option (Value π))
  | list (items : List (Value π)) (md : Option (Value π))
  | vector (items : List (Value π)) (md : Option (Value π))
  | map (entries : List (MapKey × Value π)) (md : Option (Value π))
  | procedure (f : Procedure π) (md : Option (Value π))
  /-- What a shorthand such as `'form` is read as: the list of the tag, the form and, for the
  shorthand that attaches metadata, the form of the metadata. -/
  | sugar (tag : Symbol) (form : Value π) (metaForm : Option (Value π)) (md : Option (Value π))
deriving Inhabited

namespace Value

variable {π : Type}

def bool (b : Bool) : Value π := .atom (.bool b) none

def int (n : Int64) : Value π := .atom (.int n) none

def float (x : Binary64) : Value π := .atom (.float x) none

def symbol (s : Symbol) : Value π := .atom (.symbol s) none

def string (text : String) : Value π := .atom (.string text) none

def keyword (k : Keyword) : Value π := .atom (.keyword k) none

/-- The items of the list that a shorthand stands for. -/
def sugarItems (tag : Symbol) (form : Value π) (metaForm : Option (Value π)) : List (Value π) :=
  .symbol tag :: form :: metaForm.toList

end Value

/-! ## Kinds -/

/-- The kinds of values, as errors name them. -/
inductive Kind where
  | nil
  | unit
  | bool
  | int
  | float
  | symbol
  | string
  | keyword
  | list
  | vector
  | map
  | function
  | sugar
deriving DecidableEq, Repr, Inhabited

/-- The name of a kind. -/
def Kind.name : Kind → String
  | .nil => "nil"
  | .unit => "unit"
  | .bool => "bool"
  | .int => "int"
  | .float => "float"
  | .symbol => "symbol"
  | .string => "string"
  | .keyword => "keyword"
  | .list => "list"
  | .vector => "vector"
  | .map => "hash-map"
  | .function => "function"
  | .sugar => "macro"

/-- The kind of an atom. -/
def Atom.kind : Atom → Kind
  | .bool _ => .bool
  | .int _ => .int
  | .float _ => .float
  | .symbol _ => .symbol
  | .string _ => .string
  | .keyword _ => .keyword

/-- The kind of a value. -/
def Value.kind {π : Type} : Value π → Kind
  | .nil => .nil
  | .unit => .unit
  | .atom a _ => a.kind
  | .list _ _ => .list
  | .vector _ _ => .vector
  | .map _ _ => .map
  | .procedure _ _ => .function
  | .sugar _ _ _ _ => .sugar

/-! ## Metadata -/

/-- Why metadata cannot be attached to a value of a kind. -/
inductive MetadataError where
  | unsupported (kind : Kind)
  | alreadyAttached (kind : Kind)
deriving DecidableEq, Repr

def MetadataError.message : MetadataError → String
  | .unsupported kind => kind.name ++ " does not support metadata"
  | .alreadyAttached kind => kind.name ++ " already has metadata attached"

namespace Value

variable {π : Type}

/-- The metadata of a value. -/
def metadata? : Value π → Option (Value π)
  | .nil => none
  | .unit => none
  | .atom _ md => md
  | .list _ md => md
  | .vector _ md => md
  | .map _ md => md
  | .procedure _ md => md
  | .sugar _ _ _ md => md

/-- The value with `md` in its slot for metadata, if it has one. -/
def setMetadata (md : Option (Value π)) : Value π → Value π
  | .nil => .nil
  | .unit => .unit
  | .atom a _ => .atom a md
  | .list items _ => .list items md
  | .vector items _ => .vector items md
  | .map entries _ => .map entries md
  | .procedure f _ => .procedure f md
  | .sugar tag form metaForm _ => .sugar tag form metaForm md

/-- Whether the value has a slot for metadata. -/
def takesMetadata : Value π → Bool
  | .nil => false
  | .unit => false
  | _ => true

/-- Attaches metadata to a value that has none yet. -/
def withMetadata (value metadata : Value π) : Except MetadataError (Value π) :=
  if value.metadata?.isSome then .error (.alreadyAttached value.kind)
  else if value.takesMetadata then .ok (value.setMetadata (some metadata))
  else .error (.unsupported value.kind)

end Value

/-! ## Maps from flat sequences -/

/-- Why a sequence of keys and values makes no map. -/
inductive MapError where
  | oddElementCount (count : Nat)
  | invalidKey (got : Kind)
deriving DecidableEq, Repr

def MapError.message : MapError → String
  | .oddElementCount count =>
    "hash-map requires an even number of forms, got " ++ toString count
  | .invalidKey got => "hash-map keys must be strings or keywords, got " ++ got.name

namespace Value

variable {π : Type}

/-- The value as a key of a map. Its metadata is lost. -/
def toKey : Value π → Except MapError MapKey
  | .atom (.string text) _ => .ok (.string text)
  | .atom (.keyword k) _ => .ok (.keyword k)
  | other => .error (.invalidKey other.kind)

/-- A key as a value. -/
def ofKey : MapKey → Value π
  | .string text => .string text
  | .keyword k => .keyword k

/-- Pairs each key of an alternating sequence with the value after it. A key without a value is
left out. -/
def toPairs : List (Value π) → Except MapError (List (MapKey × Value π))
  | key :: value :: rest => do
    let key ← key.toKey
    let pairs ← toPairs rest
    return (key, value) :: pairs
  | _ => .ok []

/-- The map of an alternating sequence of keys and values. The first wrong key is reported; of
several values for one key the last one stays. -/
def mapOfItems (items : List (Value π)) : Except MapError (Value π) := do
  if items.length % 2 = 1 then throw (.oddElementCount items.length)
  let pairs ← toPairs items
  return .map (Entries.ofPairs pairs) none

end Value

end MiniLisp
