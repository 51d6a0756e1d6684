import MiniLisp.Reader.Literal

/-!
# Reading forms

The reader goes through a sequence of tokens and takes off those that make up a form. It takes off
what it has looked at also when it fails, so that reading can go on behind the failure.

A form is a bracketed collection, a shorthand with the forms it applies to, or a literal. Forms lie
inside each other at most `limit` deep. The depth that is left is the argument over which the
recursion runs; everything that reads items takes the reader for one level down as an argument.
-/

namespace MiniLisp

variable {π : Type}

/-- Reading changes the sequence of tokens that are left. -/
abbrev ReadM := EStateM ReadError (List Token)

namespace Reader

/-! ## Tokens -/

/-- Whether tokens are left. -/
def hasNext : ReadM Bool := return !(← get).isEmpty

/-- The first token that is left. -/
def peek : ReadM Token := do
  match ← get with
  | [] => throw .unexpectedEnd
  | token :: _ => return token

/-- Takes off the first token that is left. -/
def next : ReadM Token := do
  match ← get with
  | [] => throw .unexpectedEnd
  | token :: rest =>
    set rest
    return token

/-! ## Forms, given the reader for the forms inside -/

/-- Goes on with the value of `result` and fails with its error, as a failure of reading. -/
def orFail {ε α : Type} (cause : ε → ReadError) (result : Except ε α) : ReadM α :=
  match result with
  | .ok value => return value
  | .error error => throw (cause error)

/-- Reads items up to the closing bracket, which is taken off too. Every item takes off a token, so
there are at most as many items as tokens are left; with `fuel` at least that number, the end of the
tokens is found before the fuel. -/
def items (item : ReadM (Value π)) (bracket : Bracket) : (fuel : Nat) → ReadM (List (Value π))
  | 0 => throw (.unterminated bracket)
  | fuel + 1 => do
    match ← get with
    | [] => throw (.unterminated bracket)
    | token :: rest =>
      if token = bracket.closer then
        set rest
        return []
      else
        let first ← item
        let others ← items item bracket fuel
        return first :: others

/-- The collection of the given items. A list without items reads as `unit`. -/
def collect (bracket : Bracket) (items : List (Value π)) : Except MapError (Value π) :=
  match bracket with
  | .list => .ok (if items.isEmpty then .unit else .list items none)
  | .vector => .ok (.vector items none)
  | .map => Value.mapOfItems items

/-- Reads a collection. The first token is taken for the opening bracket, whatever it is. -/
def collection (item : ReadM (Value π)) (bracket : Bracket) : ReadM (Value π) := do
  let _ ← next
  let left ← get
  let items ← items item bracket left.length
  orFail .invalidMap (collect bracket items)

/-- The tag of the list that a token is the shorthand for. -/
def shorthandTag? (token : Token) : Option Symbol :=
  if token = "'" then some ⟨"quote"⟩
  else if token = "`" then some ⟨"quasiquote"⟩
  else if token = "~" then some ⟨"unquote"⟩
  else if token = "~@" then some ⟨"splice-unquote"⟩
  else if token = "@" then some ⟨"deref"⟩
  else none

/-- The tag of the list that `^metadata form` is the shorthand for. -/
def withMetadataTag : Symbol := ⟨"with-meta"⟩

/-- Reads what follows the token `^`: metadata, and the form that gets it. The form is kept together
with the form of its metadata. -/
def annotated (item : ReadM (Value π)) : ReadM (Value π) := do
  let metadata ← item
  let form ← item
  let form ← orFail .metadata (form.withMetadata metadata)
  return .sugar withMetadataTag form (some metadata) none

/-- Reads a form that is no collection. -/
def atom (item : ReadM (Value π)) : ReadM (Value π) := do
  let token ← next
  match shorthandTag? token with
  | some tag => return .sugar tag (← item) none none
  | none => if token = "^" then annotated item else orFail id (literal token)

/-! ## Forms -/

/-- Reads a form that may have `depth` levels. -/
def form (limit : Nat) : (depth : Nat) → ReadM (Value π)
  | 0 => throw (.tooDeeplyNested limit)
  | depth + 1 => do
    match Bracket.ofOpener? (← peek) with
    | some bracket => collection (form limit depth) bracket
    | none => atom (form limit depth)

/-- Reads forms until no token is left. Every form takes off a token, so there are at most as many
forms as tokens. -/
def forms (limit : Nat) : (fuel : Nat) → ReadM (List (Value π))
  | 0 => return []
  | fuel + 1 => do
    if ← hasNext then
      let first ← form limit limit
      let others ← forms limit fuel
      return first :: others
    else return []

/-- The value that a reader gives on a sequence of tokens. -/
def run {α : Type} (reader : ReadM α) (tokens : List Token) : Except ReadError α :=
  match EStateM.run reader tokens with
  | .ok value _ => .ok value
  | .error error _ => .error error

end Reader

/-- How deep forms may lie inside each other. -/
def maxReadDepth : Nat := 512

/-- Reads the first form of a source text and leaves the rest alone. A text without tokens reads as
`unit`. -/
def read (source : String) : Except ReadError (Value π) :=
  match tokenize source with
  | [] => .ok .unit
  | tokens => Reader.run (Reader.form maxReadDepth maxReadDepth) tokens

/-- Reads all forms of a source text. -/
def readAll (source : String) : Except ReadError (List (Value π)) :=
  let tokens := tokenize source
  Reader.run (Reader.forms maxReadDepth tokens.length) tokens

end MiniLisp
