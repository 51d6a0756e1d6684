import MiniLisp.Reader.Form

/-!
# Reading call by call

A cursor stands in a sequence of tokens and is moved on by calls: for a token, for a form, or for
a collection, whatever token it starts with. It counts how many forms it is inside of while it
reads, and a call that fails leaves it where it failed, so that the next call goes on from there.

The items of a collection are read by a loop that runs until it finds the closing bracket, and the
depth is a count that goes up and down. Neither says by itself that reading comes to an end, so the
loop and the recursion have fuel. Running out of it is no error of reading: the call has no outcome.
-/

namespace MiniLisp

variable {π : Type}

/-- A place in a sequence of tokens, and how many forms it is inside of. -/
structure Cursor where
  tokens : Array Token
  position : Nat
  depth : Nat
  /-- How many forms the cursor may be inside of. -/
  maxDepth : Nat
deriving DecidableEq, Repr

/-- A call moves the cursor, also when it fails. It has no outcome if its fuel does not last. -/
abbrev CursorM := ExceptT ReadError (StateT Cursor Option)

namespace Cursor

/-- A cursor before the first token. -/
def ofTokens (tokens : List Token) (maxDepth : Nat) : Cursor where
  tokens := tokens.toArray
  position := 0
  depth := 0
  maxDepth := maxDepth

/-! ## Tokens -/

/-- The token that the cursor stands before. -/
def token? (cursor : Cursor) : Option Token := cursor.tokens[cursor.position]?

/-- Whether the cursor stands before a token. -/
def hasNext : CursorM Bool :=
  return decide ((← get).position < (← get).tokens.size)

/-- The token that the cursor stands before. -/
def peek : CursorM Token := do
  match (← get).token? with
  | some token => return token
  | none => throw .unexpectedEnd

/-- Moves the cursor behind the token that it stands before. -/
def next : CursorM Token := do
  let token ← peek
  modify fun cursor => { cursor with position := cursor.position + 1 }
  return token

/-! ## Forms, with fuel -/

/-- Goes on with the value of `result` and fails with its error, as a failure of reading. -/
def orFail {ε α : Type} (cause : ε → ReadError) (result : Except ε α) : CursorM α :=
  match result with
  | .ok value => return value
  | .error error => throw (cause error)

/-- The call whose fuel has run out. -/
def exhausted {α : Type} : CursorM α := fun _ => none

/-- Counts one form more while `action` runs. The count comes down again whether the action has
succeeded or not. -/
def counted {α : Type} (action : CursorM α) : CursorM α := fun cursor =>
  if cursor.maxDepth ≤ cursor.depth then
    some (.error (.tooDeeplyNested cursor.maxDepth), cursor)
  else do
    let (result, cursor) ← action.run.run { cursor with depth := cursor.depth + 1 }
    return (result, { cursor with depth := cursor.depth - 1 })

/-- Reads items up to the closing bracket, and moves the cursor behind that too. -/
def items (item : CursorM (Value π)) (bracket : Bracket) : (fuel : Nat) → CursorM (List (Value π))
  | 0 => exhausted
  | fuel + 1 => do
    if ← hasNext then
      if (← peek) = bracket.closer then
        let _ ← next
        return []
      else
        let first ← item
        let others ← items item bracket fuel
        return first :: others
    else throw (.unterminated bracket)

/-- Reads a collection. The first token is taken for the opening bracket, whatever it is. -/
def collection (item : CursorM (Value π)) (bracket : Bracket) (fuel : Nat) :
    CursorM (Value π) := do
  let _ ← next
  let items ← items item bracket fuel
  orFail .invalidMap (Reader.collect bracket items)

/-- Reads a form that is no collection. -/
def atom (item : CursorM (Value π)) : CursorM (Value π) := do
  let token ← next
  match Reader.shorthandTag? token with
  | some tag => return .sugar tag (← item) none none
  | none =>
    if token = "^" then
      let metadata ← item
      let form ← item
      let form ← orFail .metadata (form.withMetadata metadata)
      return .sugar Reader.withMetadataTag form (some metadata) none
    else orFail id (literal token)

/-- Reads a form. -/
def form : (fuel : Nat) → CursorM (Value π)
  | 0 => exhausted
  | fuel + 1 => counted do
    match Bracket.ofOpener? (← peek) with
    | some bracket => collection (form fuel) bracket fuel
    | none => atom (form fuel)

/-! ## Forms -/

/-- The fuel that a cursor has for a call. -/
def supply (cursor : Cursor) : Nat := cursor.tokens.size + 1

/-- Reads a form. -/
def readForm : CursorM (Value π) := do
  form (← get).supply

/-- Reads a collection, without counting it. -/
def readCollection (bracket : Bracket) : CursorM (Value π) := do
  let fuel := (← get).supply
  collection (form fuel) bracket fuel

/-- Reads a form that is no collection, without counting it. -/
def readAtom : CursorM (Value π) := do
  atom (form (← get).supply)

/-! ## Calls one after the other -/

/-- What a cursor can be called for. -/
inductive Call where
  | hasNext
  | peek
  | next
  | form
  | collection (bracket : Bracket)
  | atom
deriving DecidableEq, Repr

/-- What a call returns. -/
inductive Reply (π : Type) where
  | flag (b : Bool)
  | token (token : Token)
  | value (value : Value π)

/-- Carries a call out. -/
def Call.perform : Call → CursorM (Reply π)
  | .hasNext => return .flag (← Cursor.hasNext)
  | .peek => return .token (← Cursor.peek)
  | .next => return .token (← Cursor.next)
  | .form => return .value (← readForm)
  | .collection bracket => return .value (← readCollection bracket)
  | .atom => return .value (← readAtom)

/-- A call that was carried out, with the cursor before and after it. -/
structure Step (π : Type) where
  call : Call
  before : Cursor
  result : Except ReadError (Reply π)
  after : Cursor

/-- Carries calls out one after the other, and goes on after those that fail. -/
def performAll : List Call → Cursor → Option (List (Step π))
  | [], _ => some []
  | call :: calls, cursor => do
    let (result, after) ← call.perform.run.run cursor
    let steps ← performAll calls after
    return { call, before := cursor, result, after } :: steps

end Cursor

end MiniLisp
