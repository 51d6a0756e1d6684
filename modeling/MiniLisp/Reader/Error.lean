import MiniLisp.Token
import MiniLisp.Value.Basic

/-!
# Errors of reading
-/

namespace MiniLisp

/-- The brackets that enclose the items of a collection. -/
inductive Bracket where
  | list
  | vector
  | map
deriving DecidableEq, Repr, Inhabited

namespace Bracket

/-- The bracket that a token opens. -/
def ofOpener? (token : Token) : Option Bracket :=
  if token = "(" then some .list
  else if token = "[" then some .vector
  else if token = "\x7b" then some .map
  else none

/-- The token that closes a bracket. -/
def closer : Bracket → Token
  | .list => ")"
  | .vector => "]"
  | .map => "\x7d"

/-- What a bracket encloses. -/
def noun : Bracket → String
  | .list => "list"
  | .vector => "vector"
  | .map => "hashmap"

end Bracket

/-- Why no value can be read. -/
inductive ReadError where
  /-- There is no token where a form has to start. -/
  | unexpectedEnd
  /-- A bracket is not closed. -/
  | unterminated (bracket : Bracket)
  /-- A string is not closed. -/
  | malformedString (token : Token)
  | invalidMap (cause : MapError)
  | metadata (cause : MetadataError)
  /-- A form lies inside more than `limit` others. -/
  | tooDeeplyNested (limit : Nat)
deriving DecidableEq, Repr

def ReadError.message : ReadError → String
  | .unexpectedEnd => "unexpected EOF"
  | .unterminated bracket => "EOF while reading " ++ bracket.noun
  | .malformedString token => "EOF while reading string " ++ token
  | .invalidMap cause => cause.message
  | .metadata cause => "cannot attach metadata: " ++ cause.message
  | .tooDeeplyNested limit => "forms nested deeper than " ++ toString limit ++ " levels"

end MiniLisp
