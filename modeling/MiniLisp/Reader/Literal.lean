import MiniLisp.Number.Numeral
import MiniLisp.Reader.Error

/-!
# Literals

A token that is no bracket and no shorthand denotes a value by itself. A colon in front makes a
keyword and a quote a string. Of the other tokens, whole numerals that fit into 64 bits are integers,
all other numerals are floats, three words are constants, and the rest are symbols.
-/

namespace MiniLisp

variable {π : Type}

/-- The text of a string token. -/
def unquote (token : Token) : Except ReadError String :=
  match Text.Quoted.decode token.toList with
  | some text => .ok (String.ofList text)
  | none => .error (.malformedString token)

/-- The value of a token that is neither a keyword nor a string. -/
def scalar (token : Token) : Value π :=
  match Numeral.int64? token.toList with
  | some n => .int n
  | none =>
    match Numeral.binary64? token.toList with
    | some x => .float x
    | none =>
      if token = "true" then .bool true
      else if token = "false" then .bool false
      else if token = "nil" then .nil
      else .symbol ⟨token⟩

/-- The value of a literal token. -/
def literal (token : Token) : Except ReadError (Value π) :=
  match token.toList with
  | ':' :: name => .ok (.keyword ⟨String.ofList name⟩)
  | '"' :: _ => (unquote token).map .string
  | _ => .ok (scalar token)

end MiniLisp
