import MiniLisp.Value.Basic

/-!
# Text of values

Values are written in one of two styles. The readable style quotes strings, so that what was read
and printed can be read again; the plain style writes strings as they are, except where they are
keys of a map. Metadata is never written.
-/

namespace MiniLisp

/-- How strings are written. -/
inductive Style where
  | readable
  | plain
deriving DecidableEq, Repr, Inhabited

/-- The text of a string. -/
def Style.string (style : Style) (text : String) : String :=
  match style with
  | .readable => String.ofList (Text.Quoted.encode text.toList)
  | .plain => text

/-- The text of an atom. -/
def Atom.print (style : Style) : Atom → String
  | .bool b => if b then "true" else "false"
  | .int n => toString n.toInt
  | .float x => String.ofList x.toChars
  | .symbol s => s.text
  | .string text => style.string text
  | .keyword k => k.text

namespace Procedure

variable {π : Type}

/-- The text of a function, which cannot be read again. -/
def print (f : Procedure π) : String := "#<native-fn " ++ f.name.text ++ ">"

end Procedure

namespace Value

variable {π : Type}

mutual

/-- The text of a value. -/
def print (style : Style) : Value π → String
  | .nil => "nil"
  | .unit => "()"
  | .atom a _ => a.print style
  | .list items _ => "(" ++ printItems style items ++ ")"
  | .vector items _ => "[" ++ printItems style items ++ "]"
  | .map entries _ => "\x7b" ++ printEntries style entries ++ "\x7d"
  | .procedure f _ => f.print
  | .sugar tag form metaForm _ =>
    "(" ++ tag.text ++ " " ++ print style form ++ printOption style metaForm ++ ")"
termination_by structural v => v

/-- The texts of the values, with a space between two. -/
def printItems (style : Style) : List (Value π) → String
  | [] => ""
  | [x] => print style x
  | x :: xs => print style x ++ " " ++ printItems style xs
termination_by structural vs => vs

/-- The texts of the keys and values, with a space between two. -/
def printEntries (style : Style) : List (MapKey × Value π) → String
  | [] => ""
  | [(k, x)] => k.text ++ " " ++ print style x
  | (k, x) :: xs => k.text ++ " " ++ print style x ++ " " ++ printEntries style xs
termination_by structural vs => vs

/-- The text of a value with a space before it, if there is one. -/
def printOption (style : Style) : Option (Value π) → String
  | none => ""
  | some x => " " ++ print style x
termination_by structural v => v

end

end Value

end MiniLisp
