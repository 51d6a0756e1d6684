/-!
# Symbols and keywords

A symbol names a function; a keyword stands for itself and is written with a colon in front. Both
are told apart by their names alone. Keywords, which can be keys of a map, are ordered by them, code
point by code point.
-/

namespace MiniLisp

/-- A symbol with its name. -/
structure Symbol where
  name : String
deriving DecidableEq, Repr, Inhabited

/-- A keyword with its name, which does not hold the colon. -/
structure Keyword where
  name : String
deriving DecidableEq, Repr, Inhabited

instance : Ord Keyword := ⟨fun a b => compare a.name b.name⟩

/-- The text of a symbol is its name. -/
def Symbol.text (s : Symbol) : String := s.name

/-- The text of a keyword. -/
def Keyword.text (k : Keyword) : String := ":" ++ k.name

/-- The symbol as it is shown when its kind matters. -/
def Symbol.describe (s : Symbol) : String := "Symbol(" ++ s.text ++ ")"

/-- The keyword as it is shown when its kind matters. -/
def Keyword.describe (k : Keyword) : String := "Keyword(" ++ k.text ++ ")"

end MiniLisp
