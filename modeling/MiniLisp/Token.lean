import MiniLisp.Text.Blank

/-!
# Tokens

A token is a piece of the source text, character for character. Between tokens lie gaps of blanks,
commas and comments; a comment runs from a semicolon to the end of its line. After a gap, what stands
there decides the token:

* `~@`, and each of the characters in `isSingle`, is a token by itself;
* a quote starts a string, which ends with the next quote that no backslash precedes;
* anything else starts a bare token, which ends before the next delimiter.

Every text has a sequence of tokens: a string that is not closed is a token as well.
-/

namespace MiniLisp

/-- A piece of source text that the reader takes as a whole. -/
abbrev Token := String

namespace Token

/-- The characters that are tokens by themselves where a token starts. -/
def isSingle (c : Char) : Bool :=
  "[]\x7b\x7d()'`~^@".toList.contains c

/-- The characters that end a bare token. -/
def isDelimiter (c : Char) : Bool :=
  Text.isBlank c || "[]\x7b\x7d()'\"`,;".toList.contains c

/-- The characters that go on with a bare token. -/
def isBare (c : Char) : Bool := !isDelimiter c

/-! ## Gaps -/

mutual

/-- What follows the gap at the start of a text. -/
def skipGap : List Char → List Char
  | [] => []
  | c :: cs =>
    if c = ';' then skipComment cs
    else if Text.isBlank c || c = ',' then skipGap cs
    else c :: cs
termination_by structural cs => cs

/-- What follows the gap at the start of a text that starts inside a comment. -/
def skipComment : List Char → List Char
  | [] => []
  | c :: cs => if c = '\n' then skipGap cs else skipComment cs
termination_by structural cs => cs

end

/-! ## Tokens -/

/-- Splits what follows an opening quote after the string: up to its closing quote. A backslash goes
together with the character after it. A backslash at the end of a line or of the text ends the
string, which then is not closed, and is left for the next token. -/
def splitString : List Char → List Char × List Char
  | [] => ([], [])
  | ['\\'] => ([], ['\\'])
  | '\\' :: c :: rest =>
    if c = '\n' then ([], '\\' :: c :: rest)
    else
      let (body, rest) := splitString rest
      ('\\' :: c :: body, rest)
  | '"' :: rest => (['"'], rest)
  | c :: rest =>
    let (body, rest) := splitString rest
    (c :: body, rest)

/-- Splits a text that starts with the character of a token after that token. -/
def splitToken (c : Char) (cs : List Char) : List Char × List Char :=
  if c = '~' ∧ cs.head? = some '@' then (['~', '@'], cs.tail)
  else if isSingle c then ([c], cs)
  else if c = '"' then
    let (body, rest) := splitString cs
    ('"' :: body, rest)
  else (c :: cs.takeWhile isBare, cs.dropWhile isBare)

/-- The first token of a text and what follows it. -/
def next? (text : List Char) : Option (Token × List Char) :=
  match skipGap text with
  | [] => none
  | c :: cs =>
    let (token, rest) := splitToken c cs
    some (String.ofList token, rest)

/-! ## A token is never empty -/

mutual

theorem length_skipGap_le : ∀ cs : List Char, (skipGap cs).length ≤ cs.length
  | [] => by simp [skipGap]
  | c :: cs => by
    have hgap := length_skipGap_le cs
    have hcomment := length_skipComment_le cs
    simp only [skipGap]
    split
    · simp only [List.length_cons]; omega
    · split <;> simp only [List.length_cons] <;> omega

theorem length_skipComment_le : ∀ cs : List Char, (skipComment cs).length ≤ cs.length
  | [] => by simp [skipComment]
  | c :: cs => by
    have hgap := length_skipGap_le cs
    have hcomment := length_skipComment_le cs
    simp only [skipComment]
    split <;> simp only [List.length_cons] <;> omega

end

/-- A string and what follows it make up the text. -/
theorem splitString_append (cs : List Char) :
    (splitString cs).1 ++ (splitString cs).2 = cs := by
  fun_induction splitString cs <;> simp_all

/-- A token and what follows it make up the text. -/
theorem splitToken_append (c : Char) (cs : List Char) :
    (splitToken c cs).1 ++ (splitToken c cs).2 = c :: cs := by
  unfold splitToken
  split
  · next h =>
    obtain ⟨rfl, hat⟩ := h
    cases cs <;> simp_all
  · split
    · simp
    · split
      · next h => simp [h, splitString_append]
      · simp [List.takeWhile_append_dropWhile]

theorem splitToken_ne_nil (c : Char) (cs : List Char) : (splitToken c cs).1 ≠ [] := by
  unfold splitToken
  split
  · simp
  · split
    · simp
    · split <;> simp

theorem length_splitToken_lt (c : Char) (cs : List Char) :
    (splitToken c cs).2.length < (c :: cs).length := by
  have hlength := congrArg List.length (splitToken_append c cs)
  have hpos := List.length_pos_iff.mpr (splitToken_ne_nil c cs)
  simp only [List.length_append] at hlength
  omega

/-- What follows the first token is shorter than the text. -/
theorem length_lt_of_next? {text rest : List Char} {token : Token}
    (h : next? text = some (token, rest)) : rest.length < text.length := by
  unfold next? at h
  split at h
  · cases h
  · next c cs hgap =>
    simp only [Option.some.injEq, Prod.mk.injEq] at h
    have hsplit := length_splitToken_lt c cs
    have hskip := length_skipGap_le text
    rw [h.2] at hsplit
    rw [hgap] at hskip
    omega

/-! ## All tokens -/

/-- The tokens of a text. -/
def ofChars (text : List Char) : List Token :=
  match _h : next? text with
  | none => []
  | some (token, rest) => token :: ofChars rest
termination_by text.length
decreasing_by exact length_lt_of_next? _h

/-- The first `n` tokens of a text, with `none` for each that is missing, and what follows them. -/
def take : Nat → List Char → List (Option Token) × List Char
  | 0, text => ([], text)
  | n + 1, text =>
    match next? text with
    | none =>
      let (tokens, rest) := take n []
      (none :: tokens, rest)
    | some (token, rest) =>
      let (tokens, rest) := take n rest
      (some token :: tokens, rest)

end Token

/-- The tokens of a source text. -/
def tokenize (source : String) : List Token :=
  Token.ofChars source.toList

end MiniLisp
