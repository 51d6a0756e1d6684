/-!
# Quoted text

A string is written between double quotes. Inside, a backslash introduces an escape: `\\` is a
backslash, `\"` a quote and `\n` a line feed. Writing uses exactly these three escapes; reading
accepts every other pair of a backslash and a character too, and keeps both characters.
-/

namespace MiniLisp.Text.Quoted

/-- How a character is written inside quotes. -/
def escapeChar (c : Char) : List Char :=
  if c = '\\' then ['\\', '\\']
  else if c = '"' then ['\\', '"']
  else if c = '\n' then ['\\', 'n']
  else [c]

/-- What the pair of a backslash and `c` stands for. -/
def unescapeChar (c : Char) : List Char :=
  if c = '\\' then ['\\']
  else if c = '"' then ['"']
  else if c = 'n' then ['\n']
  else ['\\', c]

/-- The text as it is written inside quotes, without the quotes. -/
def escape (text : List Char) : List Char :=
  text.flatMap escapeChar

/-- The text in quotes. -/
def encode (text : List Char) : List Char :=
  '"' :: (escape text ++ ['"'])

/-- Reads what follows an opening quote: the text up to the closing quote, which has to be the last
character. -/
def decodeBody : List Char → Option (List Char)
  | [] => none
  | ['\\'] => none
  | '\\' :: c :: rest => (decodeBody rest).map (unescapeChar c ++ ·)
  | '"' :: rest => if rest.isEmpty then some [] else none
  | c :: rest => (decodeBody rest).map (c :: ·)

/-- Reads a text in quotes. There is none if the opening or the closing quote is missing, if
something follows the closing quote, or if a backslash has no character after it. -/
def decode : List Char → Option (List Char)
  | '"' :: body => decodeBody body
  | _ => none

end MiniLisp.Text.Quoted
