import MiniLisp.Proofs.Lexing
import MiniLisp.Reader.Literal

/-!
# Quoted text as tokens

What is written between quotes is a token of its own whatever follows, and it reads as the text that
was written. A string token that lacks its closing quote reads as nothing.

1. `lexeme_encode`: quoted text is a string token.
2. `decode_encode`: quoted text reads back.
3. `Token.Units.decodeBody_eq_none`: without a closing quote there is nothing to read.
4. `next?_quoted`: both for the reader of tokens, in front of any text.
-/

namespace MiniLisp

namespace Text.Quoted

open Token (Units Lexeme)

namespace QuotingLemmas

theorem escape_cons (c : Char) (cs : List Char) :
    escape (c :: cs) = escapeChar c ++ escape cs := rfl

theorem decodeBody_plain {c : Char} {cs : List Char} (hquote : c ≠ '"') (hback : c ≠ '\\') :
    decodeBody (c :: cs) = (decodeBody cs).map (c :: ·) := by
  rw [decodeBody]
  · exact fun h => absurd h hback
  · exact fun _ _ h => absurd h hback
  · exact hquote

end QuotingLemmas

open QuotingLemmas

/-- Each character is written as one unit of a string. -/
theorem units_escape (text : List Char) : Units (escape text) := by
  induction text with
  | nil => exact .nil
  | cons c cs ih =>
    rw [escape_cons]
    unfold escapeChar
    split
    · exact ih.escaped (by decide)
    · next hback =>
      split
      · exact ih.escaped (by decide)
      · next hquote =>
        split
        · exact ih.escaped (by decide)
        · exact ih.plain hquote hback

theorem lexeme_encode (text rest : List Char) : Lexeme .string (encode text) rest :=
  .closed (units_escape text)

theorem decode_encode (text : List Char) : decode (encode text) = some text := by
  change decodeBody (escape text ++ ['"']) = some text
  induction text with
  | nil => rfl
  | cons c cs ih =>
    rw [escape_cons, List.append_assoc]
    unfold escapeChar
    split
    · next h => simp [decodeBody, ih, unescapeChar, h]
    · next hback =>
      split
      · next h => simp [decodeBody, ih, unescapeChar, h]
      · next hquote =>
        split
        · next h => simp [decodeBody, ih, unescapeChar, h]
        · simp [decodeBody_plain hquote hback, ih]

end Text.Quoted

open Text.Quoted QuotingLemmas

/-- A string that breaks off has no text. -/
theorem Token.Units.decodeBody_eq_none {body : List Char} (h : Units body) :
    decodeBody body = none := by
  induction h with
  | nil => rfl
  | plain hquote hback _ ih =>
    rw [decodeBody_plain hquote hback, ih]
    rfl
  | @escaped c cs _ _ ih =>
    rw [decodeBody, ih]
    rfl

/-! ## Quoted text in front of other text -/

theorem unquote_encode (text : List Char) :
    unquote (String.ofList (encode text)) = .ok (String.ofList text) := by
  rw [unquote, String.toList_ofList, decode_encode]

/-- A text that is escaped and put between quotes is the first token of whatever it is written in
front of. The tokens after it are those of what follows, and it reads as the text. -/
theorem next?_quoted (text rest : String) :
    let token : Token := "\"" ++ String.ofList (escape text.toList) ++ "\""
    Token.next? (token ++ rest).toList = some (token, rest.toList) ∧
      tokenize (token ++ rest) = token :: tokenize rest ∧ unquote token = .ok text := by
  intro token
  have htoken : token = String.ofList (encode text.toList) := by
    apply String.toList_injective
    simp [token, encode]
  have hlexeme : Token.Lexeme .string (encode text.toList) rest.toList :=
    lexeme_encode text.toList rest.toList
  have hsource : (token ++ rest).toList = encode text.toList ++ rest.toList := by
    rw [htoken, String.toList_append, String.toList_ofList]
  refine ⟨?_, ?_, ?_⟩
  · rw [hsource, htoken]
    exact hlexeme.next?_append
  · rw [tokenize, hsource, htoken]
    exact hlexeme.ofChars_append
  · rw [htoken, unquote_encode, String.ofList_toList]

end MiniLisp
