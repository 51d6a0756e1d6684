import MiniLisp.Proofs.Quoting

/-!
# Complete strings

A string is gone through twice, and by different rules: the lexer looks for its end, and later its
text is decoded. A backslash before a line feed ends the string for the lexer and is a pair like any
other for the decoder. This module says what each of them takes for a complete string, and that they
agree on all strings that the lexer finds.

* `Spells` says what a string holds between its quotes and what text that stands for.
* `traced` are the tokens of a text together with the reason why each string among them ended.

Results:
1. `decodeBody_eq_some_iff`: the decoder accepts units with a quote behind them, and nothing else.
2. `map_fst_traced`: the traced tokens are the tokens.
3. `unquote_strings`: a string token has a text exactly if a quote ended it.
-/

namespace MiniLisp

/-! ## Decoding -/

namespace Text.Quoted

open Token (Units)

/-- `Spells body text`: what a string holds between its quotes is a sequence of units, and the text
is what they stand for one after the other. A unit is a character other than a quote and a
backslash, or a backslash and any character behind it. -/
inductive Spells : List Char → List Char → Prop
  | nil : Spells [] []
  | plain {c : Char} {body text : List Char} :
      c ≠ '"' → c ≠ '\\' → Spells body text → Spells (c :: body) (c :: text)
  | backslash {body text : List Char} :
      Spells body text → Spells ('\\' :: '\\' :: body) ('\\' :: text)
  | quote {body text : List Char} :
      Spells body text → Spells ('\\' :: '"' :: body) ('"' :: text)
  | lineFeed {body text : List Char} :
      Spells body text → Spells ('\\' :: 'n' :: body) ('\n' :: text)
  | verbatim {c : Char} {body text : List Char} :
      c ≠ '\\' → c ≠ '"' → c ≠ 'n' → Spells body text →
      Spells ('\\' :: c :: body) ('\\' :: c :: text)

theorem Spells.pair {body text : List Char} (h : Spells body text) (c : Char) :
    Spells ('\\' :: c :: body) (unescapeChar c ++ text) := by
  unfold unescapeChar
  split
  · next hc => exact hc ▸ h.backslash
  · next hback =>
    split
    · next hc => exact hc ▸ h.quote
    · next hquote =>
      split
      · next hc => exact hc ▸ h.lineFeed
      · next hn => exact h.verbatim hback hquote hn

/-- The decoder goes through the units up to a quote, which has to be the last character. -/
theorem Spells.decodeBody_append {body text : List Char} (h : Spells body text)
    (rest : List Char) :
    decodeBody (body ++ '"' :: rest) = if rest.isEmpty then some text else none := by
  induction h with
  | nil => simp [decodeBody]
  | plain hquote hback _ ih =>
    rw [List.cons_append, QuotingLemmas.decodeBody_plain hquote hback, ih]
    split <;> rfl
  | backslash _ ih =>
    rw [List.cons_append, List.cons_append, decodeBody, ih]
    split <;> rfl
  | quote _ ih =>
    rw [List.cons_append, List.cons_append, decodeBody, ih]
    split <;> rfl
  | lineFeed _ ih =>
    rw [List.cons_append, List.cons_append, decodeBody, ih]
    split <;> rfl
  | verbatim hback hquote hn _ ih =>
    rw [List.cons_append, List.cons_append, decodeBody, ih]
    split <;> simp [unescapeChar, hback, hquote, hn]

theorem exists_spells_of_decodeBody {cs text : List Char} (h : decodeBody cs = some text) :
    ∃ body, Spells body text ∧ cs = body ++ ['"'] := by
  fun_induction decodeBody cs generalizing text with
  | case1 => cases h
  | case2 => cases h
  | case3 c rest ih =>
    obtain ⟨inner, hinner, rfl⟩ := Option.map_eq_some_iff.mp h
    obtain ⟨body, hbody, rfl⟩ := ih hinner
    exact ⟨'\\' :: c :: body, hbody.pair c, rfl⟩
  | case4 rest hempty =>
    cases h
    exact ⟨[], .nil, by simpa using hempty⟩
  | case5 => cases h
  | case6 c rest hlast hpair hquote ih =>
    have hback : c ≠ '\\' := by
      rintro rfl
      cases rest with
      | nil => exact hlast rfl rfl
      | cons d ds => exact hpair d ds rfl rfl
    obtain ⟨inner, hinner, rfl⟩ := Option.map_eq_some_iff.mp h
    obtain ⟨body, hbody, rfl⟩ := ih hinner
    exact ⟨c :: body, hbody.plain hquote hback, rfl⟩

theorem decodeBody_eq_some_iff {cs text : List Char} :
    decodeBody cs = some text ↔ ∃ body, Spells body text ∧ cs = body ++ ['"'] := by
  constructor
  · exact exists_spells_of_decodeBody
  · rintro ⟨body, hbody, rfl⟩
    rw [hbody.decodeBody_append]
    rfl

/-- What the lexer takes into a string stands for a text. -/
theorem exists_spells_of_units {body : List Char} (h : Units body) : ∃ text, Spells body text := by
  induction h with
  | nil => exact ⟨[], .nil⟩
  | plain hquote hback _ ih =>
    obtain ⟨text, htext⟩ := ih
    exact ⟨_, htext.plain hquote hback⟩
  | @escaped c _ _ _ ih =>
    obtain ⟨text, htext⟩ := ih
    exact ⟨_, htext.pair c⟩

/-- The lexer takes no quote into a string that the decoder takes for the end of it. -/
theorem Spells.not_units {body text : List Char} (h : Spells body text) (rest : List Char) :
    ¬ Units (body ++ '"' :: rest) := by
  intro hunits
  obtain ⟨_, htext⟩ := exists_spells_of_units hunits
  -- With a closing quote added, the decoder would accept the string and refuse it.
  have haccepted := htext.decodeBody_append []
  have hrefused := h.decodeBody_append (rest ++ ['"'])
  simp only [List.append_assoc, List.cons_append] at haccepted
  rw [hrefused] at haccepted
  simp at haccepted

end Text.Quoted

/-- `token.Quotes text`: the token is a quote, units that stand for the text, and a quote. -/
def Token.Quotes (token : Token) (text : String) : Prop :=
  ∃ body, Text.Quoted.Spells body text.toList ∧ token.toList = '"' :: (body ++ ['"'])

open Text.Quoted

theorem decode_eq_some_iff {cs text : List Char} :
    decode cs = some text ↔ ∃ body, Spells body text ∧ cs = '"' :: (body ++ ['"']) := by
  unfold decode
  split
  · simp [decodeBody_eq_some_iff]
  · next hquote =>
    constructor
    · intro h
      cases h
    · rintro ⟨body, _, rfl⟩
      exact absurd rfl (hquote _)

theorem unquote_eq_ok_iff {token : Token} {text : String} :
    unquote token = .ok text ↔ token.Quotes text := by
  unfold unquote Token.Quotes
  rw [← decode_eq_some_iff]
  split
  · next decoded hdecoded =>
    simp only [hdecoded, Except.ok.injEq, Option.some.injEq]
    rw [← String.toList_inj, String.toList_ofList]
  · next hdecoded => simp [hdecoded]

theorem unquote_eq_error_iff {token : Token} :
    unquote token = .error (.malformedString token) ↔ ∀ text, ¬ token.Quotes text := by
  simp only [← unquote_eq_ok_iff]
  unfold unquote
  split <;> simp

/-! ## Endings -/

namespace Token

/-- Why a string ended: its closing quote was found, the text was over, or a backslash stood at the
end of a line or of the text. -/
inductive StringEnd where
  | closingQuote
  | endOfText
  | backslash
deriving DecidableEq, Repr

/-- Why the string ends that follows an opening quote. The string goes as far as `splitString`
says. -/
def stringEnd : List Char → StringEnd
  | [] => .endOfText
  | ['\\'] => .backslash
  | '\\' :: c :: rest => if c = '\n' then .backslash else stringEnd rest
  | '"' :: _ => .closingQuote
  | _ :: rest => stringEnd rest

/-- Why the first token of a text ended, if it is a string. -/
def firstEnd? (text : List Char) : Option StringEnd :=
  match skipGap text with
  | '"' :: cs => some (stringEnd cs)
  | _ => none

/-- The tokens of a text, each with the reason why it ended if it is a string. -/
def traced (text : List Char) : List (Token × Option StringEnd) :=
  match _h : next? text with
  | none => []
  | some (token, rest) => (token, firstEnd? text) :: traced rest
termination_by text.length
decreasing_by exact length_lt_of_next? _h

theorem map_fst_traced (text : List Char) : (traced text).map Prod.fst = ofChars text := by
  fun_induction traced text with
  | case1 text hnone => rw [ofChars_of_next?_eq_none hnone, List.map_nil]
  | case2 text token rest hsome ih => rw [ofChars_of_next?_eq_some hsome, List.map_cons, ih]

theorem suffix_of_next? {text rest : List Char} {token : Token}
    (h : next? text = some (token, rest)) : rest <:+ text := by
  obtain ⟨gap, htext, _⟩ := LexingLemmas.exists_gap text
  unfold next? at h
  split at h
  · cases h
  · next c cs hskip =>
    simp only [Option.some.injEq, Prod.mk.injEq] at h
    obtain ⟨-, rfl⟩ := h
    rw [hskip, ← splitToken_append c cs, ← List.append_assoc] at htext
    exact ⟨_, htext.symm⟩

/-- A traced token is the first token of what was left of the text. -/
theorem exists_next?_of_mem_traced {text : List Char} {token : Token} {ending : Option StringEnd}
    (h : (token, ending) ∈ traced text) :
    ∃ left rest, left <:+ text ∧ next? left = some (token, rest) ∧ ending = firstEnd? left := by
  fun_induction traced text with
  | case1 => cases h
  | case2 text first rest hsome ih =>
    rcases List.mem_cons.mp h with heq | hmem
    · cases heq
      exact ⟨text, rest, List.suffix_rfl, hsome, rfl⟩
    · obtain ⟨left, behind, hleft, hnext⟩ := ih hmem
      exact ⟨left, behind, hleft.trans (suffix_of_next? hsome), hnext⟩

theorem Units.stringEnd_append {body : List Char} (h : Units body) (rest : List Char) :
    stringEnd (body ++ rest) = stringEnd rest := by
  induction h with
  | nil => rfl
  | plain hquote hback _ ih =>
    rw [List.cons_append, stringEnd, ih]
    · exact fun h => absurd h hback
    · exact fun _ _ h => absurd h hback
    · exact hquote
  | escaped hline _ ih => rw [List.cons_append, List.cons_append, stringEnd, if_neg hline, ih]

/-- A string is made of units. It ends after a closing quote, at the end of the text, or before a
backslash that stands at the end of a line or of the text. -/
theorem splitString_cases (cs : List Char) :
    (stringEnd cs = .closingQuote ∧ ∃ body, Units body ∧ (splitString cs).1 = body ++ ['"']) ∨
      (stringEnd cs = .endOfText ∧ Units (splitString cs).1 ∧ (splitString cs).2 = []) ∨
      (stringEnd cs = .backslash ∧ Units (splitString cs).1 ∧
        ((splitString cs).2 = ['\\'] ∨ ∃ others, (splitString cs).2 = '\\' :: '\n' :: others)) := by
  obtain ⟨body, rest, hbody, rfl | ⟨rfl, hrest⟩⟩ := exists_units cs
  · refine .inl ⟨?_, body, hbody, ?_⟩
    · rw [hbody.stringEnd_append, stringEnd]
    · rw [hbody.splitString_closed]
  · rw [hbody.stringEnd_append, hbody.splitString_broken hrest]
    rcases hrest with rfl | rfl | ⟨others, rfl⟩
    · exact .inr (.inl ⟨rfl, hbody, rfl⟩)
    · exact .inr (.inr ⟨rfl, hbody, .inl rfl⟩)
    · exact .inr (.inr ⟨by simp [stringEnd], hbody, .inr ⟨others, rfl⟩⟩)

/-- A first token that starts with a quote is the string behind that quote. -/
theorem splitString_of_next? {text rest : List Char} {token : Token}
    (h : next? text = some (token, rest)) (hquote : token.toList.head? = some '"') :
    ∃ cs, token.toList = '"' :: (splitString cs).1 ∧ rest = (splitString cs).2 ∧
      firstEnd? text = some (stringEnd cs) := by
  unfold next? at h
  split at h
  · cases h
  · next c cs hskip =>
    simp only [Option.some.injEq, Prod.mk.injEq] at h
    obtain ⟨rfl, rfl⟩ := h
    rw [String.toList_ofList] at hquote ⊢
    have hc : c = '"' := by
      have happend := congrArg List.head? (splitToken_append c cs)
      rw [List.head?_append, hquote] at happend
      exact (Option.some.inj happend).symm
    subst hc
    have hsingle : isSingle '"' = false := by decide
    refine ⟨cs, ?_, ?_, by simp [firstEnd?, hskip]⟩ <;> simp [splitToken, hsingle]

end Token

/-! ## Agreement -/

open Token

/-- A string that the lexer finds has a text if a quote ended it, and has none otherwise. -/
theorem exists_unquote_iff {token : Token} {cs : List Char}
    (h : token.toList = '"' :: (splitString cs).1) :
    (∃ text, unquote token = .ok text) ↔ stringEnd cs = .closingQuote := by
  have hbroken : Units (splitString cs).1 → ¬ ∃ text, unquote token = .ok text := by
    rintro hunits ⟨text, htext⟩
    have hnone : decode token.toList = none := by rw [h, decode, hunits.decodeBody_eq_none]
    simp [unquote, hnone] at htext
  rcases splitString_cases cs with
    ⟨hend, body, hbody, hsplit⟩ | ⟨hend, hunits, _⟩ | ⟨hend, hunits, _⟩
  · obtain ⟨text, htext⟩ := exists_spells_of_units hbody
    have hquotes : token.Quotes (String.ofList text) :=
      ⟨body, by rwa [String.toList_ofList], by rw [h, hsplit]⟩
    simp only [hend, iff_true]
    exact ⟨_, unquote_eq_ok_iff.mpr hquotes⟩
  · simpa [hend] using hbroken hunits
  · simpa [hend] using hbroken hunits

/-- In a string that the lexer finds, nothing follows what the decoder takes for its end. -/
theorem eq_nil_of_spells {cs body text rest : List Char} (hbody : Spells body text)
    (h : (splitString cs).1 = body ++ '"' :: rest) : rest = [] := by
  rcases splitString_cases cs with ⟨_, units, hunits, hsplit⟩ | ⟨_, hunits, _⟩ | ⟨_, hunits, _⟩
  · obtain ⟨other, htext⟩ := exists_spells_of_units hunits
    have haccepted := htext.decodeBody_append []
    rw [← hsplit, h, hbody.decodeBody_append] at haccepted
    have hdone : rest = [] ∧ text = other := by simpa using haccepted
    exact hdone.1
  · exact absurd (h ▸ hunits) (hbody.not_units rest)
  · exact absurd (h ▸ hunits) (hbody.not_units rest)

/-- What is a complete string is the same for the lexer and for the decoder.

Of all tokens, the decoder accepts those made of a quote, units and a quote, and gives what the
units stand for. It refuses every other token as malformed. Of the strings among the tokens of a
source, it accepts those that a closing quote ended, and refuses those that ended with the text or
before a backslash at the end of a line or of the text. In none of them does anything follow a quote
that ends the units. -/
theorem unquote_strings :
    (∀ (token : Token) (text : String), unquote token = .ok text ↔ token.Quotes text) ∧
      (∀ token : Token, unquote token = .error (.malformedString token) ↔
        ∀ text, ¬ token.Quotes text) ∧
      ∀ source : String, (traced source.toList).map Prod.fst = tokenize source ∧
        ∀ (token : Token) (ending : Option StringEnd), (token, ending) ∈ traced source.toList →
          token.toList.head? = some '"' →
          (∃ left rest, left <:+ source.toList ∧ next? left = some (token, rest) ∧
            (ending = some .endOfText → rest = []) ∧
            (ending = some .backslash → rest = ['\\'] ∨ ∃ others, rest = '\\' :: '\n' :: others)) ∧
            ((∃ text, unquote token = .ok text) ↔ ending = some .closingQuote) ∧
            (unquote token = .error (.malformedString token) ↔
              ending = some .endOfText ∨ ending = some .backslash) ∧
            ∀ body text rest, Spells body text → token.toList = '"' :: (body ++ '"' :: rest) →
              rest = [] := by
  refine ⟨fun _ _ => unquote_eq_ok_iff, fun _ => unquote_eq_error_iff, fun source => ?_⟩
  refine ⟨map_fst_traced source.toList, fun token ending hmem hquote => ?_⟩
  obtain ⟨left, rest, hleft, hnext, rfl⟩ := exists_next?_of_mem_traced hmem
  obtain ⟨cs, htoken, rfl, hend⟩ := splitString_of_next? hnext hquote
  have haccepts := exists_unquote_iff htoken
  rw [hend]
  refine ⟨⟨left, _, hleft, hnext, ?_⟩, by simpa using haccepts, ?_, ?_⟩
  · rcases splitString_cases cs with ⟨h, _⟩ | ⟨h, _, hrest⟩ | ⟨h, _, hrest⟩
    · simp [h]
    · simp [h, hrest]
    · simp [h, hrest]
  · have hrefuses : unquote token = .error (.malformedString token) ↔
        ¬ stringEnd cs = .closingQuote := by
      simp [unquote_eq_error_iff, ← haccepts, unquote_eq_ok_iff]
    rw [hrefuses]
    cases stringEnd cs <;> simp
  · intro body text rest hbody hparts
    rw [htoken] at hparts
    exact eq_nil_of_spells hbody (List.cons.inj hparts).2

/-- A string with an escaped quote, one that a backslash at the end of its line ends, and one whose
last quote is escaped. -/
theorem unquote_strings_endings :
    let source := "\"a\\\"b\" \"c\\\n\"e\\\""
    traced source.toList = [("\"a\\\"b\"", some .closingQuote), ("\"c", some .backslash),
        ("\\", none), ("\"e\\\"", some .endOfText)] ∧
      (∃ text, unquote "\"a\\\"b\"" = .ok text) ∧
      unquote "\"c" = .error (.malformedString "\"c") ∧
      unquote "\"e\\\"" = .error (.malformedString "\"e\\\"") := by
  intro source
  have htraced : traced source.toList = [("\"a\\\"b\"", some .closingQuote),
      ("\"c", some .backslash), ("\\", none), ("\"e\\\"", some .endOfText)] := by
    decide +kernel
  have hstrings := (unquote_strings.2.2 source).2
  rw [htraced] at hstrings
  refine ⟨htraced, ?_, ?_, ?_⟩
  · exact (hstrings _ (some .closingQuote) (by simp) (by decide)).2.1.mpr rfl
  · exact (hstrings _ (some .backslash) (by simp) (by decide)).2.2.1.mpr (.inr rfl)
  · exact (hstrings _ (some .endOfText) (by simp) (by decide)).2.2.1.mpr (.inl rfl)

end MiniLisp
