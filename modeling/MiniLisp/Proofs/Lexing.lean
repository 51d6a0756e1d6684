import MiniLisp.Token

/-!
# Tokens partition the text

The tokens of a text and the gaps between them, put one after the other, are the text. This module
says what a gap and what a token is without a look at how they are found:

* a gap is a sequence of blanks, commas and comments, and a comment reaches up to a line feed or up
  to the end of the text;
* a token has one of the four shapes of `Shape`, and `Lexeme` says for each shape what the token
  holds and what may follow it. The condition on what follows is what makes tokens as long as they
  can be.

Results:
1. `Gap.ofChars_append`, `Lexeme.ofChars_append`: a gap in front of a text adds no tokens, and a
   token in front of a text that may follow it adds that token.
2. `lexed_ofChars`, `Lexed.ofChars_eq`: the tokens of a text partition it, and no other sequence of
   tokens does.
3. `tokenize_eq_iff_lexed`: both directions for source texts.
-/

namespace MiniLisp

namespace Token

/-! ## Definitions -/

/-- `Gap gap rest`: the text `gap` separates tokens in front of `rest`.

A comment does not include the line feed that ends it. Where no line feed ends it, it has to be the
last of the text, so that `rest` is empty. -/
inductive Gap : List Char → List Char → Prop
  | nil {rest : List Char} : Gap [] rest
  | blank {c : Char} {cs rest : List Char} :
      Text.isBlank c = true ∨ c = ',' → Gap cs rest → Gap (c :: cs) rest
  | comment {body cs rest : List Char} :
      '\n' ∉ body → (cs ++ rest = [] ∨ (cs ++ rest).head? = some '\n') → Gap cs rest →
      Gap (';' :: (body ++ cs)) rest

/-- `Units body`: a string can hold `body` between its quotes. A backslash takes the character after
it along, and that character is no line feed. -/
inductive Units : List Char → Prop
  | nil : Units []
  | plain {c : Char} {cs : List Char} : c ≠ '"' → c ≠ '\\' → Units cs → Units (c :: cs)
  | escaped {c : Char} {cs : List Char} : c ≠ '\n' → Units cs → Units ('\\' :: c :: cs)

/-- A string that is not closed stops before `rest`: the text is over, or a backslash stands at the
end of a line or of the text. -/
def BreaksOff (rest : List Char) : Prop :=
  rest = [] ∨ rest = ['\\'] ∨ ∃ others, rest = '\\' :: '\n' :: others

/-- A bare token stops before `rest`: the text is over, or a delimiter follows. -/
def Ends (rest : List Char) : Prop :=
  ∀ c, rest.head? = some c → isDelimiter c = true

/-- The characters that a gap can start with. -/
def startsGap (c : Char) : Bool := Text.isBlank c || c = ',' || c = ';'

/-- The characters that a bare token can start with. -/
def startsBare (c : Char) : Bool := !(startsGap c || c = '"' || isSingle c)

/-- The shapes of tokens. -/
inductive Shape where
  | splice
  | single
  | string
  | bare
deriving DecidableEq, Repr

/-- `Lexeme shape token rest`: in front of `rest`, the text `token` is a token of the given shape.

* `splice`: the two characters `~@`.
* `single`: one of the characters in `isSingle`. A `~` is not single in front of `@`.
* `closed`: a string with both quotes. Anything may follow.
* `broken`: a string without a closing quote, where the text allows none.
* `bare`: a run of characters that are no delimiters, up to where `Ends` holds. -/
inductive Lexeme : Shape → List Char → List Char → Prop
  | splice {rest : List Char} : Lexeme .splice ['~', '@'] rest
  | single {c : Char} {rest : List Char} :
      isSingle c = true → (c = '~' → rest.head? ≠ some '@') → Lexeme .single [c] rest
  | closed {body rest : List Char} : Units body → Lexeme .string ('"' :: (body ++ ['"'])) rest
  | broken {body rest : List Char} :
      Units body → BreaksOff rest → Lexeme .string ('"' :: body) rest
  | bare {c : Char} {cs rest : List Char} :
      startsBare c = true → (∀ d ∈ cs, isDelimiter d = false) → Ends rest →
      Lexeme .bare (c :: cs) rest

/-- `Lexed text tokens`: the text is made of gaps and the given tokens in turn, a gap first and a
gap last. Each token has exactly one shape. -/
inductive Lexed : List Char → List Token → Prop
  | done {gap : List Char} : Gap gap [] → Lexed gap []
  | token {gap token rest : List Char} {shape : Shape} {tokens : List Token} :
      Gap gap (token ++ rest) → Lexeme shape token rest →
      (∀ other, Lexeme other token rest → other = shape) → Lexed rest tokens →
      Lexed (gap ++ (token ++ rest)) (String.ofList token :: tokens)

/-! ## Gaps -/

/-- What is skipped in front of `rest` is skipped. -/
theorem Gap.skipGap_append {gap rest : List Char} (h : Gap gap rest) :
    skipGap (gap ++ rest) = skipGap rest := by
  induction h with
  | nil => rfl
  | @blank c cs rest hc _ ih =>
    have hsemi : c ≠ ';' := by
      rintro rfl
      exact absurd hc (by decide)
    simp [skipGap, hsemi, hc, ih]
  | @comment body cs rest hbody hend _ ih =>
    have hskip : ∀ body : List Char, '\n' ∉ body →
        skipComment (body ++ (cs ++ rest)) = skipComment (cs ++ rest) := by
      intro body hbody
      induction body with
      | nil => rfl
      | cons d ds ihd =>
        simp only [List.mem_cons, not_or] at hbody
        simp [skipComment, Ne.symm hbody.1, ihd hbody.2]
    -- A comment stops before the line break, which is blank and so part of the gap again.
    have hcomment : skipComment (cs ++ rest) = skipGap (cs ++ rest) := by
      rcases hend with hend | hend
      · simp [hend, skipComment, skipGap]
      · obtain ⟨others, hothers⟩ := List.head?_eq_some_iff.mp hend
        have hblank : Text.isBlank '\n' = true := by decide
        simp [hothers, skipComment, skipGap, hblank]
    rw [List.cons_append, List.append_assoc, skipGap, if_pos rfl, hskip body hbody, hcomment, ih]

namespace LexingLemmas

mutual

/-- What stands before the end of a gap is a gap. -/
theorem exists_gap : ∀ text : List Char,
    ∃ gap, text = gap ++ skipGap text ∧ Gap gap (skipGap text)
  | [] => ⟨[], by simp [skipGap], .nil⟩
  | c :: cs => by
    by_cases hsemi : c = ';'
    · obtain ⟨body, gap, htext, hbody, hend, hgap⟩ := exists_comment cs
      refine ⟨';' :: (body ++ gap), ?_, ?_⟩
      · simpa [skipGap, hsemi] using htext
      · simpa [skipGap, hsemi] using Gap.comment hbody hend hgap
    · by_cases hblank : (Text.isBlank c || c = ',') = true
      · obtain ⟨gap, htext, hgap⟩ := exists_gap cs
        refine ⟨c :: gap, ?_, ?_⟩
        · simpa [skipGap, hsemi, hblank] using htext
        · simpa [skipGap, hsemi, hblank] using Gap.blank (by simpa using hblank) hgap
      · exact ⟨[], by simp [skipGap, hsemi, hblank], .nil⟩

theorem exists_comment : ∀ text : List Char,
    ∃ body gap, text = body ++ (gap ++ skipComment text) ∧ '\n' ∉ body ∧
      (gap ++ skipComment text = [] ∨ (gap ++ skipComment text).head? = some '\n') ∧
      Gap gap (skipComment text)
  | [] => ⟨[], [], by simp [skipComment], by simp, .inl (by simp [skipComment]), .nil⟩
  | c :: cs => by
    by_cases hline : c = '\n'
    · subst hline
      obtain ⟨gap, htext, hgap⟩ := exists_gap cs
      refine ⟨[], '\n' :: gap, ?_, by simp, .inr (by simp), ?_⟩
      · simpa [skipComment] using htext
      · simpa [skipComment] using Gap.blank (.inl (by decide)) hgap
    · obtain ⟨body, gap, htext, hbody, hend, hgap⟩ := exists_comment cs
      refine ⟨c :: body, gap, ?_, ?_, ?_, ?_⟩
      · simpa [skipComment, hline] using htext
      · simp [Ne.symm hline, hbody]
      · simpa [skipComment, hline] using hend
      · simpa [skipComment, hline] using hgap

end

mutual

theorem startsGap_of_skipGap {c : Char} {cs : List Char} :
    ∀ text : List Char, skipGap text = c :: cs → startsGap c = false
  | [], h => by simp [skipGap] at h
  | d :: ds, h => by
    simp only [skipGap] at h
    split at h
    · exact startsGap_of_skipComment ds h
    · next hsemi =>
      split at h
      · exact startsGap_of_skipGap ds h
      · next hblank =>
        cases h
        simpa [startsGap, hsemi] using hblank

theorem startsGap_of_skipComment {c : Char} {cs : List Char} :
    ∀ text : List Char, skipComment text = c :: cs → startsGap c = false
  | [], h => by simp [skipComment] at h
  | d :: ds, h => by
    simp only [skipComment] at h
    split at h
    · exact startsGap_of_skipGap ds h
    · exact startsGap_of_skipComment ds h

end

theorem skipGap_of_startsGap {c : Char} {cs : List Char} (h : startsGap c = false) :
    skipGap (c :: cs) = c :: cs := by
  simp only [startsGap, Bool.or_eq_false_iff, decide_eq_false_iff_not] at h
  simp [skipGap, h]

end LexingLemmas

open LexingLemmas

/-! ## Strings -/

namespace LexingLemmas

theorem splitString_plain {c : Char} {cs : List Char} (hquote : c ≠ '"') (hback : c ≠ '\\') :
    splitString (c :: cs) = (c :: (splitString cs).1, (splitString cs).2) := by
  rw [splitString]
  · exact fun h => absurd h hback
  · exact fun _ _ h => absurd h hback
  · exact hquote

theorem splitString_escaped {c : Char} {cs : List Char} (hline : c ≠ '\n') :
    splitString ('\\' :: c :: cs) = ('\\' :: c :: (splitString cs).1, (splitString cs).2) := by
  rw [splitString, if_neg hline]

end LexingLemmas

/-- Proper units belong to the string, whatever follows them. -/
theorem Units.splitString_append {body : List Char} (h : Units body) (rest : List Char) :
    splitString (body ++ rest) = (body ++ (splitString rest).1, (splitString rest).2) := by
  induction h with
  | nil => rfl
  | plain hquote hback _ ih => simp [splitString_plain hquote hback, ih]
  | escaped hline _ ih => simp [splitString_escaped hline, ih]

/-- A closing quote after proper units ends the string. -/
theorem Units.splitString_closed {body : List Char} (h : Units body) (rest : List Char) :
    splitString (body ++ '"' :: rest) = (body ++ ['"'], rest) := by
  rw [h.splitString_append, splitString]

theorem BreaksOff.splitString_eq {rest : List Char} (h : BreaksOff rest) :
    splitString rest = ([], rest) := by
  rcases h with rfl | rfl | ⟨others, rfl⟩ <;> simp [splitString]

theorem Units.splitString_broken {body rest : List Char} (h : Units body) (hrest : BreaksOff rest) :
    splitString (body ++ rest) = (body, rest) := by
  rw [h.splitString_append, hrest.splitString_eq, List.append_nil]

/-- What follows an opening quote is a string that is closed or a string that breaks off. -/
theorem exists_units (text : List Char) :
    ∃ body rest, Units body ∧
      (text = body ++ '"' :: rest ∨ (text = body ++ rest ∧ BreaksOff rest)) := by
  fun_induction splitString text with
  | case1 => exact ⟨[], [], .nil, .inr ⟨rfl, .inl rfl⟩⟩
  | case2 => exact ⟨[], ['\\'], .nil, .inr ⟨rfl, .inr (.inl rfl)⟩⟩
  | case3 cs =>
    exact ⟨[], _, .nil, .inr ⟨rfl, .inr (.inr ⟨cs, rfl⟩)⟩⟩
  | case4 c cs hline _ _ _ ih =>
    obtain ⟨body, rest, hbody, hclosed | ⟨htext, hbroken⟩⟩ := ih
    · exact ⟨_, rest, hbody.escaped hline, .inl (by simp [hclosed])⟩
    · exact ⟨_, rest, hbody.escaped hline, .inr ⟨by simp [htext], hbroken⟩⟩
  | case5 rest => exact ⟨[], rest, .nil, .inl rfl⟩
  | case6 c cs hlast hback hquote _ _ _ ih =>
    have hc : c ≠ '\\' := by
      rintro rfl
      cases cs with
      | nil => exact hlast rfl rfl
      | cons d ds => exact hback d ds rfl rfl
    obtain ⟨body, rest, hbody, hclosed | ⟨htext, hbroken⟩⟩ := ih
    · exact ⟨_, rest, hbody.plain hquote hc, .inl (by simp [hclosed])⟩
    · exact ⟨_, rest, hbody.plain hquote hc, .inr ⟨by simp [htext], hbroken⟩⟩

/-! ## Tokens -/

namespace LexingLemmas

theorem startsGap_of_isSingle {c : Char} (h : isSingle c = true) : startsGap c = false := by
  have hall : "[]\x7b\x7d()'`~^@".toList.all (fun c => !startsGap c) = true := by decide
  simp only [isSingle, List.contains_eq_mem, decide_eq_true_eq] at h
  simpa using List.all_eq_true.mp hall c h

/-- A run of bare characters ends where `Ends` holds, and no later and no sooner. -/
theorem span_isBare {cs rest : List Char} (hcs : ∀ d ∈ cs, isDelimiter d = false)
    (hrest : Ends rest) :
    (cs ++ rest).takeWhile isBare = cs ∧ (cs ++ rest).dropWhile isBare = rest := by
  have hbare : ∀ d ∈ cs, isBare d = true := by
    intro d hd
    simp [isBare, hcs d hd]
  have htake : rest.takeWhile isBare = [] ∧ rest.dropWhile isBare = rest := by
    cases rest with
    | nil => simp
    | cons d ds => simp [isBare, hrest d rfl]
  rw [List.takeWhile_append_of_pos hbare, List.dropWhile_append_of_pos hbare, htake.1, htake.2]
  simp

theorem startsBare_iff {c : Char} :
    startsBare c = true ↔ startsGap c = false ∧ c ≠ '"' ∧ isSingle c = false := by
  simp [startsBare, and_assoc]

end LexingLemmas

/-- No token starts with a character of a gap. -/
theorem Lexeme.exists_cons {shape : Shape} {token rest : List Char} (h : Lexeme shape token rest) :
    ∃ c cs, token = c :: cs ∧ startsGap c = false := by
  cases h with
  | splice => exact ⟨_, _, rfl, by decide⟩
  | single hc _ => exact ⟨_, _, rfl, startsGap_of_isSingle hc⟩
  | closed _ => exact ⟨_, _, rfl, by decide⟩
  | broken _ _ => exact ⟨_, _, rfl, by decide⟩
  | bare hc _ _ => exact ⟨_, _, rfl, (startsBare_iff.mp hc).1⟩

theorem Lexeme.ne_nil {shape : Shape} {token rest : List Char} (h : Lexeme shape token rest) :
    token ≠ [] := by
  obtain ⟨c, cs, rfl, _⟩ := h.exists_cons
  exact List.cons_ne_nil c cs

/-- The text in front of what follows a token is split after that token. -/
theorem Lexeme.splitToken_eq {shape : Shape} {c : Char} {cs rest : List Char}
    (h : Lexeme shape (c :: cs) rest) : splitToken c (cs ++ rest) = (c :: cs, rest) := by
  cases h with
  | splice => simp [splitToken]
  | single hc htilde =>
    have hsplice : ¬ (c = '~' ∧ rest.head? = some '@') := fun h => htilde h.1 h.2
    simp [splitToken, hsplice, hc]
  | closed hbody =>
    have hquote : isSingle '"' = false := by decide
    simp [splitToken, hquote, hbody.splitString_closed]
  | broken hbody hrest =>
    have hquote : isSingle '"' = false := by decide
    simp [splitToken, hquote, hbody.splitString_broken hrest]
  | bare hc hcs hrest =>
    obtain ⟨_, hquote, hsingle⟩ := startsBare_iff.mp hc
    have htilde : c ≠ '~' := by
      rintro rfl
      exact absurd hsingle (by decide)
    obtain ⟨htake, hdrop⟩ := span_isBare hcs hrest
    simp [splitToken, htilde, hsingle, hquote, htake, hdrop]

/-- A text that does not start with a gap starts with a token. -/
theorem exists_lexeme {c : Char} (cs : List Char) (hc : startsGap c = false) :
    ∃ shape token rest, c :: cs = token ++ rest ∧ Lexeme shape token rest := by
  by_cases hsingle : isSingle c = true
  · by_cases hsplice : c = '~' ∧ cs.head? = some '@'
    · obtain ⟨rfl, hat⟩ := hsplice
      obtain ⟨rest, rfl⟩ := List.head?_eq_some_iff.mp hat
      exact ⟨_, _, rest, rfl, .splice⟩
    · exact ⟨_, [c], cs, rfl, .single hsingle fun htilde hat => hsplice ⟨htilde, hat⟩⟩
  · by_cases hquote : c = '"'
    · subst hquote
      obtain ⟨body, rest, hbody, hclosed | ⟨hbroken, hrest⟩⟩ := exists_units cs
      · exact ⟨_, _, rest, by simp [hclosed], .closed hbody⟩
      · exact ⟨_, _, rest, by simp [hbroken], .broken hbody hrest⟩
    · have hstart : startsBare c = true :=
        startsBare_iff.mpr ⟨hc, hquote, by simpa using hsingle⟩
      refine ⟨_, c :: cs.takeWhile isBare, cs.dropWhile isBare, ?_, .bare hstart ?_ ?_⟩
      · simp [List.takeWhile_append_dropWhile]
      · intro d hd
        have hbare := List.all_eq_true.mp List.all_takeWhile d hd
        simpa [isBare] using hbare
      · intro d hd
        have hbare := List.head?_dropWhile_not isBare cs
        rw [hd] at hbare
        simpa [isBare] using hbare

namespace LexingLemmas

/-- The shape that a token has, whatever follows it. -/
def shapeOf (token : List Char) : Shape :=
  if token = ['~', '@'] then .splice
  else if token.head? = some '"' then .string
  else if token.head?.any isSingle then .single
  else .bare

theorem shape_eq {shape : Shape} {token rest : List Char} (h : Lexeme shape token rest) :
    shape = shapeOf token := by
  cases h with
  | splice => rfl
  | @single c _ hc _ =>
    have hquote : c ≠ '"' := by
      rintro rfl
      exact absurd hc (by decide)
    simp [shapeOf, hquote, hc]
  | closed _ => simp [shapeOf]
  | broken _ _ => simp [shapeOf]
  | @bare c _ _ hc _ _ =>
    obtain ⟨_, hquote, hsingle⟩ := startsBare_iff.mp hc
    have htilde : c ≠ '~' := by
      rintro rfl
      exact absurd hsingle (by decide)
    simp [shapeOf, htilde, hquote, hsingle]

end LexingLemmas

/-- The texts of bare tokens. -/
def isBareText : List Char → Bool
  | [] => false
  | c :: cs => startsBare c && cs.all isBare

theorem ends_nil : Ends [] := nofun

theorem lexeme_of_isBareText {text rest : List Char} (h : isBareText text = true)
    (hrest : Ends rest) : Lexeme .bare text rest := by
  cases text with
  | nil => cases h
  | cons c cs =>
    simp only [isBareText, isBare, Bool.and_eq_true, List.all_eq_true, Bool.not_eq_true'] at h
    exact .bare h.1 h.2 hrest

/-- The shapes exclude each other. -/
theorem Lexeme.shape_unique {shape other : Shape} {token rest : List Char}
    (h : Lexeme shape token rest) (hother : Lexeme other token rest) : other = shape := by
  rw [shape_eq h, shape_eq hother]

/-! ## All tokens of a text -/

theorem ofChars_of_next?_eq_none {text : List Char} (h : next? text = none) :
    ofChars text = [] := by
  rw [ofChars]
  split
  · rfl
  · next hsome => cases h.symm.trans hsome

theorem ofChars_of_next?_eq_some {text rest : List Char} {token : Token}
    (h : next? text = some (token, rest)) : ofChars text = token :: ofChars rest := by
  rw [ofChars]
  split
  · next hnone => cases h.symm.trans hnone
  · next hsome =>
    cases h.symm.trans hsome
    rfl

/-- A gap holds no tokens. -/
theorem Gap.ofChars_append {gap rest : List Char} (h : Gap gap rest) :
    ofChars (gap ++ rest) = ofChars rest := by
  have hnext : next? (gap ++ rest) = next? rest := by
    simp only [next?, h.skipGap_append]
  cases hrest : next? rest with
  | none =>
    rw [hrest] at hnext
    rw [ofChars_of_next?_eq_none hnext, ofChars_of_next?_eq_none hrest]
  | some first =>
    obtain ⟨token, others⟩ := first
    rw [hrest] at hnext
    rw [ofChars_of_next?_eq_some hnext, ofChars_of_next?_eq_some hrest]

/-- A token in front of what may follow it is the first token, and what follows it is left. -/
theorem Lexeme.next?_append {shape : Shape} {token rest : List Char}
    (h : Lexeme shape token rest) :
    next? (token ++ rest) = some (String.ofList token, rest) := by
  obtain ⟨c, cs, rfl, hc⟩ := h.exists_cons
  simp only [next?, List.cons_append, skipGap_of_startsGap hc, h.splitToken_eq]

/-- The tokens after the first one are those of what follows it. -/
theorem Lexeme.ofChars_append {shape : Shape} {token rest : List Char}
    (h : Lexeme shape token rest) :
    ofChars (token ++ rest) = String.ofList token :: ofChars rest :=
  ofChars_of_next?_eq_some h.next?_append

theorem ofChars_nil : ofChars [] = [] :=
  ofChars_of_next?_eq_none rfl

/-- The tokens of a text partition it. -/
theorem lexed_ofChars (text : List Char) : Lexed text (ofChars text) := by
  -- Every step takes a token off, so what is left gets shorter.
  induction hlength : text.length using Nat.strongRecOn generalizing text with
  | ind length ih =>
    obtain ⟨gap, htext, hgap⟩ := exists_gap text
    cases hskip : skipGap text with
    | nil =>
      rw [hskip] at htext hgap
      rw [htext, hgap.ofChars_append, ofChars_nil, List.append_nil]
      exact .done hgap
    | cons c cs =>
      obtain ⟨shape, token, rest, hsplit, htoken⟩ :=
        exists_lexeme cs (startsGap_of_skipGap text hskip)
      rw [hskip, hsplit] at htext hgap
      have hshorter : rest.length < length := by
        have hpos := List.length_pos_iff.mpr htoken.ne_nil
        have htotal := congrArg List.length htext
        simp only [List.length_append] at htotal
        omega
      rw [htext, hgap.ofChars_append, htoken.ofChars_append]
      exact .token hgap htoken (fun _ => htoken.shape_unique) (ih _ hshorter rest rfl)

/-- A text is partitioned in one way only. -/
theorem Lexed.ofChars_eq {text : List Char} {tokens : List Token} (h : Lexed text tokens) :
    ofChars text = tokens := by
  induction h with
  | @done gap hgap => rw [← List.append_nil gap, hgap.ofChars_append, ofChars_nil]
  | token hgap htoken _ _ ih => rw [hgap.ofChars_append, htoken.ofChars_append, ih]

/-- Every token of a text is a lexeme in front of what follows it. -/
theorem Lexed.exists_lexeme {text : List Char} {tokens : List Token} (h : Lexed text tokens)
    {token : Token} (hmem : token ∈ tokens) : ∃ shape rest, Lexeme shape token.toList rest := by
  induction h with
  | done _ => exact absurd hmem List.not_mem_nil
  | @token _ first rest shape _ _ hfirst _ _ ih =>
    rcases List.mem_cons.mp hmem with rfl | hmem
    · exact ⟨shape, rest, by simpa using hfirst⟩
    · exact ih hmem

end Token

open Token

/-- The tokens of a source text are the only sequence of tokens that partitions it, with gaps
between the tokens and each token of one shape, and no token is empty. -/
theorem tokenize_eq_iff_lexed (source : String) (tokens : List Token) :
    (tokenize source = tokens ↔ Lexed source.toList tokens) ∧
      ∀ token ∈ tokenize source, token ≠ "" := by
  refine ⟨⟨?_, Lexed.ofChars_eq⟩, ?_⟩
  · rintro rfl
    exact lexed_ofChars source.toList
  · rintro token hmem rfl
    obtain ⟨_, _, htoken⟩ := (lexed_ofChars source.toList).exists_lexeme hmem
    exact htoken.ne_nil rfl

end MiniLisp
