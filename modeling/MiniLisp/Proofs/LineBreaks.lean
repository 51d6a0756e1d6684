import MiniLisp.Proofs.StringTokens

/-!
# Tokens and line breaks

A line feed ends gaps, comments and bare tokens, and it goes on with a string that is not closed.
So the tokens of two texts with a line feed between them are the tokens of the one and then those of
the other, unless the first text stops inside a string.

A string that is not closed does not have to be the last token: before a backslash that stands at
the end of a line or of the text it breaks off, and the backslash starts another token. Such a
string is the same in front of a line feed. Only the end of the text makes a difference.

Results:
1. `Lexeme.line`: which tokens a line feed behind them leaves as they are.
2. `Lexed.ofChars_line_iff`: the tokens of a text and of a line behind it.
3. `tokenize_line_iff`: the law for source texts.
-/

namespace MiniLisp

namespace Token

/-- The token is no string, or it is a string that has a text. -/
def Closed (token : Token) : Prop :=
  token.toList.head? = some '"' → ∃ text, unquote token = .ok text

theorem closed_of_head? {token : Token} (h : token.toList.head? ≠ some '"') : Closed token :=
  fun hquote => absurd hquote h

theorem Units.not_closed {body : List Char} (h : Units body) :
    ¬ Closed (String.ofList ('"' :: body)) := by
  intro hclosed
  have hdecode : Text.Quoted.decode ('"' :: body) = none := h.decodeBody_eq_none
  obtain ⟨text, htext⟩ := hclosed (by simp)
  simp [unquote, hdecode] at htext

/-- Every token is closed or a string that breaks off. -/
theorem Lexeme.closed_or_breaksOff {shape : Shape} {token rest : List Char}
    (h : Lexeme shape token rest) :
    Closed (String.ofList token) ∨
      ∃ body, token = '"' :: body ∧ Units body ∧ BreaksOff rest := by
  cases h with
  | splice => exact .inl (closed_of_head? (by decide))
  | single hc _ =>
    refine .inl (closed_of_head? ?_)
    rw [String.toList_ofList, List.head?_cons]
    rintro ⟨⟩
    exact absurd hc (by decide)
  | @closed body _ hbody =>
    obtain ⟨text, htext⟩ := Text.Quoted.exists_spells_of_units hbody
    refine .inl fun _ => ⟨String.ofList text, unquote_eq_ok_iff.mpr ⟨body, ?_, ?_⟩⟩
    · rwa [String.toList_ofList]
    · rw [String.toList_ofList]
  | broken hbody hrest => exact .inr ⟨_, rfl, hbody, hrest⟩
  | bare hc _ _ =>
    refine .inl (closed_of_head? ?_)
    rw [String.toList_ofList, List.head?_cons]
    rintro ⟨⟩
    exact absurd hc (by decide)

/-! ## What a line feed leaves as it is -/

theorem Gap.line {gap rest : List Char} (h : Gap gap rest) (more : List Char) :
    Gap gap (rest ++ '\n' :: more) := by
  induction h with
  | nil => exact .nil
  | blank hc _ ih => exact .blank hc ih
  | @comment body cs rest hbody hend _ ih =>
    refine .comment hbody (.inr ?_) ih
    -- A comment that the end of the text ended is ended by the line feed.
    rw [← List.append_assoc]
    rcases hend with hend | hend
    · rw [hend]
      rfl
    · rw [List.head?_append, hend]
      rfl

theorem Ends.line {rest : List Char} (h : Ends rest) (more : List Char) :
    Ends (rest ++ '\n' :: more) := by
  intro c hc
  cases rest with
  | nil =>
    cases hc
    decide
  | cons d ds => exact h c hc

theorem BreaksOff.line {rest : List Char} (h : BreaksOff rest) (hrest : rest ≠ [])
    (more : List Char) : BreaksOff (rest ++ '\n' :: more) := by
  rcases h with rfl | rfl | ⟨others, rfl⟩
  · exact absurd rfl hrest
  · exact .inr (.inr ⟨more, rfl⟩)
  · exact .inr (.inr ⟨others ++ '\n' :: more, rfl⟩)

/-- A token that is closed, or behind which the text goes on, is a token in front of a line feed
too. -/
theorem Lexeme.line {shape : Shape} {token rest : List Char} (h : Lexeme shape token rest)
    (hline : rest ≠ [] ∨ Closed (String.ofList token)) (more : List Char) :
    Lexeme shape token (rest ++ '\n' :: more) := by
  cases h with
  | splice => exact .splice
  | single hc htilde =>
    refine .single hc fun heq => ?_
    cases rest with
    | nil => rintro ⟨⟩
    | cons d ds => exact htilde heq
  | closed hbody => exact .closed hbody
  | @broken body _ hbody hrest =>
    rcases hline with hline | hclosed
    · exact .broken hbody (hrest.line hline more)
    · exact absurd hclosed hbody.not_closed
  | bare hc hcs hrest => exact .bare hc hcs (hrest.line more)

/-! ## Strings that run on -/

theorem ofChars_ne_nil {c : Char} (cs : List Char) (hc : startsGap c = false) :
    ofChars (c :: cs) ≠ [] := by
  obtain ⟨shape, token, rest, htext, htoken⟩ := exists_lexeme cs hc
  rw [htext, htoken.ofChars_append]
  exact List.cons_ne_nil _ _

/-- A string that breaks off as the last token does so because the text is over. -/
theorem BreaksOff.eq_nil {rest : List Char} (h : BreaksOff rest) (hlast : ofChars rest = []) :
    rest = [] := by
  rcases h with rfl | rfl | ⟨others, rfl⟩
  · rfl
  · exact absurd hlast (ofChars_ne_nil _ (by decide))
  · exact absurd hlast (ofChars_ne_nil _ (by decide))

theorem ofChars_string (cs : List Char) :
    ofChars ('"' :: cs) =
      String.ofList ('"' :: (splitString cs).1) :: ofChars (splitString cs).2 := by
  apply ofChars_of_next?_eq_some
  have hskip : skipGap ('"' :: cs) = '"' :: cs := LexingLemmas.skipGap_of_startsGap (by decide)
  have hsingle : isSingle '"' = false := by decide
  simp [next?, hskip, splitToken, hsingle]

/-- A string that the text leaves open takes the line feed in. -/
theorem Units.head?_ofChars_line {body : List Char} (h : Units body) (more : List Char) :
    (ofChars ('"' :: (body ++ '\n' :: more))).head? ≠ some (String.ofList ('"' :: body)) := by
  have hline : splitString ('\n' :: more) = ('\n' :: (splitString more).1, (splitString more).2) :=
    LexingLemmas.splitString_plain (by decide) (by decide)
  rw [ofChars_string, h.splitString_append, hline]
  intro heq
  have hlonger := String.ofList_injective (Option.some.inj heq)
  simp at hlonger

/-! ## A text and a line behind it -/

/-- A text shares no token with the line behind it exactly if its last token is closed. -/
theorem Lexed.ofChars_line_iff {text : List Char} {tokens : List Token} (h : Lexed text tokens)
    (more : List Char) :
    ofChars (text ++ '\n' :: more) = tokens ++ ofChars more ↔
      ∀ token, tokens.getLast? = some token → Closed token := by
  induction h with
  | @done gap hgap =>
    have hline : Gap ['\n'] more := .blank (.inl (by decide)) .nil
    have htokens : ofChars (gap ++ '\n' :: more) = ofChars more := by
      rw [← List.nil_append ('\n' :: more), (hgap.line more).ofChars_append]
      exact hline.ofChars_append
    simp [htokens]
  | @token gap token rest shape tokens hgap htoken _ hrest ih =>
    have hgap : ofChars (gap ++ (token ++ rest) ++ '\n' :: more) =
        ofChars (token ++ (rest ++ '\n' :: more)) := by
      rw [List.append_assoc, (hgap.line more).ofChars_append, List.append_assoc]
    rw [hgap]
    -- Where the token stays as it is, the question is passed on to the tokens behind it.
    have hpass : rest ≠ [] ∨ Closed (String.ofList token) →
        (ofChars (token ++ (rest ++ '\n' :: more)) =
            String.ofList token :: tokens ++ ofChars more ↔
          ∀ other, tokens.getLast? = some other → Closed other) := by
      intro hline
      rw [(htoken.line hline more).ofChars_append, List.cons_append, List.cons.injEq, ← ih]
      simp
    cases tokens with
    | cons next others =>
      have hne : rest ≠ [] := by
        rintro rfl
        cases hrest.ofChars_eq.symm.trans ofChars_nil
      rw [hpass (.inl hne), List.getLast?_cons_cons]
    | nil =>
      rcases htoken.closed_or_breaksOff with hclosed | ⟨body, rfl, hbody, hbreaks⟩
      · rw [hpass (.inr hclosed)]
        simpa using hclosed
      · obtain rfl := hbreaks.eq_nil hrest.ofChars_eq
        constructor
        · intro htokens
          have hfirst := congrArg List.head? htokens
          exact absurd hfirst (hbody.head?_ofChars_line more)
        · intro hclosed
          exact absurd (hclosed _ rfl) hbody.not_closed

end Token

open Token

/-- The tokens of two texts with a line feed between them are the tokens of the one and then those
of the other exactly if the first text has no tokens, or its last token is no string or a string
that has a text. -/
theorem tokenize_line_iff (first second : String) :
    tokenize (first ++ "\n" ++ second) = tokenize first ++ tokenize second ↔
      tokenize first = [] ∨ ∃ token, (tokenize first).getLast? = some token ∧ Closed token := by
  have htext : (first ++ "\n" ++ second).toList = first.toList ++ '\n' :: second.toList := by simp
  rw [tokenize, htext, tokenize, tokenize,
    (lexed_ofChars first.toList).ofChars_line_iff second.toList]
  cases hlast : (ofChars first.toList).getLast? with
  | none => simp [List.getLast?_eq_none_iff.mp hlast]
  | some token =>
    have hne : ofChars first.toList ≠ [] := by
      intro hnil
      rw [hnil] at hlast
      cases hlast
    simp [hne]

end MiniLisp
