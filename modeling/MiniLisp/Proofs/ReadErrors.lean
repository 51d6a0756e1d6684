import MiniLisp.Proofs.Lookahead

/-!
# Where errors of reading come from

A form that cannot be read has one of its own errors, or the error of a form inside of it. Its own
errors are about the tokens that were just taken off: they are not closed, or they make up no string
or no map, or metadata was to go to a value that takes none. Every form inside comes after a token
of the form around it, so an error from far inside comes from far behind in the tokens too. And the
tokens behind are tokens of the form around, so that a string which an error quotes is one of those
that the reader was given.

1. `run_items_eq_error`, `run_collection_eq_error`, `run_atom_eq_error`: one level of reading.
2. `run_form_eq_error`: the error of a form is its own, or it comes from one level further inside.
3. `limit_eq_of_run_form`, `add_length_le_of_run_form`: a form is refused with the limit that it was
   read under, and each level down to it has cost a token.
4. `metadata_eq_of_run_form`, `metadata_eq_of_read`: metadata is refused for `nil` and `unit` only.
5. `mem_of_run_form`, `mem_tokenize_of_read`: a string that is quoted is one of the tokens.
-/

namespace MiniLisp

variable {π : Type}

/-! ## Definitions -/

/-- `Own tokens e`: the error `e` is one that a form has by itself, if it is read from `tokens`. -/
inductive ReadError.Own (tokens : List Token) : ReadError → Prop
  | unexpectedEnd : Own tokens .unexpectedEnd
  | unterminated (bracket : Bracket) : Own tokens (.unterminated bracket)
  | malformedString {token : Token} : token ∈ tokens → Own tokens (.malformedString token)
  | invalidMap (cause : MapError) : Own tokens (.invalidMap cause)
  | nil : Own tokens (.metadata (.unsupported .nil))
  | unit : Own tokens (.metadata (.unsupported .unit))

/-- Metadata is refused for `nil` and `unit` only. -/
theorem ReadError.Own.metadata_eq {tokens : List Token} {cause : MetadataError}
    (h : Own tokens (.metadata cause)) :
    cause = .unsupported .nil ∨ cause = .unsupported .unit := by
  cases h with
  | nil => exact .inl rfl
  | unit => exact .inr rfl

/-- A value without metadata refuses metadata only if it has no place for any. -/
theorem Value.own_of_withMetadata (tokens : List Token) {value metadata : Value π}
    {cause : MetadataError} (hplain : value.metadata? = none)
    (h : value.withMetadata metadata = .error cause) :
    ReadError.Own tokens (.metadata cause) := by
  rcases withMetadata_eq_error_iff.mp h with ⟨hsome, _⟩ | ⟨rfl | rfl, rfl⟩
  · rw [hplain] at hsome
    cases hsome
  · exact .nil
  · exact .unit

namespace Reader

/-- `Inherits item tokens e rest`: the error `e` is that of an item, read at some place in
`tokens`. -/
def Inherits (item : ReadM (Value π)) (tokens : List Token) (e : ReadError)
    (rest : List Token) : Prop :=
  ∃ inner, inner <:+ tokens ∧ item.run inner = .error e rest

/-! ## One level -/

section

variable {item : ReadM (Value π)}
  (hsuffix : ∀ {tokens rest : List Token} {value : Value π},
    item.run tokens = .ok value rest → rest <:+ tokens)

/-- Two steps in a row fail where the first one fails, or where the second one does. -/
theorem run_bind_eq_error {α β : Type} {first : ReadM α} {next : α → ReadM β}
    {tokens rest : List Token} {e : ReadError} (h : (first >>= next).run tokens = .error e rest) :
    first.run tokens = .error e rest ∨
      ∃ a middle, first.run tokens = .ok a middle ∧ (next a).run middle = .error e rest := by
  rw [EStateM.run_bind] at h
  cases hfirst : first.run tokens with
  | ok a middle =>
    rw [hfirst] at h
    exact .inr ⟨a, middle, rfl, h⟩
  | error e' middle =>
    rw [hfirst] at h
    cases h
    exact .inl rfl

theorem run_orFail_eq_error {ε α : Type} {cause : ε → ReadError} {result : Except ε α}
    {tokens rest : List Token} {e : ReadError}
    (h : (orFail cause result).run tokens = .error e rest) :
    ∃ e', result = .error e' ∧ e = cause e' := by
  cases result with
  | ok value => cases h
  | error e' =>
    cases h
    exact ⟨e', rfl, rfl⟩

include hsuffix

theorem run_items_eq_error {bracket : Bracket} {fuel : Nat} {tokens rest : List Token}
    {e : ReadError} (h : (items item bracket fuel).run tokens = .error e rest) :
    e = .unterminated bracket ∨ Inherits item tokens e rest := by
  induction fuel generalizing tokens with
  | zero =>
    cases h
    exact .inl rfl
  | succ fuel ih =>
    cases tokens with
    | nil =>
      cases h
      exact .inl rfl
    | cons token tokens =>
      by_cases hcloser : token = bracket.closer
      · subst hcloser
        rw [run_items_closer] at h
        cases h
      · rw [run_items_cons hcloser] at h
        rcases run_bind_eq_error h with hfirst | ⟨first, middle, hfirst, h⟩
        · exact .inr ⟨_, List.suffix_refl _, hfirst⟩
        · rcases run_bind_eq_error h with hothers | ⟨others, _, _, h⟩
          · rcases ih hothers with hopen | ⟨inner, hinner, herror⟩
            · exact .inl hopen
            · exact .inr ⟨inner, hinner.trans (hsuffix hfirst), herror⟩
          · cases h

theorem run_collection_eq_error {bracket : Bracket} {token : Token} {tokens rest : List Token}
    {e : ReadError} (h : (collection item bracket).run (token :: tokens) = .error e rest) :
    e.Own (token :: tokens) ∨ Inherits item tokens e rest := by
  have hsteps : (collection item bracket).run (token :: tokens) =
      (do orFail .invalidMap (collect bracket (← items item bracket tokens.length))).run tokens :=
    rfl
  rw [hsteps] at h
  rcases run_bind_eq_error h with hitems | ⟨values, middle, _, hcollect⟩
  · rcases run_items_eq_error hsuffix hitems with rfl | hinner
    · exact .inl (.unterminated bracket)
    · exact .inr hinner
  · obtain ⟨cause, _, rfl⟩ := run_orFail_eq_error hcollect
    exact .inl (.invalidMap cause)

variable (hplain : ∀ {tokens rest : List Token} {value : Value π},
    item.run tokens = .ok value rest → value.metadata? = none)

include hplain

/-- What was just read has no metadata yet, so only its kind can stand in the way. -/
theorem run_annotated_eq_error (token : Token) {tokens rest : List Token} {e : ReadError}
    (h : (annotated item).run tokens = .error e rest) :
    e.Own (token :: tokens) ∨ Inherits item tokens e rest := by
  rcases run_bind_eq_error h with hmetadata | ⟨metadata, middle, hmetadata, h⟩
  · exact .inr ⟨tokens, List.suffix_refl _, hmetadata⟩
  · rcases run_bind_eq_error h with hinner | ⟨inner, left, hinner, h⟩
    · exact .inr ⟨middle, hsuffix hmetadata, hinner⟩
    · rcases run_bind_eq_error h with hattach | ⟨attached, _, _, h⟩
      · obtain ⟨cause, hcause, rfl⟩ := run_orFail_eq_error hattach
        exact .inl (Value.own_of_withMetadata _ (hplain hinner) hcause)
      · cases h

theorem run_atom_eq_error {token : Token} {tokens rest : List Token} {e : ReadError}
    (h : (atom item).run (token :: tokens) = .error e rest) :
    e.Own (token :: tokens) ∨ Inherits item tokens e rest := by
  rw [run_atom_cons] at h
  cases htag : shorthandTag? token with
  | some tag =>
    cases hinner : item.run tokens with
    | ok inner middle => simp [htag, hinner] at h
    | error e' middle =>
      simp only [htag, hinner, EStateM.Result.error.injEq] at h
      obtain ⟨rfl, rfl⟩ := h
      exact .inr ⟨tokens, List.suffix_refl _, hinner⟩
  | none =>
    simp only [htag] at h
    split at h
    · exact run_annotated_eq_error hsuffix hplain token h
    · cases hliteral : (literal token : Except ReadError (Value π)) with
      | ok value => simp [hliteral] at h
      | error e' =>
        simp only [hliteral, EStateM.Result.error.injEq] at h
        obtain ⟨rfl, _⟩ := h
        rw [literal_eq_error hliteral]
        exact .inl (.malformedString List.mem_cons_self)

end

/-! ## Forms -/

theorem suffix_of_run_form {limit depth : Nat} {tokens rest : List Token} {value : Value π}
    (h : (form limit depth).run tokens = .ok value rest) : rest <:+ tokens :=
  (Grammar.form_sound limit h).suffix

theorem metadata?_of_run_form {limit depth : Nat} {tokens rest : List Token} {value : Value π}
    (h : (form limit depth).run tokens = .ok value rest) : value.metadata? = none :=
  (Grammar.form_sound limit h).metadata?_eq_none

/-- The error of a form is its own, or it comes from a form that is further inside and behind the
first token. -/
theorem run_form_eq_error {limit depth : Nat} {tokens rest : List Token} {e : ReadError}
    (h : (form limit (depth + 1) : ReadM (Value π)).run tokens = .error e rest) :
    e.Own tokens ∨ ∃ token behind, tokens = token :: behind ∧
      Inherits (form limit depth : ReadM (Value π)) behind e rest := by
  cases tokens with
  | nil =>
    cases h
    exact .inl .unexpectedEnd
  | cons token behind =>
    have hcases : e.Own (token :: behind) ∨
        Inherits (form limit depth : ReadM (Value π)) behind e rest := by
      rw [run_form_cons] at h
      split at h
      · exact run_collection_eq_error suffix_of_run_form h
      · exact run_atom_eq_error suffix_of_run_form metadata?_of_run_form h
    exact hcases.imp_right fun hinner => ⟨token, behind, rfl, hinner⟩

/-- A form is refused with the limit that it was read under. -/
theorem limit_eq_of_run_form {limit depth refused : Nat} {tokens rest : List Token}
    (h : (form limit depth : ReadM (Value π)).run tokens = .error (.tooDeeplyNested refused) rest) :
    refused = limit := by
  induction depth generalizing tokens with
  | zero =>
    cases h
    rfl
  | succ depth ih =>
    rcases run_form_eq_error h with hown | ⟨_, _, _, inner, _, hinner⟩
    · cases hown
    · exact ih hinner

/-- Each level down to a form that is refused has cost a token. -/
theorem add_length_le_of_run_form {limit depth refused : Nat} {tokens rest : List Token}
    (h : (form limit depth : ReadM (Value π)).run tokens = .error (.tooDeeplyNested refused) rest) :
    depth + rest.length ≤ tokens.length := by
  induction depth generalizing tokens with
  | zero =>
    cases h
    exact Nat.le_of_eq (Nat.zero_add _)
  | succ depth ih =>
    rcases run_form_eq_error h with hown | ⟨token, behind, rfl, inner, hsuffix, hinner⟩
    · cases hown
    · have hbelow := ih hinner
      have hlength := hsuffix.length_le
      rw [List.length_cons]
      omega

/-- A string that an error quotes is one of the tokens. -/
theorem mem_of_run_form {limit depth : Nat} {tokens rest : List Token} {token : Token}
    (h : (form limit depth : ReadM (Value π)).run tokens = .error (.malformedString token) rest) :
    token ∈ tokens := by
  induction depth generalizing tokens with
  | zero => cases h
  | succ depth ih =>
    rcases run_form_eq_error h with hown | ⟨first, behind, rfl, inner, hsuffix, hinner⟩
    · cases hown with
      | malformedString hmem => exact hmem
    · exact List.mem_cons_of_mem first (hsuffix.mem (ih hinner))

theorem metadata_eq_of_run_form {limit depth : Nat} {tokens rest : List Token}
    {cause : MetadataError}
    (h : (form limit depth : ReadM (Value π)).run tokens = .error (.metadata cause) rest) :
    cause = .unsupported .nil ∨ cause = .unsupported .unit := by
  induction depth generalizing tokens with
  | zero => cases h
  | succ depth ih =>
    rcases run_form_eq_error h with hown | ⟨_, _, _, inner, _, hinner⟩
    · exact hown.metadata_eq
    · exact ih hinner

/-- A collection fails on metadata only as forms do. -/
theorem metadata_eq_of_run_collection {limit depth : Nat} {bracket : Bracket}
    {tokens rest : List Token} {cause : MetadataError}
    (h : (collection (form limit depth : ReadM (Value π)) bracket).run tokens =
      .error (.metadata cause) rest) :
    cause = .unsupported .nil ∨ cause = .unsupported .unit := by
  cases tokens with
  | nil => cases h
  | cons token tokens =>
    rcases run_collection_eq_error suffix_of_run_form h with hown | ⟨inner, _, hinner⟩
    · exact hown.metadata_eq
    · exact metadata_eq_of_run_form hinner

theorem metadata_eq_of_run_atom {limit depth : Nat} {tokens rest : List Token}
    {cause : MetadataError}
    (h : (atom (form limit depth : ReadM (Value π))).run tokens = .error (.metadata cause) rest) :
    cause = .unsupported .nil ∨ cause = .unsupported .unit := by
  cases tokens with
  | nil => cases h
  | cons token tokens =>
    rcases run_atom_eq_error suffix_of_run_form metadata?_of_run_form h with
      hown | ⟨inner, _, hinner⟩
    · exact hown.metadata_eq
    · exact metadata_eq_of_run_form hinner

/-- All forms of some tokens fail with the error of one of them. -/
theorem run_forms_eq_error {limit fuel : Nat} {tokens rest : List Token} {e : ReadError}
    (h : (forms limit fuel : ReadM (List (Value π))).run tokens = .error e rest) :
    ∃ inner, (form limit limit : ReadM (Value π)).run inner = .error e rest := by
  induction fuel generalizing tokens with
  | zero => cases h
  | succ fuel ih =>
    cases tokens with
    | nil => cases h
    | cons token tokens =>
      rw [run_forms_cons] at h
      split at h
      · split at h
        · cases h
        · next hothers =>
          cases h
          exact ih hothers
      · next hfirst =>
        cases h
        exact ⟨_, hfirst⟩

theorem run_eq_error {α : Type} {reader : ReadM α} {tokens : List Token} {e : ReadError}
    (h : run reader tokens = .error e) : ∃ rest, EStateM.run reader tokens = .error e rest := by
  unfold run at h
  split at h
  · cases h
  · next hrun =>
    cases h
    exact ⟨_, hrun⟩

end Reader

theorem run_form_of_read_eq_error {source : String} {e : ReadError}
    (h : (read source : Except ReadError (Value π)) = .error e) :
    ∃ rest, (Reader.form maxReadDepth maxReadDepth : ReadM (Value π)).run (tokenize source) =
      .error e rest := by
  unfold read at h
  split at h
  · cases h
  · exact Reader.run_eq_error h

/-- Reading a source text fails on metadata only if the metadata was to go to `nil` or `unit`. -/
theorem metadata_eq_of_read {source : String} {cause : MetadataError}
    (h : (read source : Except ReadError (Value π)) = .error (.metadata cause) ∨
      (readAll source : Except ReadError (List (Value π))) = .error (.metadata cause)) :
    cause = .unsupported .nil ∨ cause = .unsupported .unit := by
  rcases h with h | h
  · obtain ⟨_, hrun⟩ := run_form_of_read_eq_error h
    exact Reader.metadata_eq_of_run_form hrun
  · obtain ⟨_, hrun⟩ := Reader.run_eq_error h
    obtain ⟨_, hform⟩ := Reader.run_forms_eq_error hrun
    exact Reader.metadata_eq_of_run_form hform

/-- A string that the reader quotes is a token of the source. -/
theorem mem_tokenize_of_read {source : String} {token : Token}
    (h : (read source : Except ReadError (Value π)) = .error (.malformedString token)) :
    token ∈ tokenize source := by
  obtain ⟨_, hrun⟩ := run_form_of_read_eq_error h
  exact Reader.mem_of_run_form hrun

end MiniLisp
