import MiniLisp.Proofs.Grammar

/-!
# Reading does not look ahead

What the reader makes of some tokens does not depend on the tokens behind them, unless it asks for
more. It asks for more in two places only: where a form has to start, and where a collection has to
go on. The errors raised there are the incomplete ones, and they are raised at the end of the
tokens. All other errors are about tokens that were taken off already, so further tokens come too
late to change them.

This is a property of two runs, one on some tokens and one on the same tokens with more behind.
`Extends` relates how the two end, and each reader is shown to respect it from the readers that it
is made of.

Results:
1. `Extends.bind`: two steps in a row, if each of them respects the relation.
2. `extends_items`: the items of a collection. The two runs differ in their fuel too.
3. `steady_form`: reading a form, at every depth.
4. `form_stops`: the result and the position of a fresh reader.
-/

namespace MiniLisp

variable {π : Type}

/-! ## Definitions -/

/-- The errors that say that tokens are missing. -/
inductive ReadError.Incomplete : ReadError → Prop
  | unexpectedEnd : Incomplete .unexpectedEnd
  | unterminated (bracket : Bracket) : Incomplete (.unterminated bracket)

namespace Reader

variable {α β : Type}

/-- `Extends more tokens result longer`: if a run on `tokens` ends with `result`, the run on
`tokens` followed by `more` ends with `longer`.

* `ok`, `error`: the two end alike, and the second leaves `more` in addition. What is left is the
  end of `tokens`.
* `incomplete`: the first run has taken all of `tokens` off and misses some. Then nothing is said
  about the second one. -/
inductive Extends (more : List Token) :
    List Token → EStateM.Result ReadError (List Token) α →
      EStateM.Result ReadError (List Token) α → Prop
  | ok {tokens rest : List Token} {value : α} :
      rest <:+ tokens → Extends more tokens (.ok value rest) (.ok value (rest ++ more))
  | error {tokens rest : List Token} {e : ReadError} :
      rest <:+ tokens → ¬ e.Incomplete →
      Extends more tokens (.error e rest) (.error e (rest ++ more))
  | incomplete {tokens : List Token} {e : ReadError}
      {longer : EStateM.Result ReadError (List Token) α} :
      e.Incomplete → Extends more tokens (.error e []) longer

/-- More tokens behind the others have no influence on the reader, unless it fails for want of
them. -/
def Steady (reader : ReadM α) : Prop :=
  ∀ tokens more, Extends more tokens (reader.run tokens) (reader.run (tokens ++ more))

/-- The end of a run that leaves the tokens `rest`. -/
def leaves (rest : List Token) : Except ReadError α → EStateM.Result ReadError (List Token) α
  | .ok value => .ok value rest
  | .error e => .error e rest

/-- `Stops reader tokens result position`: on `tokens` the reader comes to `result`, and it leaves
the tokens from `position` on. -/
def Stops (reader : ReadM α) (tokens : List Token) (result : Except ReadError α)
    (position : Nat) : Prop :=
  position ≤ tokens.length ∧ reader.run tokens = leaves (tokens.drop position) result

/-! ## Steps in a row -/

/-- A run that starts further back has the same end. -/
theorem Extends.of_suffix {more tokens rest : List Token}
    {result longer : EStateM.Result ReadError (List Token) α}
    (h : Extends more rest result longer) (hrest : rest <:+ tokens) :
    Extends more tokens result longer := by
  cases h with
  | ok hleft => exact .ok (hleft.trans hrest)
  | error hleft hcomplete => exact .error (hleft.trans hrest) hcomplete
  | incomplete he => exact .incomplete he

/-- Two steps in a row. The steps of the two runs need not be the same. -/
theorem Extends.bind {first first' : ReadM α} {next next' : α → ReadM β} {tokens more : List Token}
    (hfirst : Extends more tokens (first.run tokens) (first'.run (tokens ++ more)))
    (hnext : ∀ a rest, first.run tokens = .ok a rest →
      Extends more rest ((next a).run rest) ((next' a).run (rest ++ more))) :
    Extends more tokens ((first >>= next).run tokens)
      ((first' >>= next').run (tokens ++ more)) := by
  rw [EStateM.run_bind, EStateM.run_bind]
  generalize hresult : first.run tokens = result at hfirst hnext
  generalize first'.run (tokens ++ more) = longer at hfirst
  cases hfirst with
  | ok hrest => exact (hnext _ _ rfl).of_suffix hrest
  | error hrest hcomplete => exact .error hrest hcomplete
  | incomplete he => exact .incomplete he

theorem Steady.bind {first : ReadM α} {next : α → ReadM β} (hfirst : Steady first)
    (hnext : ∀ a, Steady (next a)) : Steady (first >>= next) :=
  fun tokens more => (hfirst tokens more).bind fun a rest _ => hnext a rest more

theorem steady_pure (value : α) : Steady (pure value) :=
  fun _ _ => .ok List.suffix_rfl

theorem steady_throw {e : ReadError} (h : ¬ e.Incomplete) : Steady (throw e : ReadM α) :=
  fun _ _ => .error List.suffix_rfl h

theorem steady_orFail {ε : Type} {cause : ε → ReadError} {result : Except ε α}
    (h : ∀ e, result = .error e → ¬ (cause e).Incomplete) : Steady (orFail cause result) := by
  cases result with
  | ok value => exact steady_pure value
  | error e => exact steady_throw (h e rfl)

/-! ## Tokens -/

theorem steady_peek : Steady peek := by
  intro tokens more
  cases tokens with
  | nil => exact .incomplete .unexpectedEnd
  | cons token rest => exact .ok List.suffix_rfl

theorem steady_next : Steady next := by
  intro tokens more
  cases tokens with
  | nil => exact .incomplete .unexpectedEnd
  | cons token rest => exact .ok (List.suffix_cons token rest)

/-- A literal fails only for what the token itself says. -/
theorem literal_eq_error {token : Token} {e : ReadError}
    (h : (literal token : Except ReadError (Value π)) = .error e) : e = .malformedString token := by
  unfold literal at h
  split at h
  · cases h
  · unfold unquote at h
    split at h <;> cases h
    rfl
  · cases h

/-! ## Forms, given the reader for the forms inside -/

section

variable {item : ReadM (Value π)} (hitem : Steady item)

include hitem

theorem steady_annotated : Steady (annotated item) := by
  refine hitem.bind fun metadata => hitem.bind fun form => ?_
  refine (steady_orFail ?_).bind fun attached => steady_pure _
  rintro e _ ⟨⟩

theorem steady_atom : Steady (atom item) := by
  refine steady_next.bind fun token => ?_
  cases shorthandTag? token with
  | some tag => exact hitem.bind fun form => steady_pure _
  | none =>
    show Steady (if token = "^" then annotated item else orFail id (literal token))
    split
    · exact steady_annotated hitem
    · refine steady_orFail ?_
      intro e he
      rw [literal_eq_error he]
      rintro ⟨⟩

variable (hshorter : ∀ {tokens rest : List Token} {value : Value π},
  item.run tokens = .ok value rest → rest.length < tokens.length)

include hshorter

/-- The run on more tokens has more fuel, and neither run comes to the end of its fuel. -/
theorem extends_items {bracket : Bracket} {fuel fuel' : Nat} {tokens more : List Token}
    (hfuel : tokens.length ≤ fuel) (hfuel' : tokens.length + more.length ≤ fuel') :
    Extends more tokens ((items item bracket fuel).run tokens)
      ((items item bracket fuel').run (tokens ++ more)) := by
  induction fuel generalizing fuel' tokens with
  | zero =>
    obtain rfl := List.eq_nil_of_length_eq_zero (Nat.le_zero.mp hfuel)
    exact .incomplete (.unterminated bracket)
  | succ fuel ih =>
    cases tokens with
    | nil => exact .incomplete (.unterminated bracket)
    | cons token tokens =>
      simp only [List.length_cons] at hfuel hfuel'
      obtain ⟨fuel', rfl⟩ : ∃ n, fuel' = n + 1 := ⟨fuel' - 1, by omega⟩
      by_cases hcloser : token = bracket.closer
      · subst hcloser
        rw [List.cons_append, run_items_closer, run_items_closer]
        exact .ok (List.suffix_cons _ _)
      · rw [List.cons_append, run_items_cons hcloser, run_items_cons hcloser, ← List.cons_append]
        refine (hitem (token :: tokens) more).bind fun first middle hfirst => ?_
        -- The first item has taken a token off, so the fuel is enough for the others.
        have hmiddle := hshorter hfirst
        rw [List.length_cons] at hmiddle
        exact (ih (by omega) (by omega)).bind fun others rest _ => steady_pure _ rest more

theorem steady_collection (bracket : Bracket) : Steady (collection item bracket) := by
  intro tokens more
  cases tokens with
  | nil => exact .incomplete .unexpectedEnd
  | cons token tokens =>
    have hitems : Extends more tokens ((items item bracket tokens.length).run tokens)
        ((items item bracket (tokens ++ more).length).run (tokens ++ more)) :=
      extends_items hitem hshorter (Nat.le_refl _) (Nat.le_of_eq List.length_append.symm)
    -- The token that opens the collection is behind both runs.
    refine Extends.of_suffix (hitems.bind fun values rest _ => ?_) (List.suffix_cons token tokens)
    refine steady_orFail ?_ rest more
    rintro e _ ⟨⟩

end

/-! ## Forms -/

/-- A form takes off at least one token. -/
theorem length_lt_of_run_form {limit depth : Nat} {tokens rest : List Token} {value : Value π}
    (h : (form limit depth).run tokens = .ok value rest) : rest.length < tokens.length := by
  obtain ⟨used, hused, rfl⟩ := (Grammar.form_sound limit h).consumes
  rw [List.length_append]
  exact Nat.lt_add_of_pos_left (List.length_pos_iff.mpr hused)

theorem steady_form (limit depth : Nat) : Steady (form limit depth : ReadM (Value π)) := by
  induction depth with
  | zero =>
    refine steady_throw ?_
    rintro ⟨⟩
  | succ depth ih =>
    refine steady_peek.bind fun token => ?_
    cases Bracket.ofOpener? token with
    | some bracket => exact steady_collection ih length_lt_of_run_form bracket
    | none => exact steady_atom ih

/-! ## Where the reader stops -/

/-- What was read with success is read in front of more tokens too. -/
theorem Steady.run_ok {reader : ReadM α} (h : Steady reader) {tokens rest : List Token} {value : α}
    (hrun : reader.run tokens = .ok value rest) :
    rest <:+ tokens ∧ ∀ more, reader.run (tokens ++ more) = .ok value (rest ++ more) := by
  have hextends : ∀ more, rest <:+ tokens ∧
      reader.run (tokens ++ more) = .ok value (rest ++ more) := by
    intro more
    have hmore := h tokens more
    rw [hrun] at hmore
    generalize reader.run (tokens ++ more) = longer at hmore ⊢
    cases hmore with
    | ok hrest => exact ⟨hrest, rfl⟩
  exact ⟨(hextends []).1, fun more => (hextends more).2⟩

/-- A failure is at the end of the tokens and for want of more, or it remains whatever follows. -/
theorem Steady.run_error {reader : ReadM α} (h : Steady reader) {tokens rest : List Token}
    {e : ReadError} (hrun : reader.run tokens = .error e rest) :
    (e.Incomplete ∧ rest = []) ∨
      (¬ e.Incomplete ∧ rest <:+ tokens ∧
        ∀ more, reader.run (tokens ++ more) = .error e (rest ++ more)) := by
  have hextends : ∀ more, (e.Incomplete ∧ rest = []) ∨
      (¬ e.Incomplete ∧ rest <:+ tokens ∧
        reader.run (tokens ++ more) = .error e (rest ++ more)) := by
    intro more
    have hmore := h tokens more
    rw [hrun] at hmore
    generalize reader.run (tokens ++ more) = longer at hmore ⊢
    cases hmore with
    | error hrest hcomplete => exact .inr ⟨hcomplete, hrest, rfl⟩
    | incomplete he => exact .inl ⟨he, rfl⟩
  rcases hextends [] with hincomplete | ⟨hcomplete, hrest, _⟩
  · exact .inl hincomplete
  · refine .inr ⟨hcomplete, hrest, fun more => ?_⟩
    rcases hextends more with ⟨he, _⟩ | ⟨_, _, hmore⟩
    · exact absurd he hcomplete
    · exact hmore

theorem stops_of_suffix {reader : ReadM α} {tokens rest : List Token} {result : Except ReadError α}
    (hrest : rest <:+ tokens) (hrun : reader.run tokens = leaves rest result) :
    Stops reader tokens result (tokens.length - rest.length) := by
  refine ⟨Nat.sub_le _ _, ?_⟩
  rw [hrun, ← List.suffix_iff_eq_drop.mp hrest]

/-- A position counts from the front, so tokens behind do not change it. -/
theorem stops_append_of_suffix {reader : ReadM α} {tokens rest more : List Token}
    {result : Except ReadError α} (hrest : rest <:+ tokens)
    (hrun : reader.run (tokens ++ more) = leaves (rest ++ more) result) :
    Stops reader (tokens ++ more) result (tokens.length - rest.length) := by
  obtain ⟨used, rfl⟩ := hrest
  have hlonger : rest ++ more <:+ used ++ rest ++ more := ⟨used, (List.append_assoc ..).symm⟩
  have hstops := stops_of_suffix hlonger hrun
  simp only [List.length_append, Nat.add_assoc, Nat.add_sub_cancel] at hstops ⊢
  exact hstops

/-- A fresh reader stops somewhere in its tokens. If it misses no tokens there, more tokens behind
change neither what it comes to nor where it stops. If it misses some, it has taken all of its
tokens off. -/
theorem form_stops (limit : Nat) (tokens : List Token) :
    ∃ (result : Except ReadError (Value π)) (position : Nat),
      Stops (form limit limit) tokens result position ∧
      ((∀ e, result = .error e → ¬ e.Incomplete) →
        ∀ more, Stops (form limit limit) (tokens ++ more) result position) ∧
      ∀ e, result = .error e → e.Incomplete → position = tokens.length := by
  have hsteady : Steady (form limit limit : ReadM (Value π)) := steady_form limit limit
  cases hrun : (form limit limit : ReadM (Value π)).run tokens with
  | ok value rest =>
    obtain ⟨hrest, hmore⟩ := hsteady.run_ok hrun
    refine ⟨.ok value, _, stops_of_suffix hrest hrun, fun _ more => ?_, ?_⟩
    · exact stops_append_of_suffix hrest (hmore more)
    · rintro e ⟨⟩
  | error e rest =>
    rcases hsteady.run_error hrun with ⟨he, rfl⟩ | ⟨hcomplete, hrest, hmore⟩
    · refine ⟨.error e, _, stops_of_suffix List.nil_suffix hrun, ?_, fun _ _ _ => Nat.sub_zero _⟩
      intro hcomplete
      exact absurd he (hcomplete e rfl)
    · refine ⟨.error e, _, stops_of_suffix hrest hrun, fun _ more => ?_, ?_⟩
      · exact stops_append_of_suffix hrest (hmore more)
      · rintro _ ⟨⟩ he
        exact absurd he hcomplete

end Reader

end MiniLisp
