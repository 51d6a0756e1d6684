import MiniLisp.Proofs.LineBreaks
import MiniLisp.Proofs.Lookahead

/-!
# Sources one after the other

Two sources with a line feed between them read as the forms of the first and then those of the
second, provided that the first can be read as a whole.

On the side of tokens, only a string that is not closed could reach into the second source. On the
side of forms, such a string has no text, so it occurs in nothing that can be read. And since the
reader does not look ahead, it reads the tokens of the first source as if no others followed.

Results:
1. `tokenize_line`: the tokens of a source whose strings are closed, and of a line behind it.
2. `Forms.closed`: all strings in a sequence of forms are closed.
3. `Forms.run_append`: reading forms and then whatever follows.
4. `readAll_lines`: the law for sources.
-/

namespace MiniLisp

open Token

variable {π : Type}

/-! ## Definitions -/

/-- `Forms k tokens values`: the tokens are forms of the given values in a row, each with a budget
of `k` levels. -/
inductive Grammar.Forms (k : Nat) : List Token → List (Value π) → Prop
  | nil : Forms k [] []
  | cons {tokens middle : List Token} {value : Value π} {values : List (Value π)} :
      Form k tokens value middle → Forms k middle values → Forms k tokens (value :: values)

/-! ## Sources whose strings are closed -/

theorem tokenize_line {source : String} (hclosed : ∀ token ∈ tokenize source, Closed token)
    (more : String) : tokenize (source ++ "\n" ++ more) = tokenize source ++ tokenize more := by
  have htext : (source ++ "\n" ++ more).toList = source.toList ++ '\n' :: more.toList := by simp
  rw [tokenize, htext]
  refine ((lexed_ofChars source.toList).ofChars_line_iff more.toList).mpr fun token hlast => ?_
  exact hclosed token (List.mem_of_getLast? hlast)

/-! ## Forms hold no broken strings -/

namespace Grammar

theorem closed_of_mem_leaders {token : Token} (h : token ∈ leaders) : Closed token := by
  have hleaders : ∀ token ∈ leaders, token.toList.head? ≠ some '"' := by decide
  exact closed_of_head? (hleaders token h)

theorem closed_closer (bracket : Bracket) : Closed bracket.closer := by
  cases bracket <;> exact closed_of_head? (by decide)

theorem Denotes.closed {token : Token} {value : Value π} (h : Denotes token value) :
    Closed token := by
  cases h with
  | keyword hcolon =>
    refine closed_of_head? ?_
    simp [hcolon]
  | string _ htext => exact fun _ => ⟨_, htext⟩
  | scalar _ hquote => exact closed_of_head? hquote

mutual

theorem Form.closed {k : Nat} {tokens rest : List Token} {value : Value π} :
    Form k tokens value rest → (∀ token ∈ rest, Closed token) → ∀ token ∈ tokens, Closed token
  | @Form.collection _ _ bracket _ _ _ _ hitems _ => fun hrest => by
    have hopener : bracket.opener ∈ leaders := by cases bracket <;> decide
    exact List.forall_mem_cons.mpr
      ⟨closed_of_mem_leaders hopener, hitems.closed (closed_closer bracket) hrest⟩
  | .shorthand hmem hform => fun hrest => by
    have hshorthands : ∀ pair ∈ shorthands, pair.1 ∈ leaders := by decide
    exact List.forall_mem_cons.mpr
      ⟨closed_of_mem_leaders (hshorthands _ hmem), hform.closed hrest⟩
  | .annotated hmetadata hform _ _ => fun hrest =>
    List.forall_mem_cons.mpr
      ⟨closed_of_mem_leaders (by decide), hmetadata.closed (hform.closed hrest)⟩
  | .literal _ hdenotes => fun hrest => List.forall_mem_cons.mpr ⟨hdenotes.closed, hrest⟩

theorem Items.closed {k : Nat} {closer : Token} {tokens rest : List Token}
    {values : List (Value π)} :
    Items k closer tokens values rest → Closed closer → (∀ token ∈ rest, Closed token) →
      ∀ token ∈ tokens, Closed token
  | .nil => fun hcloser hrest => List.forall_mem_cons.mpr ⟨hcloser, hrest⟩
  | .cons _ hform hitems => fun hcloser hrest => hform.closed (hitems.closed hcloser hrest)

end

theorem Forms.closed {k : Nat} {tokens : List Token} {values : List (Value π)}
    (h : Forms k tokens values) : ∀ token ∈ tokens, Closed token := by
  induction h with
  | nil => exact List.forall_mem_nil _
  | cons hform _ ih => exact hform.closed ih

end Grammar

/-! ## Forms in a row -/

namespace Reader

open Grammar

theorem run_forms_of_form {limit fuel : Nat} {tokens rest : List Token} {value : Value π}
    (h : (form limit limit).run tokens = .ok value rest) :
    run (forms limit (fuel + 1)) tokens = (run (forms limit fuel) rest).map (value :: ·) := by
  cases tokens with
  | nil => exact absurd rfl (form_sound limit h).ne_nil
  | cons token tokens =>
    simp only [run, run_forms_cons, h]
    cases (forms limit fuel : ReadM (List (Value π))).run rest <;> rfl

/-- There is no difference between one sufficient amount of fuel and another. -/
theorem run_forms_fuel {limit fuel fuel' : Nat} {tokens : List Token} (hfuel : tokens.length ≤ fuel)
    (hfuel' : tokens.length ≤ fuel') :
    (forms limit fuel : ReadM (List (Value π))).run tokens = (forms limit fuel').run tokens := by
  induction fuel generalizing fuel' tokens with
  | zero =>
    obtain rfl := List.eq_nil_of_length_eq_zero (Nat.le_zero.mp hfuel)
    rw [run_forms_nil, run_forms_nil]
  | succ fuel ih =>
    cases tokens with
    | nil => rw [run_forms_nil, run_forms_nil]
    | cons token tokens =>
      rw [List.length_cons] at hfuel hfuel'
      obtain ⟨fuel', rfl⟩ : ∃ n, fuel' = n + 1 := ⟨fuel' - 1, by omega⟩
      rw [run_forms_cons, run_forms_cons]
      cases hform : (form limit limit : ReadM (Value π)).run (token :: tokens) with
      | error e rest => rfl
      | ok value rest =>
        have hrest := length_lt_of_run_form hform
        rw [List.length_cons] at hrest
        dsimp only
        rw [ih (by omega) (by omega : rest.length ≤ fuel')]

end Reader

namespace Grammar

open Reader

/-- If the reader of all forms succeeds, the tokens are forms in a row, and none is left. -/
theorem forms_sound {limit fuel : Nat} {tokens : List Token} {values : List (Value π)}
    (hfuel : tokens.length ≤ fuel) (h : run (forms limit fuel) tokens = .ok values) :
    Forms limit tokens values := by
  induction fuel generalizing tokens values with
  | zero =>
    obtain rfl := List.eq_nil_of_length_eq_zero (Nat.le_zero.mp hfuel)
    cases h
    exact .nil
  | succ fuel ih =>
    cases tokens with
    | nil =>
      cases h
      exact .nil
    | cons token tokens =>
      cases hform : (form limit limit : ReadM (Value π)).run (token :: tokens) with
      | error e rest => simp [run, run_forms_cons, hform] at h
      | ok value rest =>
        rw [run_forms_of_form hform] at h
        have hrest := length_lt_of_run_form hform
        rw [List.length_cons] at hfuel hrest
        cases hothers : (run (forms limit fuel) rest : Except ReadError (List (Value π))) with
        | error e =>
          rw [hothers] at h
          cases h
        | ok others =>
          rw [hothers] at h
          cases h
          exact .cons (form_sound limit hform) (ih (by omega) hothers)

/-- Forms in front of other tokens are read first, and what is read from the others does not depend
on them. -/
theorem Forms.run_append {k : Nat} {tokens : List Token} {values : List (Value π)}
    (h : Forms k tokens values) (more : List Token) {fuel : Nat}
    (hfuel : tokens.length + more.length ≤ fuel) :
    run (forms k fuel) (tokens ++ more) = (run (forms k more.length) more).map (values ++ ·) := by
  induction h generalizing fuel with
  | nil =>
    have hrun : run (forms k fuel) more = (run (forms k more.length) more :
        Except ReadError (List (Value π))) := by
      unfold run
      rw [run_forms_fuel (by simpa using hfuel) (Nat.le_refl more.length)]
    rw [List.nil_append, hrun]
    cases (run (forms k more.length) more : Except ReadError (List (Value π))) <;> rfl
  | @cons tokens middle value values hform _ ih =>
    have hread := hform.complete k
    have hmiddle := length_lt_of_run_form hread
    obtain ⟨fuel, rfl⟩ : ∃ n, fuel = n + 1 := ⟨fuel - 1, by omega⟩
    rw [run_forms_of_form (((steady_form k k).run_ok hread).2 more), ih (by omega)]
    cases (run (forms k more.length) more : Except ReadError (List (Value π))) <;> rfl

end Grammar

/-! ## Sources -/

/-- If all of a source can be read, a line behind it is read on its own: what is read from both is
what is read from the one and then what is read from the other, and the line fails as it would fail
alone. -/
theorem readAll_lines {first : String} {values : List (Value π)} (h : readAll first = .ok values)
    (second : String) :
    readAll (first ++ "\n" ++ second) = (readAll second).map (values ++ ·) := by
  have hforms : Grammar.Forms maxReadDepth (tokenize first) values :=
    Grammar.forms_sound (Nat.le_refl _) h
  unfold readAll
  rw [tokenize_line hforms.closed second]
  exact hforms.run_append (tokenize second) (Nat.le_of_eq List.length_append.symm)

/-- A source that ends in a comment, with a line behind it that can be read and with one that
cannot. -/
theorem readAll_lines_comment :
    let first := "'a [\"b;\"] ; (c"
    let values : List (Value Empty) :=
      [.sugar ⟨"quote"⟩ (.symbol ⟨"a"⟩) none none, .vector [.string "b;"] none]
    readAll first = .ok values ∧
      readAll (first ++ "\n" ++ "d") = .ok (values ++ [.symbol ⟨"d"⟩]) ∧
      (readAll (first ++ "\n" ++ "(e ; f") : Except _ (List (Value Empty))) =
        .error (.unterminated .list) := by
  intro first values
  have htokens : tokenize first = ["'", "a", "[", "\"b;\"", "]"] := by decide +kernel
  have hsecond : tokenize "d" = ["d"] := by decide +kernel
  have hopen : tokenize "(e ; f" = ["(", "e"] := by decide +kernel
  have hfirst : readAll first = .ok values := by
    rw [readAll, htokens]
    rfl
  refine ⟨hfirst, ?_, ?_⟩
  · rw [readAll_lines hfirst, readAll, hsecond]
    rfl
  · rw [readAll_lines hfirst, readAll, hopen]
    rfl

end MiniLisp
