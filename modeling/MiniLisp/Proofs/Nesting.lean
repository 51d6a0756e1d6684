import Mathlib.Data.Nat.Find
import MiniLisp.Proofs.Cursors
import MiniLisp.Proofs.ReadErrors

/-!
# How deep forms may lie

A limit on how deep forms lie inside each other does one thing: reading is refused where a form lies
deeper. Up to there nothing that the reader does depends on the limit. So a sequence of tokens has a
threshold: under every lower limit reading is refused, and from the threshold on all limits give the
same result, be it a value or an error, at the same place. Which of several errors is met first does
not depend on the limit. Every level is paid for with a token, so the threshold is at most one more
than the number of tokens.

Results:
1. `Relaxes.bind`, `relaxes_items`: refused, or not told from a reader with more levels.
2. `relaxes_form`: reading a form with more levels, under any other limit.
3. `exists_threshold`: the least limit that is enough.
4. `readForm_threshold`: what a fresh cursor comes to under each limit.
-/

namespace MiniLisp

variable {π : Type}

namespace Reader

variable {α β : Type}

/-! ## Definitions -/

/-- The run came to a form that lies too deep. -/
def Refused (result : EStateM.Result ReadError (List Token) α) : Prop :=
  ∃ limit rest, result = .error (.tooDeeplyNested limit) rest

/-- Where the reader is not refused, the other one does the same. -/
def Relaxes (reader other : ReadM α) : Prop :=
  ∀ tokens, Refused (reader.run tokens) ∨ other.run tokens = reader.run tokens

/-! ## More levels -/

theorem Relaxes.refl (reader : ReadM α) : Relaxes reader reader := fun _ => .inr rfl

theorem Relaxes.bind {first first' : ReadM α} {next next' : α → ReadM β}
    (hfirst : Relaxes first first') (hnext : ∀ a, Relaxes (next a) (next' a)) :
    Relaxes (first >>= next) (first' >>= next') := by
  intro tokens
  rw [EStateM.run_bind, EStateM.run_bind]
  rcases hfirst tokens with ⟨limit, rest, hrefused⟩ | hsame
  · rw [hrefused]
    exact .inl ⟨limit, rest, rfl⟩
  · rw [hsame]
    cases first.run tokens with
    | ok a rest => exact hnext a rest
    | error e rest => exact .inr rfl

section

variable {item other : ReadM (Value π)} (hitem : Relaxes item other)

include hitem

theorem relaxes_items (bracket : Bracket) (fuel : Nat) :
    Relaxes (items item bracket fuel) (items other bracket fuel) := by
  induction fuel with
  | zero => exact .refl _
  | succ fuel ih =>
    rw [items, items]
    refine (Relaxes.refl get).bind fun tokens => ?_
    cases tokens with
    | nil => exact .refl _
    | cons token tokens =>
      show Relaxes (ite _ _ _) (ite _ _ _)
      split
      · exact .refl _
      · exact hitem.bind fun first => ih.bind fun others => .refl _

theorem relaxes_collection (bracket : Bracket) :
    Relaxes (collection item bracket) (collection other bracket) := by
  refine (Relaxes.refl next).bind fun _ => (Relaxes.refl get).bind fun left => ?_
  exact (relaxes_items hitem bracket left.length).bind fun values => .refl _

theorem relaxes_atom : Relaxes (atom item) (atom other) := by
  refine (Relaxes.refl next).bind fun token => ?_
  cases shorthandTag? token with
  | some tag => exact hitem.bind fun inner => .refl _
  | none =>
    show Relaxes (ite _ _ _) (ite _ _ _)
    split
    · exact hitem.bind fun metadata => hitem.bind fun inner => .refl _
    · exact .refl _

end

/-- With more levels, and whatever the limit is that errors mention, a form reads as before unless
it was refused. -/
theorem relaxes_form {limit limit' levels levels' : Nat} (h : levels ≤ levels') :
    Relaxes (form limit levels : ReadM (Value π)) (form limit' levels') := by
  induction levels generalizing levels' with
  | zero => exact fun tokens => .inl ⟨limit, tokens, rfl⟩
  | succ levels ih =>
    obtain ⟨more, rfl⟩ : ∃ more, levels' = more + 1 := ⟨levels' - 1, by omega⟩
    have hinner : Relaxes (form limit levels : ReadM (Value π)) (form limit' more) := ih (by omega)
    refine (Relaxes.refl peek).bind fun token => ?_
    cases Bracket.ofOpener? token with
    | some bracket => exact relaxes_collection hinner bracket
    | none => exact relaxes_atom hinner

/-! ## The threshold -/

theorem not_refused_of_length_lt {limit levels : Nat} {tokens : List Token}
    (h : tokens.length < levels) :
    ¬ Refused ((form limit levels : ReadM (Value π)).run tokens) := by
  rintro ⟨refused, rest, hrefused⟩
  have hcost := add_length_le_of_run_form hrefused
  omega

/-- There is a least limit under which the tokens are not refused. -/
theorem exists_threshold (π : Type) (tokens : List Token) :
    ∃ threshold ≤ tokens.length + 1,
      (∀ m < threshold, Refused ((form m m : ReadM (Value π)).run tokens)) ∧
        ¬ Refused ((form threshold threshold : ReadM (Value π)).run tokens) := by
  classical
  have henough : ∃ m, ¬ Refused ((form m m : ReadM (Value π)).run tokens) :=
    ⟨tokens.length + 1, not_refused_of_length_lt (Nat.lt_succ_self _)⟩
  refine ⟨Nat.find henough, ?_, fun m hm => not_not.mp (Nat.find_min henough hm),
    Nat.find_spec henough⟩
  exact Nat.find_min' henough (not_refused_of_length_lt (Nat.lt_succ_self _))

end Reader

namespace Cursor

/-- Tokens have a threshold, at most one more than their number. Under every lower limit a fresh
cursor is refused, with that limit in the error. From the threshold on, all limits give the same
result at the same place, and the result is not that the cursor was refused. -/
theorem readForm_threshold (tokens : List Token) :
    ∃ threshold ≤ tokens.length + 1, ∃ (result : Except ReadError (Value π)) (position : Nat),
      (∀ limit, result ≠ .error (.tooDeeplyNested limit)) ∧
      (∀ maxDepth < threshold, ∃ after,
        (readForm : CursorM (Value π)).run.run (ofTokens tokens maxDepth) =
          some (.error (.tooDeeplyNested maxDepth), after)) ∧
      ∀ maxDepth ≥ threshold, readForm.run.run (ofTokens tokens maxDepth) =
        some (result, { ofTokens tokens maxDepth with position := position }) := by
  obtain ⟨threshold, hle, hbelow, henough⟩ := Reader.exists_threshold π tokens
  obtain ⟨result, rest, hrun⟩ : ∃ (result : Except ReadError (Value π)) (rest : List Token),
      (Reader.form threshold threshold).run tokens = Reader.leaves rest result := by
    cases hrun : (Reader.form threshold threshold : ReadM (Value π)).run tokens with
    | ok value rest => exact ⟨.ok value, rest, rfl⟩
    | error e rest => exact ⟨.error e, rest, rfl⟩
  refine ⟨threshold, hle, result, tokens.length - rest.length, ?_, ?_, ?_⟩
  · rintro limit rfl
    exact henough ⟨limit, rest, hrun⟩
  · intro maxDepth hlt
    obtain ⟨limit, left, hrefused⟩ := hbelow maxDepth hlt
    obtain rfl := Reader.limit_eq_of_run_form hrefused
    exact ⟨_, run_readForm_ofTokens hrefused⟩
  · intro maxDepth hge
    rcases Reader.relaxes_form hge tokens with hrefused | hsame
    · exact absurd hrefused henough
    · exact run_readForm_ofTokens (hsame.trans hrun)

end Cursor

end MiniLisp
