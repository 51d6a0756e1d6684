import MiniLisp.Proofs.Lookahead
import MiniLisp.Reader.Cursor

/-!
# Cursors

`Reader.form` knows how many levels are left and takes tokens off a sequence. A cursor counts the
levels that it is inside of, and moves through a sequence that stays as it is. Both read alike: a
call of a cursor comes to what the reader comes to on the tokens that the cursor has not passed, and
leaves the cursor where those tokens are left that the reader leaves. Nothing else of the cursor
changes, so the count is what it was before. Each form and each item takes up a token, so the fuel
of a call lasts if there is more of it than tokens are left.

Results:
1. `Tracks.bind`, `Follows.bind`: two steps in a row.
2. `tracks_items`: the items of a collection. The loop ends because each item takes up a token.
3. `follows_form`: reading a form, at every depth and under every limit.
4. `Call.exists_orderly`: what one call does to the cursor, whether it fails or not.
5. `performAll_ofTokens`: any number of calls, one after the other.
-/

namespace MiniLisp

variable {π : Type}

namespace Cursor

variable {α β : Type}

/-! ## Definitions -/

/-- The tokens that the cursor has not passed. -/
def rest (cursor : Cursor) : List Token := cursor.tokens.toList.drop cursor.position

/-- The cursor, moved to where `rest` is left. -/
def leaving (cursor : Cursor) (rest : List Token) : Cursor :=
  { cursor with position := cursor.tokens.size - rest.length }

/-- The cursor is not beyond its tokens. -/
def Placed (cursor : Cursor) : Prop := cursor.position ≤ cursor.tokens.size

/-- `Tracks cursor result outcome`: a call that comes to `outcome` has ended as a reader that comes
to `result`. The cursor is left where the reader stopped, and is otherwise as it was. -/
inductive Tracks (cursor : Cursor) :
    EStateM.Result ReadError (List Token) α → Option (Except ReadError α × Cursor) → Prop
  | ok {rest : List Token} {value : α} :
      rest <:+ cursor.rest → Tracks cursor (.ok value rest) (some (.ok value, cursor.leaving rest))
  | error {rest : List Token} {e : ReadError} :
      rest <:+ cursor.rest → Tracks cursor (.error e rest) (some (.error e, cursor.leaving rest))

/-- Fewer than `room` tokens are left to the cursor, which is inside of `depth` forms and may be
inside of `maxDepth`. -/
structure Stands (room depth maxDepth : Nat) (cursor : Cursor) : Prop where
  placed : cursor.Placed
  length_lt : cursor.rest.length < room
  depth_eq : cursor.depth = depth
  maxDepth_eq : cursor.maxDepth = maxDepth

/-- From where a cursor stands, the call does what the reader does on the tokens that are left. -/
def Follows (room depth maxDepth : Nat) (call : CursorM α) (reader : ReadM α) : Prop :=
  ∀ cursor : Cursor, cursor.Stands room depth maxDepth →
    Tracks cursor (reader.run cursor.rest) (call.run.run cursor)

/-! ## Where a cursor stands -/

theorem placed_leaving (cursor : Cursor) (rest : List Token) : (cursor.leaving rest).Placed :=
  Nat.sub_le _ _

theorem length_rest (cursor : Cursor) :
    cursor.rest.length = cursor.tokens.size - cursor.position := by
  rw [rest, List.length_drop, Array.length_toList]

theorem rest_leaving {cursor : Cursor} {rest : List Token} (h : rest <:+ cursor.rest) :
    (cursor.leaving rest).rest = rest := by
  have htokens : rest <:+ cursor.tokens.toList := h.trans (List.drop_suffix _ _)
  exact (List.suffix_iff_eq_drop.mp htokens).symm

theorem leaving_rest {cursor : Cursor} (h : cursor.Placed) :
    cursor.leaving cursor.rest = cursor := by
  have hposition : cursor.tokens.size - cursor.rest.length = cursor.position := by
    rw [length_rest, Nat.sub_sub_self h]
  rw [leaving, hposition]

/-- A cursor that leaves less is further on. -/
theorem position_lt_leaving {cursor : Cursor} {rest : List Token}
    (h : rest.length < cursor.rest.length) : cursor.position < (cursor.leaving rest).position := by
  rw [length_rest] at h
  exact Nat.lt_sub_of_add_lt (Nat.add_comm _ _ ▸ Nat.add_lt_of_lt_sub h)

theorem position_le_leaving {cursor : Cursor} {rest : List Token} (hplaced : cursor.Placed)
    (h : rest <:+ cursor.rest) : cursor.position ≤ (cursor.leaving rest).position := by
  rcases Nat.lt_or_eq_of_le h.length_le with hlt | heq
  · exact Nat.le_of_lt (position_lt_leaving hlt)
  · have hsame : cursor.leaving rest = cursor := by
      rw [h.eq_of_length heq, leaving_rest hplaced]
    exact Nat.le_of_eq (congrArg position hsame.symm)

/-- The token that a cursor stands before is the first that it has not passed. -/
theorem token?_eq (cursor : Cursor) : cursor.token? = cursor.rest.head? := by
  rw [token?, rest, List.head?_drop, Array.getElem?_toList]

/-- Behind its next token a cursor leaves the tokens after that one. -/
theorem leaving_tail {cursor : Cursor} {token : Token} {rest : List Token}
    (h : cursor.rest = token :: rest) :
    cursor.leaving rest = { cursor with position := cursor.position + 1 } := by
  have hlength := congrArg List.length h
  rw [length_rest, List.length_cons] at hlength
  have hposition : cursor.tokens.size - rest.length = cursor.position + 1 := by omega
  rw [leaving, hposition]

theorem Stands.succ {room depth maxDepth : Nat} {cursor : Cursor}
    (h : cursor.Stands room depth maxDepth) : cursor.Stands (room + 1) depth maxDepth :=
  { h with length_lt := Nat.lt_succ_of_lt h.length_lt }

theorem Stands.leaving {room depth maxDepth : Nat} {cursor : Cursor} {rest : List Token}
    (h : cursor.Stands room depth maxDepth) (hrest : rest <:+ cursor.rest) :
    (cursor.leaving rest).Stands room depth maxDepth where
  placed := placed_leaving cursor rest
  length_lt := by
    rw [rest_leaving hrest]
    exact Nat.lt_of_le_of_lt hrest.length_le h.length_lt
  depth_eq := h.depth_eq
  maxDepth_eq := h.maxDepth_eq

/-- Behind its next token a cursor has room for one token less. -/
theorem Stands.leaving_tail {room depth maxDepth : Nat} {cursor : Cursor} {token : Token}
    {rest : List Token} (h : cursor.Stands (room + 1) depth maxDepth)
    (hrest : cursor.rest = token :: rest) : (cursor.leaving rest).Stands room depth maxDepth where
  placed := placed_leaving cursor rest
  length_lt := by
    have hlength := h.length_lt
    rw [hrest, List.length_cons] at hlength
    rw [rest_leaving (hrest ▸ List.suffix_cons token rest)]
    exact Nat.lt_of_succ_lt_succ hlength
  depth_eq := h.depth_eq
  maxDepth_eq := h.maxDepth_eq

/-! ## Steps in a row -/

theorem run_bind_of_ok {call : CursorM α} {next : α → CursorM β} {cursor after : Cursor} {a : α}
    (h : call.run.run cursor = some (.ok a, after)) :
    (call >>= next).run.run cursor = (next a).run.run after := by
  simp [ExceptT.run_bind, StateT.run_bind, h]

theorem run_bind_of_error {call : CursorM α} {next : α → CursorM β} {cursor after : Cursor}
    {e : ReadError} (h : call.run.run cursor = some (.error e, after)) :
    (call >>= next).run.run cursor = some (.error e, after) := by
  simp [ExceptT.run_bind, StateT.run_bind, h]

theorem tracks_ok {cursor : Cursor} {a : α} (h : cursor.Placed) :
    Tracks cursor (.ok a cursor.rest) (some (.ok a, cursor)) := by
  have htracks : Tracks cursor (.ok a cursor.rest) (some (.ok a, cursor.leaving cursor.rest)) :=
    .ok List.suffix_rfl
  rwa [leaving_rest h] at htracks

theorem tracks_error {cursor : Cursor} {e : ReadError} (h : cursor.Placed) :
    Tracks cursor (.error e cursor.rest : EStateM.Result ReadError (List Token) α)
      (some (.error e, cursor)) := by
  have htracks : Tracks cursor (.error e cursor.rest : EStateM.Result ReadError (List Token) α)
      (some (.error e, cursor.leaving cursor.rest)) := .error List.suffix_rfl
  rwa [leaving_rest h] at htracks

/-- A step that starts further on ends where it would end from the cursor. -/
theorem Tracks.of_leaving {cursor : Cursor} {rest : List Token}
    {result : EStateM.Result ReadError (List Token) α}
    {outcome : Option (Except ReadError α × Cursor)}
    (hrest : rest <:+ cursor.rest) (h : Tracks (cursor.leaving rest) result outcome) :
    Tracks cursor result outcome := by
  cases h with
  | ok hleft =>
    rw [rest_leaving hrest] at hleft
    exact .ok (hleft.trans hrest)
  | error hleft =>
    rw [rest_leaving hrest] at hleft
    exact .error (hleft.trans hrest)

theorem Tracks.exists_ok {cursor after : Cursor} {value : α}
    {result : EStateM.Result ReadError (List Token) α}
    (h : Tracks cursor result (some (.ok value, after))) : ∃ rest, result = .ok value rest := by
  cases h
  exact ⟨_, rfl⟩

theorem Tracks.exists_error {cursor after : Cursor} {e : ReadError}
    {result : EStateM.Result ReadError (List Token) α}
    (h : Tracks cursor result (some (.error e, after))) : ∃ rest, result = .error e rest := by
  cases h
  exact ⟨_, rfl⟩

theorem Tracks.bind {call : CursorM α} {next : α → CursorM β} {reader : ReadM α}
    {then' : α → ReadM β} {cursor : Cursor}
    (hcall : Tracks cursor (reader.run cursor.rest) (call.run.run cursor))
    (hnext : ∀ a rest, reader.run cursor.rest = .ok a rest → rest <:+ cursor.rest →
      Tracks (cursor.leaving rest) ((then' a).run (cursor.leaving rest).rest)
        ((next a).run.run (cursor.leaving rest))) :
    Tracks cursor ((reader >>= then').run cursor.rest) ((call >>= next).run.run cursor) := by
  rw [EStateM.run_bind]
  generalize hresult : reader.run cursor.rest = result at hcall hnext
  generalize houtcome : call.run.run cursor = outcome at hcall
  cases hcall with
  | ok hrest =>
    have htracks := hnext _ _ rfl hrest
    rw [rest_leaving hrest] at htracks
    rw [run_bind_of_ok houtcome]
    exact htracks.of_leaving hrest
  | error hrest =>
    rw [run_bind_of_error houtcome]
    exact .error hrest

section

variable {room depth maxDepth : Nat}

theorem Follows.bind {call : CursorM α} {next : α → CursorM β} {reader : ReadM α}
    {then' : α → ReadM β} (hcall : Follows room depth maxDepth call reader)
    (hnext : ∀ a, Follows room depth maxDepth (next a) (then' a)) :
    Follows room depth maxDepth (call >>= next) (reader >>= then') :=
  fun cursor hstands =>
    (hcall cursor hstands).bind fun a _ _ hrest => hnext a _ (hstands.leaving hrest)

theorem follows_pure (a : α) : Follows room depth maxDepth (pure a) (pure a) :=
  fun _ hstands => tracks_ok hstands.placed

theorem follows_throw (e : ReadError) :
    Follows room depth maxDepth (throw e : CursorM α) (throw e) :=
  fun _ hstands => tracks_error hstands.placed

theorem follows_orFail {ε : Type} (cause : ε → ReadError) (result : Except ε α) :
    Follows room depth maxDepth (orFail cause result) (Reader.orFail cause result) := by
  cases result with
  | ok value => exact follows_pure value
  | error e => exact follows_throw (cause e)

/-! ## Tokens -/

theorem run_get_bind (next : Cursor → CursorM α) (cursor : Cursor) :
    (get >>= next).run.run cursor = (next cursor).run.run cursor := rfl

theorem run_hasNext (cursor : Cursor) :
    hasNext.run.run cursor = some (.ok (!cursor.rest.isEmpty), cursor) := by
  have hflag : decide (cursor.position < cursor.tokens.size) = !cursor.rest.isEmpty := by
    rw [Bool.eq_iff_iff, decide_eq_true_iff, Bool.not_eq_true', List.isEmpty_eq_false_iff,
      ← List.length_pos_iff, length_rest, Nat.sub_pos_iff_lt]
  rw [← hflag]
  rfl

theorem run_peek_of_nil {cursor : Cursor} (h : cursor.rest = []) :
    peek.run.run cursor = some (.error .unexpectedEnd, cursor) := by
  rw [peek, run_get_bind, token?_eq, h]
  rfl

theorem run_peek_of_cons {cursor : Cursor} {token : Token} {rest : List Token}
    (h : cursor.rest = token :: rest) : peek.run.run cursor = some (.ok token, cursor) := by
  rw [peek, run_get_bind, token?_eq, h]
  rfl

theorem run_next_of_nil {cursor : Cursor} (h : cursor.rest = []) :
    next.run.run cursor = some (.error .unexpectedEnd, cursor) := by
  rw [next, run_bind_of_error (run_peek_of_nil h)]

theorem run_next_of_cons {cursor : Cursor} {token : Token} {rest : List Token}
    (h : cursor.rest = token :: rest) :
    next.run.run cursor = some (.ok token, cursor.leaving rest) := by
  rw [next, run_bind_of_ok (run_peek_of_cons h), leaving_tail h]
  rfl

theorem follows_hasNext : Follows room depth maxDepth hasNext Reader.hasNext := by
  intro cursor hstands
  rw [run_hasNext]
  exact tracks_ok hstands.placed

theorem follows_peek : Follows room depth maxDepth peek Reader.peek := by
  intro cursor hstands
  cases hrest : cursor.rest with
  | nil =>
    rw [run_peek_of_nil hrest]
    show Tracks cursor (.error .unexpectedEnd []) _
    rw [← hrest]
    exact tracks_error hstands.placed
  | cons token rest =>
    rw [run_peek_of_cons hrest]
    show Tracks cursor (.ok token (token :: rest)) _
    rw [← hrest]
    exact tracks_ok hstands.placed

theorem tracks_next {cursor : Cursor} (hplaced : cursor.Placed) :
    Tracks cursor (Reader.next.run cursor.rest) (next.run.run cursor) := by
  cases hrest : cursor.rest with
  | nil =>
    rw [run_next_of_nil hrest]
    show Tracks cursor (.error .unexpectedEnd []) _
    rw [← hrest]
    exact tracks_error hplaced
  | cons token rest =>
    rw [run_next_of_cons hrest]
    refine .ok ?_
    rw [hrest]
    exact List.suffix_cons token rest

/-- Behind a token that was taken off there is room for one token less. -/
theorem Follows.after_next {call : Token → CursorM α} {reader : Token → ReadM α}
    (h : ∀ token, Follows room depth maxDepth (call token) (reader token)) :
    Follows (room + 1) depth maxDepth (next >>= call) (Reader.next >>= reader) := by
  intro cursor hstands
  refine (tracks_next hstands.placed).bind fun token _ hnext _ => ?_
  cases hrest : cursor.rest with
  | nil =>
    rw [hrest] at hnext
    cases hnext
  | cons first others =>
    rw [hrest] at hnext
    cases hnext
    exact h _ _ (hstands.leaving_tail hrest)

/-! ## Items -/

section

variable {item : CursorM (Value π)} {bracket : Bracket} {fuel : Nat} {cursor : Cursor}

theorem run_items_of_nil (h : cursor.rest = []) :
    (items item bracket (fuel + 1)).run.run cursor =
      some (.error (.unterminated bracket), cursor) := by
  rw [items, run_bind_of_ok (run_hasNext cursor), h]
  rfl

theorem run_items_of_closer {rest : List Token} (h : cursor.rest = bracket.closer :: rest) :
    (items item bracket (fuel + 1)).run.run cursor = some (.ok [], cursor.leaving rest) := by
  rw [items, run_bind_of_ok (run_hasNext cursor), h, List.isEmpty_cons, Bool.not_false, if_pos rfl,
    run_bind_of_ok (run_peek_of_cons h), if_pos rfl, run_bind_of_ok (run_next_of_cons h)]
  rfl

theorem run_items_of_cons {token : Token} {rest : List Token} (h : cursor.rest = token :: rest)
    (hcloser : token ≠ bracket.closer) :
    (items item bracket (fuel + 1)).run.run cursor =
      (do return (← item) :: (← items item bracket fuel) : CursorM _).run.run cursor := by
  rw [items, run_bind_of_ok (run_hasNext cursor), h, List.isEmpty_cons, Bool.not_false, if_pos rfl,
    run_bind_of_ok (run_peek_of_cons h), if_neg hcloser]

end

/-! ## Forms, given that forms inside are read alike -/

variable {item : CursorM (Value π)} {reader : ReadM (Value π)}
  (hitem : Follows room depth maxDepth item reader)

include hitem

theorem follows_atom : Follows (room + 1) depth maxDepth (atom item) (Reader.atom reader) := by
  refine Follows.after_next fun token => ?_
  cases Reader.shorthandTag? token with
  | some tag => exact hitem.bind fun form => follows_pure _
  | none =>
    show Follows room depth maxDepth (ite _ _ _) (ite _ _ _)
    split
    · refine hitem.bind fun metadata => hitem.bind fun form => ?_
      exact (follows_orFail _ _).bind fun attached => follows_pure _
    · exact follows_orFail _ _

variable (hshorter : ∀ {tokens rest : List Token} {value : Value π},
  reader.run tokens = .ok value rest → rest.length < tokens.length)

include hshorter

/-- The fuel of the reader and that of the cursor go down together, and each item takes up a token.
So the end of the tokens is found before the end of either. -/
theorem tracks_items {bracket : Bracket} {fuel fuel' : Nat} {cursor : Cursor}
    (hstands : cursor.Stands room depth maxDepth) (hfuel : cursor.rest.length < fuel)
    (hfuel' : cursor.rest.length ≤ fuel') :
    Tracks cursor ((Reader.items reader bracket fuel').run cursor.rest)
      ((items item bracket fuel).run.run cursor) := by
  induction fuel generalizing cursor fuel' with
  | zero => exact absurd hfuel (Nat.not_lt_zero _)
  | succ fuel ih =>
    cases hrest : cursor.rest with
    | nil =>
      rw [run_items_of_nil hrest, Reader.run_items_nil, ← hrest]
      exact tracks_error hstands.placed
    | cons token tokens =>
      rw [hrest, List.length_cons] at hfuel'
      obtain ⟨fuel', rfl⟩ : ∃ n, fuel' = n + 1 :=
        Nat.exists_eq_add_one.mpr (Nat.lt_of_lt_of_le (Nat.succ_pos _) hfuel')
      by_cases hcloser : token = bracket.closer
      · subst hcloser
        rw [run_items_of_closer hrest, Reader.run_items_closer]
        refine .ok ?_
        rw [hrest]
        exact List.suffix_cons _ _
      · rw [run_items_of_cons hrest hcloser, Reader.run_items_cons hcloser, ← hrest]
        refine (hitem cursor hstands).bind fun first middle hfirst hmiddle => ?_
        have hleft : (cursor.leaving middle).rest.length < cursor.rest.length := by
          rw [rest_leaving hmiddle]
          exact hshorter hfirst
        have henough : (cursor.leaving middle).rest.length ≤ fuel' := by
          rw [hrest, List.length_cons] at hleft
          omega
        have hothers := ih (hstands.leaving hmiddle) (by omega) henough
        refine hothers.bind fun others rest _ hrest => ?_
        exact follows_pure _ _ ((hstands.leaving hmiddle).leaving hrest)

theorem follows_collection (bracket : Bracket) :
    Follows (room + 1) depth maxDepth (collection item bracket room)
      (Reader.collection reader bracket) := by
  refine Follows.after_next fun _ => ?_
  intro cursor hstands
  show Tracks cursor ((do Reader.orFail .invalidMap (Reader.collect bracket
    (← Reader.items reader bracket cursor.rest.length))).run cursor.rest) _
  refine (tracks_items hitem hshorter hstands hstands.length_lt (Nat.le_refl _)).bind
    fun values rest _ hrest => ?_
  exact follows_orFail _ _ _ (hstands.leaving hrest)

end

/-! ## Forms -/

theorem run_counted_of_le {cursor : Cursor} (action : CursorM α)
    (h : cursor.maxDepth ≤ cursor.depth) :
    (counted action).run.run cursor = some (.error (.tooDeeplyNested cursor.maxDepth), cursor) :=
  if_pos h

theorem run_counted_of_lt {action : CursorM α} {cursor after : Cursor} {result : Except ReadError α}
    (h : cursor.depth < cursor.maxDepth)
    (haction : action.run.run { cursor with depth := cursor.depth + 1 } = some (result, after)) :
    (counted action).run.run cursor = some (result, { after with depth := after.depth - 1 }) := by
  show counted action cursor = _
  rw [counted, if_neg (Nat.not_le_of_lt h), haction]
  rfl

/-- What was counted at the start of a form is taken back where the form ends or fails. -/
theorem Follows.counted {room depth maxDepth : Nat} {action : CursorM α} {reader : ReadM α}
    (hroom : depth < maxDepth) (h : Follows room (depth + 1) maxDepth action reader) :
    Follows room depth maxDepth (Cursor.counted action) reader := by
  rintro cursor ⟨hplaced, hlength, rfl, rfl⟩
  have htracks := h { cursor with depth := cursor.depth + 1 } ⟨hplaced, hlength, rfl, rfl⟩
  generalize hresult : reader.run _ = result at htracks
  generalize houtcome : action.run.run _ = outcome at htracks
  -- The tokens that are left do not depend on the count.
  have hrest : reader.run cursor.rest = result := hresult
  rw [hrest]
  cases htracks with
  | ok hleft =>
    rw [run_counted_of_lt hroom houtcome]
    exact .ok hleft
  | error hleft =>
    rw [run_counted_of_lt hroom houtcome]
    exact .error hleft

/-- With more fuel than tokens are left, a form is read as the reader reads it that has the levels
between the depth and the limit. -/
theorem follows_form (fuel : Nat) {depth maxDepth levels : Nat} (h : maxDepth - depth = levels) :
    Follows fuel depth maxDepth (form fuel : CursorM (Value π)) (Reader.form maxDepth levels) := by
  induction fuel generalizing depth levels with
  | zero => exact fun _ hstands => absurd hstands.length_lt (Nat.not_lt_zero _)
  | succ fuel ih =>
    cases levels with
    | zero =>
      rintro cursor ⟨hplaced, _, rfl, rfl⟩
      rw [form, run_counted_of_le _ (Nat.le_of_sub_eq_zero h)]
      exact tracks_error hplaced
    | succ levels =>
      have hinner : Follows fuel (depth + 1) maxDepth (form fuel : CursorM (Value π))
          (Reader.form maxDepth levels) := ih (by omega)
      rw [form, Reader.form]
      refine Follows.counted (by omega) (follows_peek.bind fun token => ?_)
      cases Bracket.ofOpener? token with
      | some bracket => exact follows_collection hinner Reader.length_lt_of_run_form bracket
      | none => exact follows_atom hinner

/-- Fuel for a call is enough for all tokens. -/
theorem stands_supply {cursor : Cursor} (h : cursor.Placed) :
    cursor.Stands cursor.supply cursor.depth cursor.maxDepth where
  placed := h
  length_lt := by
    rw [length_rest, supply]
    exact Nat.lt_succ_of_le (Nat.sub_le _ _)
  depth_eq := rfl
  maxDepth_eq := rfl

section

variable {cursor : Cursor} (h : cursor.Placed)

include h

theorem tracks_readForm :
    Tracks cursor
      ((Reader.form cursor.maxDepth (cursor.maxDepth - cursor.depth)).run cursor.rest)
      ((readForm : CursorM (Value π)).run.run cursor) := by
  rw [readForm, run_get_bind]
  exact follows_form cursor.supply rfl cursor (stands_supply h)

theorem tracks_readCollection (bracket : Bracket) :
    Tracks cursor
      ((Reader.collection (Reader.form cursor.maxDepth (cursor.maxDepth - cursor.depth))
        bracket).run cursor.rest)
      ((readCollection bracket : CursorM (Value π)).run.run cursor) := by
  rw [readCollection, run_get_bind]
  exact follows_collection (follows_form cursor.supply rfl) Reader.length_lt_of_run_form bracket
    cursor (stands_supply h).succ

theorem tracks_readAtom :
    Tracks cursor
      ((Reader.atom (Reader.form cursor.maxDepth (cursor.maxDepth - cursor.depth))).run cursor.rest)
      ((readAtom : CursorM (Value π)).run.run cursor) := by
  rw [readAtom, run_get_bind]
  exact follows_atom (follows_form cursor.supply rfl) cursor (stands_supply h).succ

end

/-- A fresh cursor reads a form as a fresh reader does. -/
theorem run_readForm_ofTokens {maxDepth : Nat} {tokens rest : List Token}
    {result : Except ReadError (Value π)}
    (h : (Reader.form maxDepth maxDepth).run tokens = Reader.leaves rest result) :
    readForm.run.run (ofTokens tokens maxDepth) =
      some (result, (ofTokens tokens maxDepth).leaving rest) := by
  have htracks : Tracks (ofTokens tokens maxDepth)
      ((Reader.form maxDepth maxDepth : ReadM (Value π)).run tokens)
      (readForm.run.run (ofTokens tokens maxDepth)) := tracks_readForm (Nat.zero_le _)
  rw [h] at htracks
  generalize readForm.run.run (ofTokens tokens maxDepth) = outcome at htracks ⊢
  cases result with
  | ok value =>
    cases htracks
    rfl
  | error e =>
    cases htracks
    rfl

end Cursor

/-! ## What the readers behind the calls take off -/

namespace Reader

theorem length_lt_of_run_next {tokens rest : List Token} {token : Token}
    (h : next.run tokens = .ok token rest) : rest.length < tokens.length := by
  cases tokens with
  | nil => cases h
  | cons first others =>
    cases h
    exact Nat.lt_succ_self _

theorem length_lt_of_run_collection {limit depth : Nat} {bracket : Bracket}
    {tokens rest : List Token} {value : Value π}
    (h : (collection (form limit depth) bracket).run tokens = .ok value rest) :
    rest.length < tokens.length := by
  cases tokens with
  | nil => cases h
  | cons token tokens =>
    obtain ⟨values, hitems, _⟩ := run_collection_cons_eq_ok_iff.mp h
    obtain ⟨used, _, rfl⟩ := (Grammar.items_sound (Grammar.form_sound limit) _ hitems).consumes
    rw [List.length_cons, List.length_append]
    omega

theorem length_lt_of_run_atom {limit depth : Nat} {tokens rest : List Token} {value : Value π}
    (h : (atom (form limit depth)).run tokens = .ok value rest) : rest.length < tokens.length := by
  cases tokens with
  | nil => cases h
  | cons token tokens =>
    rw [run_atom_cons] at h
    cases htag : shorthandTag? token with
    | some tag =>
      cases hform : (form limit depth : ReadM (Value π)).run tokens with
      | error e middle => simp [htag, hform] at h
      | ok inner middle =>
        simp only [htag, hform, EStateM.Result.ok.injEq] at h
        rw [← h.2]
        exact Nat.lt_succ_of_lt (length_lt_of_run_form hform)
    | none =>
      simp only [htag] at h
      split at h
      · obtain ⟨_, middle, _, _, hmetadata, hform, _⟩ := run_annotated_eq_ok_iff.mp h
        have hfirst := length_lt_of_run_form hmetadata
        have hsecond := length_lt_of_run_form hform
        rw [List.length_cons]
        omega
      · split at h
        · cases h
          exact Nat.lt_succ_self _
        · cases h

end Reader

/-! ## Calls -/

namespace Cursor

/-- The calls that move the cursor when they succeed. -/
def Call.takes : Call → Bool
  | .hasNext => false
  | .peek => false
  | _ => true

/-- The reader behind a call. -/
def Call.reader (limit levels : Nat) : Call → ReadM (Reply π)
  | .hasNext => return .flag (← Reader.hasNext)
  | .peek => return .token (← Reader.peek)
  | .next => return .token (← Reader.next)
  | .form => return .value (← Reader.form limit levels)
  | .collection bracket => return .value (← Reader.collection (Reader.form limit levels) bracket)
  | .atom => return .value (← Reader.atom (Reader.form limit levels))

/-- A call does what the reader behind it does. In particular its fuel lasts. -/
theorem tracks_perform (call : Call) {cursor : Cursor} (h : cursor.Placed) :
    Tracks cursor
      ((call.reader cursor.maxDepth (cursor.maxDepth - cursor.depth)).run cursor.rest)
      ((call.perform : CursorM (Reply π)).run.run cursor) := by
  have hreply : ∀ (reply : Reply π) rest,
      Tracks (cursor.leaving rest) ((pure reply : ReadM (Reply π)).run (cursor.leaving rest).rest)
        ((pure reply : CursorM (Reply π)).run.run (cursor.leaving rest)) :=
    fun _ rest => tracks_ok (placed_leaving cursor rest)
  have hstands := stands_supply h
  cases call with
  | hasNext => exact (follows_hasNext cursor hstands).bind fun _ rest _ _ => hreply _ rest
  | peek => exact (follows_peek cursor hstands).bind fun _ rest _ _ => hreply _ rest
  | next => exact (tracks_next h).bind fun _ rest _ _ => hreply _ rest
  | form => exact (tracks_readForm h).bind fun _ rest _ _ => hreply _ rest
  | collection bracket =>
    exact (tracks_readCollection h bracket).bind fun _ rest _ _ => hreply _ rest
  | atom => exact (tracks_readAtom h).bind fun _ rest _ _ => hreply _ rest

theorem Call.length_lt_of_run {limit levels : Nat} {call : Call} (hcall : call.takes = true)
    {tokens rest : List Token} {reply : Reply π}
    (h : (call.reader limit levels).run tokens = .ok reply rest) : rest.length < tokens.length := by
  cases call with
  | hasNext => cases hcall
  | peek => cases hcall
  | next =>
    obtain ⟨_, _, hnext, ⟨⟩⟩ := Reader.run_bind_eq_ok_iff.mp h
    exact Reader.length_lt_of_run_next hnext
  | form =>
    obtain ⟨_, _, hform, ⟨⟩⟩ := Reader.run_bind_eq_ok_iff.mp h
    exact Reader.length_lt_of_run_form hform
  | collection bracket =>
    obtain ⟨_, _, hcollection, ⟨⟩⟩ := Reader.run_bind_eq_ok_iff.mp h
    exact Reader.length_lt_of_run_collection hcollection
  | atom =>
    obtain ⟨_, _, hatom, ⟨⟩⟩ := Reader.run_bind_eq_ok_iff.mp h
    exact Reader.length_lt_of_run_atom hatom

/-- Each call but `hasNext` goes by the tokens that it looks at. `hasNext` asks whether there are
any more. -/
theorem Call.steady_reader {limit levels : Nat} {call : Call} (hcall : call ≠ .hasNext) :
    Reader.Steady (call.reader limit levels : ReadM (Reply π)) := by
  have hform : Reader.Steady (Reader.form limit levels : ReadM (Value π)) :=
    Reader.steady_form limit levels
  cases call with
  | hasNext => exact absurd rfl hcall
  | peek => exact Reader.steady_peek.bind fun _ => Reader.steady_pure _
  | next => exact Reader.steady_next.bind fun _ => Reader.steady_pure _
  | form => exact hform.bind fun _ => Reader.steady_pure _
  | collection bracket =>
    exact (Reader.steady_collection hform Reader.length_lt_of_run_form bracket).bind
      fun _ => Reader.steady_pure _
  | atom => exact (Reader.steady_atom hform).bind fun _ => Reader.steady_pure _

/-- Where tokens are missing, none are left. -/
theorem Call.rest_eq_nil_of_run {limit levels : Nat} {call : Call} {tokens rest : List Token}
    {e : ReadError} (he : e.Incomplete)
    (h : (call.reader limit levels : ReadM (Reply π)).run tokens = .error e rest) : rest = [] := by
  by_cases hcall : call = .hasNext
  · subst hcall
    cases h
  · rcases (Call.steady_reader hcall).run_error h with ⟨_, hrest⟩ | ⟨hcomplete, _⟩
    · exact hrest
    · exact absurd he hcomplete

/-- A call after some others, the first of them from `start`: it has come to an end, and the cursor
has moved forward inside of the tokens. Nothing else of the cursor changes. -/
structure Orderly (start : Cursor) (step : Step π) : Prop where
  placed : step.before.Placed
  performed : step.call.perform.run.run step.before = some (step.result, step.after)
  tokens : step.after.tokens = start.tokens
  depth : step.after.depth = start.depth
  maxDepth : step.after.maxDepth = start.maxDepth
  forward : step.before.position ≤ step.after.position
  inside : step.after.position ≤ start.tokens.size
  advances : step.call.takes = true → ∀ reply, step.result = .ok reply →
    step.before.position < step.after.position
  atEnd : ∀ e, step.result = .error e → e.Incomplete → step.after.position = start.tokens.size

theorem Orderly.of_leaving {start : Cursor} {rest : List Token} {step : Step π}
    (h : Orderly (start.leaving rest) step) : Orderly start step :=
  ⟨h.placed, h.performed, h.tokens, h.depth, h.maxDepth, h.forward, h.inside, h.advances, h.atEnd⟩

/-- Every call comes to an end, and does nothing to the cursor but move it. -/
theorem Call.exists_orderly (call : Call) {cursor : Cursor} (hplaced : cursor.Placed) :
    ∃ (result : Except ReadError (Reply π)) (rest : List Token),
      Orderly cursor ⟨call, cursor, result, cursor.leaving rest⟩ := by
  have htracks := tracks_perform (π := π) call hplaced
  generalize hrun : (call.reader _ _ : ReadM (Reply π)).run cursor.rest = result at htracks
  generalize houtcome : (call.perform : CursorM (Reply π)).run.run cursor = outcome at htracks
  cases htracks with
  | @ok rest reply hrest =>
    refine ⟨.ok reply, rest, hplaced, houtcome, rfl, rfl, rfl, position_le_leaving hplaced hrest,
      placed_leaving cursor rest, ?_, ?_⟩
    · intro htakes _ _
      exact position_lt_leaving (Call.length_lt_of_run htakes hrun)
    · rintro e ⟨⟩
  | @error rest e hrest =>
    refine ⟨.error e, rest, hplaced, houtcome, rfl, rfl, rfl, position_le_leaving hplaced hrest,
      placed_leaving cursor rest, ?_, ?_⟩
    · rintro _ _ ⟨⟩
    · rintro _ ⟨⟩ he
      rw [Call.rest_eq_nil_of_run he hrun]
      rfl

/-- Calls one after the other: each starts from where the one before left the cursor. -/
theorem exists_performAll (calls : List Call) {cursor : Cursor} (hplaced : cursor.Placed) :
    ∃ steps : List (Step π), performAll calls cursor = some steps ∧ steps.map Step.call = calls ∧
      ∀ step ∈ steps, Orderly cursor step := by
  induction calls generalizing cursor with
  | nil => exact ⟨[], rfl, rfl, List.forall_mem_nil _⟩
  | cons call calls ih =>
    obtain ⟨result, rest, horderly⟩ := call.exists_orderly (π := π) hplaced
    obtain ⟨steps, hsteps, hcalls, hall⟩ := ih (placed_leaving cursor rest)
    refine ⟨⟨call, cursor, result, cursor.leaving rest⟩ :: steps, ?_, ?_, ?_⟩
    · rw [performAll, horderly.performed]
      show (performAll calls (cursor.leaving rest) >>= _) = _
      rw [hsteps]
      rfl
    · rw [List.map_cons, hcalls]
    · rw [List.forall_mem_cons]
      exact ⟨horderly, fun step hstep => (hall step hstep).of_leaving⟩

/-- A fresh cursor can be called any number of times, whatever the calls come to. The fuel of every
call lasts, so every call comes to an end. After it

* the depth is zero again, and the tokens and the limit are what they were;
* the cursor has not moved back and is not beyond the tokens;
* if the call was for a token or a form and has succeeded, the cursor has moved on;
* if the call has failed for want of tokens, the cursor is at the end. -/
theorem performAll_ofTokens (tokens : List Token) (maxDepth : Nat) (calls : List Call) :
    ∃ steps : List (Step π),
      performAll calls (ofTokens tokens maxDepth) = some steps ∧ steps.map Step.call = calls ∧
      ∀ step ∈ steps,
        step.after.depth = 0 ∧ step.after.tokens.toList = tokens ∧
        step.after.maxDepth = maxDepth ∧
        step.before.position ≤ step.after.position ∧ step.after.position ≤ tokens.length ∧
        (step.call.takes = true → ∀ reply, step.result = .ok reply →
          step.before.position < step.after.position) ∧
        ∀ e, step.result = .error e → e.Incomplete → step.after.position = tokens.length := by
  have hplaced : (ofTokens tokens maxDepth).Placed := Nat.zero_le _
  obtain ⟨steps, hsteps, hcalls, horderly⟩ := exists_performAll (π := π) calls hplaced
  refine ⟨steps, hsteps, hcalls, fun step hstep => ?_⟩
  have hstep := horderly step hstep
  refine ⟨hstep.depth, ?_, hstep.maxDepth, hstep.forward, hstep.inside, hstep.advances, hstep.atEnd⟩
  rw [hstep.tokens]
  rfl

end Cursor

end MiniLisp
