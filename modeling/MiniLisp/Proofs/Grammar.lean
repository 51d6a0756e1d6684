import MiniLisp.Proofs.Maps
import MiniLisp.Proofs.Parts
import MiniLisp.Reader.Form

/-!
# The grammar of forms

Reading a form from a sequence of tokens is described by a grammar with a budget of levels. The
grammar does not say in which order anything is tried, and it has no fuel and no errors:

* a collection is an opening token, forms that do not start with its closing token, and the closing
  token. The closing tokens of the other collections are ordinary symbols there;
* a shorthand is its token and the form that it applies to;
* `^` is followed by metadata and by a form that can carry it;
* every other form is one token.

Each form inside another has a budget smaller by one, and a form needs a budget of at least one.

Results:
1. `Form.consumes`: a form takes off a non-empty front part of the tokens.
2. `Form.metadata?_eq_none`: a form carries no metadata itself, so metadata can be attached to it.
3. `form_sound`, `Form.complete`: the reader returns what the grammar derives and nothing else.
4. `form_eq_ok_iff`: both directions for a reader that starts with its whole limit.
-/

namespace MiniLisp

variable {π : Type}

/-! ## Definitions -/

/-- The token that opens a bracket. -/
def Bracket.opener : Bracket → Token
  | .list => "("
  | .vector => "["
  | .map => "\x7b"

namespace Grammar

/-- The tokens that apply to the one form after them, each with the tag of its list. -/
def shorthands : List (Token × String) :=
  [("'", "quote"), ("`", "quasiquote"), ("~", "unquote"), ("~@", "splice-unquote"), ("@", "deref")]

/-- The tokens that start a form of several tokens. -/
def leaders : List Token :=
  ["(", "[", "\x7b", "'", "`", "~", "~@", "@", "^"]

/-- `Gathers bracket items value`: the items in a bracket make up the value. -/
inductive Gathers : Bracket → List (Value π) → Value π → Prop
  | unit : Gathers .list [] .unit
  | list {items : List (Value π)} : items ≠ [] → Gathers .list items (.list items none)
  | vector {items : List (Value π)} : Gathers .vector items (.vector items none)
  | map {items : List (Value π)} {value : Value π} :
      Value.mapOfItems items = .ok value → Gathers .map items value

/-- `Denotes token value`: the value of a token that is a form by itself. -/
inductive Denotes : Token → Value π → Prop
  | keyword {token : Token} {name : List Char} :
      token.toList = ':' :: name → Denotes token (.keyword ⟨String.ofList name⟩)
  | string {token : Token} {text : String} :
      token.toList.head? = some '"' → unquote token = .ok text → Denotes token (.string text)
  | scalar {token : Token} :
      token.toList.head? ≠ some ':' → token.toList.head? ≠ some '"' →
      Denotes token (scalar token)

mutual

/-- `Form k tokens value rest`: with a budget of `k` levels, `tokens` starts with a form of the
given value, and `rest` follows it. -/
inductive Form : Nat → List Token → Value π → List Token → Prop
  | collection {k : Nat} {bracket : Bracket} {tokens rest : List Token} {items : List (Value π)}
      {value : Value π} :
      Items k bracket.closer tokens items rest → Gathers bracket items value →
      Form (k + 1) (bracket.opener :: tokens) value rest
  | shorthand {k : Nat} {token : Token} {tag : String} {tokens rest : List Token}
      {value : Value π} :
      (token, tag) ∈ shorthands → Form k tokens value rest →
      Form (k + 1) (token :: tokens) (.sugar ⟨tag⟩ value none none) rest
  | annotated {k : Nat} {tokens middle rest : List Token} {metadata value : Value π} :
      Form k tokens metadata middle → Form k middle value rest → value ≠ .nil → value ≠ .unit →
      Form (k + 1) ("^" :: tokens)
        (.sugar ⟨"with-meta"⟩ (value.setMetadata (some metadata)) (some metadata) none) rest
  | literal {k : Nat} {token : Token} {rest : List Token} {value : Value π} :
      token ∉ leaders → Denotes token value → Form (k + 1) (token :: rest) value rest

/-- `Items k closer tokens values rest`: `tokens` starts with forms of the given values, none of
which starts with `closer`, and with a `closer` after them. -/
inductive Items : Nat → Token → List Token → List (Value π) → List Token → Prop
  | nil {k : Nat} {closer : Token} {rest : List Token} : Items k closer (closer :: rest) [] rest
  | cons {k : Nat} {closer : Token} {tokens middle rest : List Token} {value : Value π}
      {values : List (Value π)} :
      tokens.head? ≠ some closer → Form k tokens value middle → Items k closer middle values rest →
      Items k closer tokens (value :: values) rest

end

/-! ## What a form takes off -/

mutual

theorem Form.consumes {k : Nat} {tokens rest : List Token} {value : Value π} :
    Form k tokens value rest → ∃ used, used ≠ [] ∧ tokens = used ++ rest
  | .collection hitems _ => by
    obtain ⟨used, _, rfl⟩ := hitems.consumes
    exact ⟨_ :: used, List.cons_ne_nil _ _, rfl⟩
  | .shorthand _ hform => by
    obtain ⟨used, _, rfl⟩ := hform.consumes
    exact ⟨_ :: used, List.cons_ne_nil _ _, rfl⟩
  | .annotated hmetadata hform _ _ => by
    obtain ⟨first, _, rfl⟩ := hmetadata.consumes
    obtain ⟨second, _, rfl⟩ := hform.consumes
    exact ⟨"^" :: (first ++ second), by simp, by simp⟩
  | .literal _ _ => ⟨[_], List.cons_ne_nil _ _, rfl⟩

theorem Items.consumes {k : Nat} {closer : Token} {tokens rest : List Token}
    {values : List (Value π)} :
    Items k closer tokens values rest → ∃ used, used ≠ [] ∧ tokens = used ++ rest
  | .nil => ⟨[closer], by simp, by simp⟩
  | .cons _ hform hitems => by
    obtain ⟨first, hne, rfl⟩ := hform.consumes
    obtain ⟨others, _, rfl⟩ := hitems.consumes
    exact ⟨first ++ others, by simp [hne], by simp⟩

end

theorem Form.suffix {k : Nat} {tokens rest : List Token} {value : Value π}
    (h : Form k tokens value rest) : rest <:+ tokens := by
  obtain ⟨used, _, rfl⟩ := h.consumes
  exact List.suffix_append used rest

theorem Form.ne_nil {k : Nat} {tokens rest : List Token} {value : Value π}
    (h : Form k tokens value rest) : tokens ≠ [] := by
  obtain ⟨used, hused, rfl⟩ := h.consumes
  simp [hused]

theorem Items.ne_nil {k : Nat} {closer : Token} {tokens rest : List Token}
    {values : List (Value π)} (h : Items k closer tokens values rest) : tokens ≠ [] := by
  obtain ⟨used, hused, rfl⟩ := h.consumes
  simp [hused]

/-- A token that is neither a keyword nor a string is a number, a constant, or the symbol of its own
name. -/
theorem scalar_cases (π : Type) (token : Token) :
    (∃ n, (scalar token : Value π) = .int n) ∨ (∃ x, (scalar token : Value π) = .float x) ∨
      (∃ b, (scalar token : Value π) = .bool b) ∨ (scalar token : Value π) = .nil ∨
      (scalar token : Value π) = .symbol ⟨token⟩ := by
  unfold scalar
  split
  · exact .inl ⟨_, rfl⟩
  · split
    · exact .inr (.inl ⟨_, rfl⟩)
    · split
      · exact .inr (.inr (.inl ⟨_, rfl⟩))
      · split
        · exact .inr (.inr (.inl ⟨_, rfl⟩))
        · split
          · exact .inr (.inr (.inr (.inl rfl)))
          · exact .inr (.inr (.inr (.inr rfl)))

/-- A form carries no metadata: metadata goes to the form inside an annotation. -/
theorem Form.metadata?_eq_none {k : Nat} {tokens rest : List Token} {value : Value π}
    (h : Form k tokens value rest) : value.metadata? = none := by
  cases h with
  | collection _ hgather =>
    cases hgather with
    | unit => rfl
    | list _ => rfl
    | vector => rfl
    | map hmap =>
      obtain ⟨_, _, rfl⟩ := Value.mapOfItems_eq_ok hmap
      rfl
  | shorthand _ _ => rfl
  | annotated _ _ _ _ => rfl
  | literal _ hdenotes =>
    cases hdenotes with
    | keyword _ => rfl
    | string _ _ => rfl
    | scalar _ _ =>
      rcases scalar_cases π _ with ⟨_, h⟩ | ⟨_, h⟩ | ⟨_, h⟩ | h | h <;> (rw [h]; rfl)

/-! ## The rules and the choices of the reader -/

theorem ofOpener?_eq_some_iff {token : Token} {bracket : Bracket} :
    Bracket.ofOpener? token = some bracket ↔ token = bracket.opener := by
  constructor
  · intro h
    unfold Bracket.ofOpener? at h
    split at h
    · next heq =>
      cases h
      exact heq
    · split at h
      · next heq =>
        cases h
        exact heq
      · split at h
        · next heq =>
          cases h
          exact heq
        · cases h
  · rintro rfl
    cases bracket <;> rfl

theorem shorthandTag?_eq_some_iff {token : Token} {tag : Symbol} :
    Reader.shorthandTag? token = some tag ↔ (token, tag.name) ∈ shorthands := by
  obtain ⟨name⟩ := tag
  simp only [Reader.shorthandTag?, shorthands, List.mem_cons, List.not_mem_nil, Prod.mk.injEq]
  split
  · simp_all [eq_comm]
  · split
    · simp_all [eq_comm]
    · split
      · simp_all [eq_comm]
      · split
        · simp_all [eq_comm]
        · split <;> simp_all [eq_comm]

theorem ofOpener?_of_mem_shorthands {token : Token} {tag : String}
    (h : (token, tag) ∈ shorthands) : Bracket.ofOpener? token = none := by
  simp only [shorthands, List.mem_cons, List.not_mem_nil, Prod.mk.injEq, or_false] at h
  rcases h with ⟨rfl, _⟩ | ⟨rfl, _⟩ | ⟨rfl, _⟩ | ⟨rfl, _⟩ | ⟨rfl, _⟩ <;> decide

theorem not_mem_leaders_iff {token : Token} :
    token ∉ leaders ↔
      Bracket.ofOpener? token = none ∧ Reader.shorthandTag? token = none ∧ token ≠ "^" := by
  simp only [leaders, Bracket.ofOpener?, Reader.shorthandTag?, List.mem_cons, List.not_mem_nil]
  grind

theorem gathers_iff {bracket : Bracket} {items : List (Value π)} {value : Value π} :
    Gathers bracket items value ↔ Reader.collect bracket items = .ok value := by
  constructor
  · intro h
    cases h with
    | unit => rfl
    | list hne => simp [Reader.collect, hne]
    | vector => rfl
    | map hmap => exact hmap
  · intro h
    cases bracket with
    | list =>
      cases items with
      | nil =>
        cases h
        exact .unit
      | cons first others =>
        cases h
        exact .list (List.cons_ne_nil first others)
    | vector =>
      cases h
      exact .vector
    | map => exact .map h

theorem denotes_iff {token : Token} {value : Value π} :
    Denotes token value ↔ literal token = .ok value := by
  constructor
  · intro h
    cases h with
    | keyword hcolon => simp [literal, hcolon]
    | string hquote htext =>
      obtain ⟨others, hothers⟩ := List.head?_eq_some_iff.mp hquote
      simp [literal, hothers, htext, Except.map]
    | scalar hcolon hquote =>
      unfold literal
      split
      · simp_all
      · simp_all
      · rfl
  · intro h
    unfold literal at h
    split at h
    · next name hname =>
      cases h
      exact .keyword hname
    · next others hothers =>
      cases htext : unquote token with
      | error error =>
        rw [htext] at h
        cases h
      | ok text =>
        rw [htext] at h
        cases h
        exact .string (by simp [hothers]) htext
    · next hcolon hquote =>
      cases h
      refine .scalar ?_ ?_
      · intro hhead
        obtain ⟨others, hothers⟩ := List.head?_eq_some_iff.mp hhead
        exact hcolon others hothers
      · intro hhead
        obtain ⟨others, hothers⟩ := List.head?_eq_some_iff.mp hhead
        exact hquote others hothers

end Grammar

/-! ## How the reader runs -/

namespace Reader

theorem run_orFail {ε α : Type} (cause : ε → ReadError) (result : Except ε α)
    (tokens : List Token) :
    (orFail cause result).run tokens =
      match result with
      | .ok value => .ok value tokens
      | .error error => .error (cause error) tokens := by
  cases result <;> rfl

/-- A sequence of two steps succeeds exactly if both do. -/
theorem run_bind_eq_ok_iff {α β : Type} {first : ReadM α} {next : α → ReadM β}
    {tokens rest : List Token} {result : β} :
    (first >>= next).run tokens = .ok result rest ↔
      ∃ a middle, first.run tokens = .ok a middle ∧ (next a).run middle = .ok result rest := by
  rw [EStateM.run_bind]
  cases first.run tokens with
  | error _ _ => simp
  | ok a middle =>
    constructor
    · exact fun h => ⟨a, middle, rfl, h⟩
    · rintro ⟨_, _, ⟨⟩, h⟩
      exact h

theorem run_orFail_eq_ok_iff {ε α : Type} {cause : ε → ReadError} {result : Except ε α} {value : α}
    {tokens rest : List Token} :
    (orFail cause result).run tokens = .ok value rest ↔ result = .ok value ∧ tokens = rest := by
  cases result <;> simp [run_orFail]

theorem run_items_nil (item : ReadM (Value π)) (bracket : Bracket) (fuel : Nat) :
    (items item bracket fuel).run [] = .error (.unterminated bracket) [] := by
  cases fuel <;> rfl

theorem run_items_closer (item : ReadM (Value π)) (bracket : Bracket) (fuel : Nat)
    (tokens : List Token) :
    (items item bracket (fuel + 1)).run (bracket.closer :: tokens) = .ok [] tokens := by
  simp only [items, EStateM.run_bind, EStateM.run_get, ↓reduceIte, EStateM.run_set,
    EStateM.run_pure]

theorem run_items_cons {item : ReadM (Value π)} {bracket : Bracket} {token : Token} {fuel : Nat}
    {tokens : List Token} (h : token ≠ bracket.closer) :
    (items item bracket (fuel + 1)).run (token :: tokens) =
      (do return (← item) :: (← items item bracket fuel) : ReadM _).run (token :: tokens) := by
  simp only [items, EStateM.run_bind, EStateM.run_get, if_neg h]

theorem run_items_cons_eq_ok_iff {item : ReadM (Value π)} {bracket : Bracket} {token : Token}
    {fuel : Nat} {tokens rest : List Token} {values : List (Value π)} (h : token ≠ bracket.closer) :
    (items item bracket (fuel + 1)).run (token :: tokens) = .ok values rest ↔
      ∃ first middle others, item.run (token :: tokens) = .ok first middle ∧
        (items item bracket fuel).run middle = .ok others rest ∧ first :: others = values := by
  rw [run_items_cons h]
  simp only [run_bind_eq_ok_iff, EStateM.run_pure, EStateM.Result.ok.injEq]
  constructor
  · rintro ⟨first, middle, hfirst, others, _, hothers, hvalues, rfl⟩
    exact ⟨first, middle, others, hfirst, hothers, hvalues⟩
  · rintro ⟨first, middle, others, hfirst, hothers, hvalues⟩
    exact ⟨first, middle, hfirst, others, rest, hothers, hvalues, rfl⟩

theorem run_collection_cons_eq_ok_iff {item : ReadM (Value π)} {bracket : Bracket} {token : Token}
    {tokens rest : List Token} {value : Value π} :
    (collection item bracket).run (token :: tokens) = .ok value rest ↔
      ∃ values, (items item bracket tokens.length).run tokens = .ok values rest ∧
        collect bracket values = .ok value := by
  have hsteps : (collection item bracket).run (token :: tokens) =
      (do orFail .invalidMap (collect bracket (← items item bracket tokens.length))).run tokens :=
    rfl
  rw [hsteps]
  simp only [run_bind_eq_ok_iff, run_orFail_eq_ok_iff]
  constructor
  · rintro ⟨values, _, hvalues, hvalue, rfl⟩
    exact ⟨values, hvalues, hvalue⟩
  · rintro ⟨values, hvalues, hvalue⟩
    exact ⟨values, rest, hvalues, hvalue, rfl⟩

theorem run_annotated_eq_ok_iff {item : ReadM (Value π)} {tokens rest : List Token}
    {value : Value π} :
    (annotated item).run tokens = .ok value rest ↔
      ∃ metadata middle form attached, item.run tokens = .ok metadata middle ∧
        item.run middle = .ok form rest ∧ form.withMetadata metadata = .ok attached ∧
        .sugar withMetadataTag attached (some metadata) none = value := by
  simp only [annotated, run_bind_eq_ok_iff, run_orFail_eq_ok_iff, EStateM.run_pure,
    EStateM.Result.ok.injEq]
  constructor
  · rintro ⟨metadata, middle, hmetadata, form, _, hform, attached, _, ⟨hattach, rfl⟩, hvalue, rfl⟩
    exact ⟨metadata, middle, form, attached, hmetadata, hform, hattach, hvalue⟩
  · rintro ⟨metadata, middle, form, attached, hmetadata, hform, hattach, hvalue⟩
    exact ⟨metadata, middle, hmetadata, form, rest, hform, attached, rest, ⟨hattach, rfl⟩, hvalue,
      rfl⟩

theorem run_atom_cons (item : ReadM (Value π)) (token : Token) (tokens : List Token) :
    (atom item).run (token :: tokens) =
      match shorthandTag? token with
      | some tag =>
        match item.run tokens with
        | .ok value rest => .ok (.sugar tag value none none) rest
        | .error error rest => .error error rest
      | none =>
        if token = "^" then (annotated item).run tokens
        else
          match literal token with
          | .ok value => .ok value tokens
          | .error error => .error error tokens := by
  simp only [atom, next, EStateM.run_bind, EStateM.run_get, EStateM.run_set, EStateM.run_pure]
  cases shorthandTag? token with
  | some tag =>
    simp only [EStateM.run_bind, EStateM.run_pure]
    cases item.run tokens <;> rfl
  | none =>
    dsimp only
    split
    · rfl
    · rw [run_orFail]
      cases (literal token : Except ReadError (Value π)) <;> rfl

theorem run_form_nil (limit depth : Nat) :
    (form limit (depth + 1) : ReadM (Value π)).run [] = .error .unexpectedEnd [] := rfl

theorem run_form_cons (limit depth : Nat) (token : Token) (tokens : List Token) :
    (form limit (depth + 1) : ReadM (Value π)).run (token :: tokens) =
      match Bracket.ofOpener? token with
      | some bracket => (collection (form limit depth) bracket).run (token :: tokens)
      | none => (atom (form limit depth)).run (token :: tokens) := by
  simp only [form, peek, EStateM.run_bind, EStateM.run_get, EStateM.run_pure]
  cases Bracket.ofOpener? token <;> rfl

theorem run_forms_nil (limit fuel : Nat) :
    (forms limit fuel : ReadM (List (Value π))).run [] = .ok [] [] := by
  cases fuel <;> rfl

theorem run_forms_cons (limit fuel : Nat) (token : Token) (tokens : List Token) :
    (forms limit (fuel + 1) : ReadM (List (Value π))).run (token :: tokens) =
      match (form limit limit).run (token :: tokens) with
      | .ok first rest =>
        match (forms limit fuel).run rest with
        | .ok others rest => .ok (first :: others) rest
        | .error error rest => .error error rest
      | .error error rest => .error error rest := by
  simp only [forms, hasNext, EStateM.run_bind, EStateM.run_get, EStateM.run_pure,
    List.isEmpty_cons, Bool.not_false, ↓reduceIte]
  cases (form limit limit : ReadM (Value π)).run (token :: tokens) with
  | error _ _ => rfl
  | ok first rest =>
    dsimp only
    cases (forms limit fuel : ReadM (List (Value π))).run rest <;> rfl

end Reader

/-! ## Soundness -/

namespace Grammar

open Reader

section

variable {k : Nat} {item : ReadM (Value π)}
  (hitem : ∀ {tokens rest : List Token} {value : Value π},
    item.run tokens = .ok value rest → Form k tokens value rest)

include hitem

theorem items_sound {bracket : Bracket} (fuel : Nat) {tokens rest : List Token}
    {values : List (Value π)} (h : (items item bracket fuel).run tokens = .ok values rest) :
    Items k bracket.closer tokens values rest := by
  induction fuel generalizing tokens values with
  | zero => cases h
  | succ fuel ih =>
    cases tokens with
    | nil =>
      rw [run_items_nil] at h
      cases h
    | cons token tokens =>
      by_cases hcloser : token = bracket.closer
      · subst hcloser
        rw [run_items_closer] at h
        cases h
        exact .nil
      · obtain ⟨first, middle, others, hfirst, hothers, rfl⟩ :=
          (run_items_cons_eq_ok_iff hcloser).mp h
        exact .cons (by simpa using hcloser) (hitem hfirst) (ih hothers)

theorem atom_sound {token : Token} {tokens rest : List Token} {value : Value π}
    (hopener : Bracket.ofOpener? token = none)
    (h : (atom item).run (token :: tokens) = .ok value rest) :
    Form (k + 1) (token :: tokens) value rest := by
  rw [run_atom_cons] at h
  cases htag : shorthandTag? token with
  | some tag =>
    cases hform : item.run tokens with
    | error error middle => simp [htag, hform] at h
    | ok inner middle =>
      simp only [htag, hform, EStateM.Result.ok.injEq] at h
      obtain ⟨rfl, rfl⟩ := h
      exact .shorthand (shorthandTag?_eq_some_iff.mp htag) (hitem hform)
  | none =>
    simp only [htag] at h
    by_cases hcaret : token = "^"
    · subst hcaret
      rw [if_pos rfl] at h
      obtain ⟨metadata, middle, inner, attached, hmetadata, hform, hattach, rfl⟩ :=
        run_annotated_eq_ok_iff.mp h
      -- The inner form was just read, so its slot for metadata is still free.
      have hnone := (hitem hform).metadata?_eq_none
      obtain ⟨⟨hnil, hunit⟩, rfl⟩ := (Value.withMetadata_eq_ok_iff hnone).mp hattach
      exact .annotated (hitem hmetadata) (hitem hform) hnil hunit
    · rw [if_neg hcaret] at h
      cases hliteral : (literal token : Except ReadError (Value π)) with
      | error error => simp [hliteral] at h
      | ok denoted =>
        simp only [hliteral, EStateM.Result.ok.injEq] at h
        obtain ⟨rfl, rfl⟩ := h
        exact .literal (not_mem_leaders_iff.mpr ⟨hopener, htag, hcaret⟩) (denotes_iff.mpr hliteral)

end

/-- What the reader returns, the grammar derives. -/
theorem form_sound (limit : Nat) {depth : Nat} {tokens rest : List Token} {value : Value π}
    (h : (form limit depth).run tokens = .ok value rest) : Form depth tokens value rest := by
  induction depth generalizing tokens value rest with
  | zero => cases h
  | succ depth ih =>
    cases tokens with
    | nil =>
      rw [run_form_nil] at h
      cases h
    | cons token tokens =>
      rw [run_form_cons] at h
      cases hopener : Bracket.ofOpener? token with
      | some bracket =>
        obtain rfl := ofOpener?_eq_some_iff.mp hopener
        simp only [hopener] at h
        obtain ⟨values, hitems, hcollect⟩ := run_collection_cons_eq_ok_iff.mp h
        exact .collection (items_sound ih _ hitems) (gathers_iff.mpr hcollect)
      | none =>
        simp only [hopener] at h
        exact atom_sound ih hopener h

/-! ## Completeness -/

theorem Items.complete {k : Nat} {bracket : Bracket} {item : ReadM (Value π)}
    (hitem : ∀ {tokens rest : List Token} {value : Value π},
      Form k tokens value rest → item.run tokens = .ok value rest)
    {values : List (Value π)} {tokens rest : List Token}
    (h : Items k bracket.closer tokens values rest) (fuel : Nat) (hfuel : tokens.length ≤ fuel) :
    (items item bracket fuel).run tokens = .ok values rest := by
  induction values generalizing tokens fuel with
  | nil =>
    cases h
    cases fuel with
    | zero => simp at hfuel
    | succ fuel => exact run_items_closer item bracket fuel rest
  | cons value values ih =>
    cases h with
    | cons hcloser hform hitems =>
      have hread := hitem hform
      -- The first form takes off a token, so the rest needs less fuel.
      obtain ⟨used, hused, rfl⟩ := hform.consumes
      cases used with
      | nil => exact absurd rfl hused
      | cons token used =>
        cases fuel with
        | zero => simp at hfuel
        | succ fuel =>
          simp only [List.cons_append, List.length_cons, List.length_append] at hfuel
          have hothers := ih hitems fuel (by omega)
          rw [List.cons_append] at hread hcloser ⊢
          exact (run_items_cons_eq_ok_iff (by simpa using hcloser)).mpr
            ⟨value, _, values, hread, hothers, rfl⟩

/-- What the grammar derives, the reader returns. -/
theorem Form.complete (limit : Nat) {depth : Nat} {tokens rest : List Token} {value : Value π}
    (h : Form depth tokens value rest) : (form limit depth).run tokens = .ok value rest := by
  induction depth generalizing tokens value rest with
  | zero => cases h
  | succ depth ih =>
    cases h with
    | @collection _ bracket tokens _ _ _ hitems hgather =>
      have hread := hitems.complete ih tokens.length (Nat.le_refl _)
      rw [run_form_cons, ofOpener?_eq_some_iff.mpr rfl]
      exact run_collection_cons_eq_ok_iff.mpr ⟨_, hread, gathers_iff.mp hgather⟩
    | @shorthand _ token tag tokens _ inner htag hform =>
      have hopener := ofOpener?_of_mem_shorthands htag
      have htag : shorthandTag? token = some ⟨tag⟩ := shorthandTag?_eq_some_iff.mpr htag
      simp [run_form_cons, hopener, run_atom_cons, htag, ih hform]
    | @annotated _ tokens middle _ metadata inner hmetadata hform hnil hunit =>
      have hattach : inner.withMetadata metadata = .ok (inner.setMetadata (some metadata)) :=
        (Value.withMetadata_eq_ok_iff hform.metadata?_eq_none).mpr ⟨⟨hnil, hunit⟩, rfl⟩
      have hcaret : Bracket.ofOpener? "^" = none ∧ shorthandTag? "^" = none := by decide
      simp only [run_form_cons, hcaret, run_atom_cons, ↓reduceIte]
      exact run_annotated_eq_ok_iff.mpr ⟨_, middle, inner, _, ih hmetadata, ih hform, hattach, rfl⟩
    | literal hleader hdenotes =>
      obtain ⟨hopener, htag, hcaret⟩ := not_mem_leaders_iff.mp hleader
      simp [run_form_cons, hopener, run_atom_cons, htag, hcaret, denotes_iff.mp hdenotes]

/-! ## Source texts -/

/-- A text without tokens reads as `unit`, and any other text as the form that its tokens start
with. -/
theorem read_eq_ok_iff {source : String} {value : Value π} :
    read source = .ok value ↔
      (tokenize source = [] ∧ value = .unit) ∨
        ∃ rest, Form maxReadDepth (tokenize source) value rest := by
  unfold read
  cases htokens : tokenize source with
  | nil =>
    constructor
    · intro h
      cases h
      exact .inl ⟨rfl, rfl⟩
    · rintro (⟨_, rfl⟩ | ⟨rest, hform⟩)
      · rfl
      · exact absurd rfl hform.ne_nil
  | cons token tokens =>
    simp only [run]
    constructor
    · intro h
      split at h
      · next hread =>
        cases h
        exact .inr ⟨_, form_sound maxReadDepth hread⟩
      · cases h
    · rintro (⟨hnil, _⟩ | ⟨rest, hform⟩)
      · cases hnil
      · rw [hform.complete maxReadDepth]

/-- A text whose tokens are one form has that form only. -/
theorem readAll_of_form {source : String} {value : Value π}
    (h : Form maxReadDepth (tokenize source) value []) : readAll source = .ok [value] := by
  unfold readAll
  cases htokens : tokenize source with
  | nil => exact absurd htokens h.ne_nil
  | cons token tokens =>
    rw [htokens] at h
    simp only [run, List.length_cons, run_forms_cons, h.complete maxReadDepth, run_forms_nil]

/-! ## The grammar is what the reader reads -/

/-- A fresh reader with the limit `limit` returns a value and leaves some tokens exactly if the
grammar derives that form with a budget of `limit`. -/
theorem form_eq_ok_iff (limit : Nat) (tokens : List Token) (value : Value π) (rest : List Token) :
    (form limit limit).run tokens = .ok value rest ↔ Form limit tokens value rest :=
  ⟨form_sound limit, Form.complete limit⟩

end Grammar

end MiniLisp
