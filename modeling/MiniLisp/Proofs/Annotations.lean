import MiniLisp.Proofs.Cursors
import MiniLisp.Proofs.Normalisation
import MiniLisp.Proofs.ReadErrors

/-!
# Where metadata is

The reader attaches metadata in one place: to the form in `^metadata form`, which it keeps together
with the form of its metadata. So in what it returns, the metadata of a value can be told from where
the value is. A form behind `^` carries what is written behind the `^`, and no other value carries
anything. This is true of the whole tree of a value, its metadata included, and of `^` behind `^`,
where the form that gets the metadata is again a form together with its metadata.

A form that was just read carries no metadata, so it never has any when the reader attaches some.

Results:
1. `IsForm.sugar_cases`: the two kinds of shorthands.
2. `InPlace.child`: one step down in a tree, and `InPlace.of_node` for the tree of a form.
3. `metadata_eq_of_performAll`: the calls of a cursor fail on metadata for `nil` and `unit` only.
4. `metadata_placement`: the trees that are read, and the errors that are not met.
-/

namespace MiniLisp

variable {π : Type}

open NormalisationLemmas

/-! ## Trees of values -/

namespace Value

/-- How a value belongs to another one. -/
inductive Link where
  /-- An item of a list or a vector. -/
  | item
  /-- The value of a key. -/
  | entry
  /-- The form that a shorthand applies to. -/
  | form
  /-- The form of the metadata in a shorthand. -/
  | metaForm
  /-- The metadata that is attached to a value. -/
  | metadata
deriving DecidableEq, Repr

/-- `Child parent link x`: the value `x` belongs to `parent`. -/
inductive Child : Value π → Link → Value π → Prop
  | listItem {items : List (Value π)} {md : Option (Value π)} {x : Value π} :
      x ∈ items → Child (.list items md) .item x
  | vectorItem {items : List (Value π)} {md : Option (Value π)} {x : Value π} :
      x ∈ items → Child (.vector items md) .item x
  | entry {entries : List (MapKey × Value π)} {md : Option (Value π)} {key : MapKey} {x : Value π} :
      (key, x) ∈ entries → Child (.map entries md) .entry x
  | form {tag : Symbol} {x : Value π} {metaForm md : Option (Value π)} :
      Child (.sugar tag x metaForm md) .form x
  | metaForm {tag : Symbol} {form x : Value π} {md : Option (Value π)} :
      Child (.sugar tag form (some x) md) .metaForm x
  | metadata {value x : Value π} : value.metadata? = some x → Child value .metadata x

/-- Where a value is in a tree: at the top, or as a child of another value. -/
inductive Place (π : Type) where
  | top
  | under (parent : Value π) (link : Link)

/-- `Node root place x`: the value `x` is in the tree of `root`, at the given place. -/
inductive Node (root : Value π) : Place π → Value π → Prop
  | top : Node root .top root
  | child {place : Place π} {parent x : Value π} {link : Link} :
      Node root place parent → Child parent link x → Node root (.under parent link) x

/-- The form of the metadata, in a shorthand that attaches some. -/
def annotation? : Value π → Option (Value π)
  | .sugar tag _ metaForm _ => if tag = Reader.withMetadataTag then metaForm else none
  | _ => none

/-- The form of the metadata, at the place of the form that the metadata goes to. -/
def Place.annotation? : Place π → Option (Value π)
  | .under parent .form => parent.annotation?
  | _ => none

theorem annotation?_sugar (tag : Symbol) (form : Value π) (metaForm md : Option (Value π)) :
    (sugar tag form metaForm md).annotation? =
      if tag = Reader.withMetadataTag then metaForm else none := rfl

theorem annotation?_eq_some_iff {value metadata : Value π} :
    value.annotation? = some metadata ↔
      ∃ form md, value = .sugar Reader.withMetadataTag form (some metadata) md := by
  constructor
  · intro h
    cases value with
    | sugar tag form metaForm md =>
      rw [annotation?_sugar] at h
      split at h
      · next htag =>
        subst htag h
        exact ⟨form, md, rfl⟩
      · cases h
    | _ => cases h
  · rintro ⟨form, md, rfl⟩
    rw [annotation?_sugar, if_pos rfl]

theorem Place.annotation?_eq_some_iff {place : Place π} {metadata : Value π} :
    place.annotation? = some metadata ↔
      ∃ form md, place = .under (.sugar Reader.withMetadataTag form (some metadata) md) .form := by
  constructor
  · intro h
    cases place with
    | top => cases h
    | under parent link =>
      cases link with
      | form =>
        obtain ⟨form, md, rfl⟩ := Value.annotation?_eq_some_iff.mp h
        exact ⟨form, md, rfl⟩
      | _ => cases h
  · rintro ⟨form, md, rfl⟩
    exact Value.annotation?_eq_some_iff.mpr ⟨form, md, rfl⟩

end Value

/-! ## Forms -/

namespace Grammar

open Value

/-- The value is that of a form somewhere among the tokens. -/
def IsForm (tokens : List Token) (value : Value π) : Prop :=
  ∃ k start rest, start <:+ tokens ∧ Form k start value rest

theorem Form.isForm {k : Nat} {tokens rest : List Token} {value : Value π}
    (h : Form k tokens value rest) : IsForm tokens value :=
  ⟨k, tokens, rest, List.suffix_rfl, h⟩

theorem IsForm.mono {start tokens : List Token} {value : Value π} (h : IsForm start value)
    (hstart : start <:+ tokens) : IsForm tokens value := by
  obtain ⟨k, front, rest, hfront, hform⟩ := h
  exact ⟨k, front, rest, hfront.trans hstart, hform⟩

theorem IsForm.metadata?_eq_none {tokens : List Token} {value : Value π} (h : IsForm tokens value) :
    value.metadata? = none := by
  obtain ⟨_, _, _, _, hform⟩ := h
  exact hform.metadata?_eq_none

theorem Items.isForm {k : Nat} {closer : Token} {tokens rest : List Token}
    {values : List (Value π)} (h : Items k closer tokens values rest) :
    ∀ x ∈ values, IsForm tokens x := by
  induction values generalizing tokens with
  | nil => exact List.forall_mem_nil _
  | cons value values ih =>
    cases h with
    | cons _ hform hitems =>
      exact List.forall_mem_cons.mpr
        ⟨hform.isForm, fun x hx => (ih hitems x hx).mono hform.suffix⟩

theorem Denotes.not_sugar {token : Token} {tag : Symbol} {form : Value π}
    {metaForm md : Option (Value π)} : ¬ Denotes token (.sugar tag form metaForm md) := by
  intro h
  cases parts_eq_nil_of_denotes h

theorem Gathers.not_sugar {bracket : Bracket} {items : List (Value π)} {tag : Symbol}
    {form : Value π} {metaForm md : Option (Value π)} :
    ¬ Gathers bracket items (.sugar tag form metaForm md) := by
  intro h
  cases h with
  | map hmap =>
    obtain ⟨_, _, hvalue⟩ := Value.mapOfItems_eq_ok hmap
    cases hvalue

/-- A shorthand applies to a form. Where it attaches metadata, the metadata is a form too. -/
theorem IsForm.sugar_cases {tokens : List Token} {tag : Symbol} {form : Value π}
    {metaForm md : Option (Value π)} (h : IsForm tokens (.sugar tag form metaForm md)) :
    (tag ≠ Reader.withMetadataTag ∧ metaForm = none ∧ IsForm tokens form) ∨
      ∃ metadata inner, tag = Reader.withMetadataTag ∧ metaForm = some metadata ∧
        form = inner.setMetadata (some metadata) ∧ (inner ≠ .nil ∧ inner ≠ .unit) ∧
        IsForm tokens inner ∧ IsForm tokens metadata := by
  obtain ⟨k, start, rest, hstart, hform⟩ := h
  cases hform with
  | collection _ hgather => exact absurd hgather Gathers.not_sugar
  | literal _ hdenotes => exact absurd hdenotes Denotes.not_sugar
  | shorthand htag hinner =>
    refine .inl ⟨?_, rfl, hinner.isForm.mono ((List.suffix_cons _ _).trans hstart)⟩
    rintro ⟨⟩
    have htags : ∀ pair ∈ shorthands, pair.2 ≠ "with-meta" := by decide
    exact htags _ htag rfl
  | annotated hmetadata hinner hnil hunit =>
    have hbehind := (List.suffix_cons _ _).trans hstart
    exact .inr ⟨_, _, rfl, rfl, rfl, ⟨hnil, hunit⟩,
      hinner.isForm.mono (hmetadata.suffix.trans hbehind), hmetadata.isForm.mono hbehind⟩

/-- The parts of a form that is no shorthand are forms. -/
theorem IsForm.of_mem_parts {tokens : List Token} {value part : Value π} (h : IsForm tokens value)
    (hkind : value.kind ≠ .sugar) (hpart : part ∈ value.parts) : IsForm tokens part := by
  obtain ⟨k, start, rest, hstart, hform⟩ := h
  cases hform with
  | collection hitems hgather =>
    have hitem := hitems.isForm part (mem_of_mem_parts_of_gathers hgather hpart)
    exact hitem.mono ((List.suffix_cons _ _).trans hstart)
  | shorthand _ _ => exact absurd rfl hkind
  | annotated _ _ _ _ => exact absurd rfl hkind
  | literal _ hdenotes =>
    rw [parts_eq_nil_of_denotes hdenotes] at hpart
    cases hpart

/-! ## Trees of forms -/

/-- What is true of every value in the tree of a form: without its metadata it is a form, and its
metadata is the one that its place calls for, which is a form as well. -/
structure InPlace (tokens : List Token) (place : Place π) (value : Value π) : Prop where
  isForm : IsForm tokens (value.setMetadata none)
  metadata_eq : value.metadata? = place.annotation?
  annotation : ∀ metadata, place.annotation? = some metadata → IsForm tokens metadata

theorem IsForm.inPlace {tokens : List Token} {place : Place π} {value : Value π}
    (h : IsForm tokens value) (hplace : place.annotation? = none) : InPlace tokens place value where
  isForm := by rwa [setMetadata_none h.metadata?_eq_none]
  metadata_eq := h.metadata?_eq_none.trans hplace.symm
  annotation := by
    intro metadata hmetadata
    cases hplace.symm.trans hmetadata

/-- From a value to its children. -/
theorem InPlace.child {tokens : List Token} {place : Place π} {parent x : Value π} {link : Link}
    (h : InPlace tokens place parent) (hchild : Child parent link x) :
    InPlace tokens (.under parent link) x := by
  have hform := h.isForm
  cases hchild with
  | listItem hmem =>
    have hitem : IsForm tokens x := hform.of_mem_parts (by rintro ⟨⟩) hmem
    exact hitem.inPlace rfl
  | vectorItem hmem =>
    have hitem : IsForm tokens x := hform.of_mem_parts (by rintro ⟨⟩) hmem
    exact hitem.inPlace rfl
  | entry hmem =>
    have hentry : IsForm tokens x := hform.of_mem_parts (by rintro ⟨⟩) (List.mem_map_of_mem hmem)
    exact hentry.inPlace rfl
  | @form tag _ _ md =>
    rcases hform.sugar_cases with ⟨htag, rfl, hinner⟩ |
      ⟨metadata, inner, rfl, rfl, rfl, htakes, hinner, hmetadata⟩
    · exact hinner.inPlace ((annotation?_sugar tag x none md).trans (if_neg htag))
    · have hplace : (Place.under (.sugar Reader.withMetadataTag (inner.setMetadata (some metadata))
          (some metadata) md) .form).annotation? = some metadata :=
        Place.annotation?_eq_some_iff.mpr ⟨_, md, rfl⟩
      refine ⟨?_, ?_, ?_⟩
      · rwa [setMetadata_setMetadata, setMetadata_none hinner.metadata?_eq_none]
      · rw [metadata?_setMetadata htakes, hplace]
      · intro other hother
        cases hplace.symm.trans hother
        exact hmetadata
  | metaForm =>
    rcases hform.sugar_cases with ⟨_, hnone, _⟩ | ⟨metadata, _, _, hsome, _, _, _, hmetadata⟩
    · cases hnone
    · cases hsome
      exact hmetadata.inPlace rfl
  | metadata hmetadata =>
    have hattached : IsForm tokens x := h.annotation x (h.metadata_eq.symm.trans hmetadata)
    exact hattached.inPlace rfl

/-- From a form to its whole tree. -/
theorem InPlace.of_node {tokens : List Token} {root x : Value π} {place : Place π}
    (hroot : IsForm tokens root) (h : Node root place x) : InPlace tokens place x := by
  induction h with
  | top => exact hroot.inPlace rfl
  | child _ hchild ih => exact ih.child hchild

theorem InPlace.isSome_iff {tokens : List Token} {place : Place π} {tag : Symbol} {form : Value π}
    {metaForm md : Option (Value π)} (h : InPlace tokens place (.sugar tag form metaForm md)) :
    metaForm.isSome = true ↔ tag = Reader.withMetadataTag := by
  rcases h.isForm.sugar_cases with ⟨htag, rfl, _⟩ | ⟨_, _, rfl, rfl, _⟩
  · simp [htag]
  · simp

end Grammar

/-! ## Errors -/

namespace Cursor

theorem Call.metadata_eq_of_run {limit levels : Nat} {call : Call} {tokens rest : List Token}
    {cause : MetadataError}
    (h : (call.reader limit levels : ReadM (Reply π)).run tokens = .error (.metadata cause) rest) :
    cause = .unsupported .nil ∨ cause = .unsupported .unit := by
  cases call with
  | hasNext => cases h
  | peek => cases tokens <;> cases h
  | next => cases tokens <;> cases h
  | form =>
    rcases Reader.run_bind_eq_error h with hform | ⟨_, _, _, hpure⟩
    · exact Reader.metadata_eq_of_run_form hform
    · cases hpure
  | collection bracket =>
    rcases Reader.run_bind_eq_error h with hcollection | ⟨_, _, _, hpure⟩
    · exact Reader.metadata_eq_of_run_collection hcollection
    · cases hpure
  | atom =>
    rcases Reader.run_bind_eq_error h with hatom | ⟨_, _, _, hpure⟩
    · exact Reader.metadata_eq_of_run_atom hatom
    · cases hpure

/-- However a cursor was called before, metadata is refused for `nil` and `unit` only. -/
theorem metadata_eq_of_performAll {calls : List Call} {cursor : Cursor} (hplaced : cursor.Placed)
    {steps : List (Step π)} (hsteps : performAll calls cursor = some steps) {step : Step π}
    (hstep : step ∈ steps) {cause : MetadataError}
    (hresult : step.result = .error (.metadata cause)) :
    cause = .unsupported .nil ∨ cause = .unsupported .unit := by
  obtain ⟨_, hperformed, _, horderly⟩ := exists_performAll (π := π) calls hplaced
  cases hperformed.symm.trans hsteps
  have hcall := horderly step hstep
  have htracks := tracks_perform (π := π) step.call hcall.placed
  rw [hcall.performed, hresult] at htracks
  obtain ⟨rest, hrun⟩ := htracks.exists_error
  exact Call.metadata_eq_of_run hrun

/-- What a fresh cursor reads is a form. -/
theorem isForm_of_run_readForm {tokens : List Token} {maxDepth : Nat} {value : Value π}
    {after : Cursor}
    (h : readForm.run.run (ofTokens tokens maxDepth) = some (.ok value, after)) :
    Grammar.IsForm tokens value := by
  have hplaced : (ofTokens tokens maxDepth).Placed := Nat.zero_le _
  have htracks := tracks_readForm (π := π) hplaced
  rw [h] at htracks
  obtain ⟨rest, hrun⟩ := htracks.exists_ok
  exact (Grammar.form_sound maxDepth hrun).isForm

end Cursor

/-! ## Placement -/

open Value Cursor

/-- In the tree of a form that a fresh cursor reads,

* a value carries metadata exactly if it is the form in a shorthand that attaches metadata, and then
  its metadata is the form of the metadata in that shorthand;
* a shorthand has a form of metadata exactly if it attaches metadata;
* the form itself carries no metadata.

So no call of a cursor, whatever it was called for before, and no reading of a source text fails
because metadata is attached already. Metadata is refused for `nil` and `unit` only. -/
theorem metadata_placement (tokens : List Token) (maxDepth : Nat) :
    (∀ (value : Value π) (after : Cursor),
      readForm.run.run (ofTokens tokens maxDepth) = some (.ok value, after) →
        value.metadata? = none ∧
        ∀ place node, Node value place node →
          (∀ metadata, node.metadata? = some metadata ↔ ∃ inner md,
            place = .under (.sugar Reader.withMetadataTag inner (some metadata) md) .form) ∧
          ∀ tag inner metaForm md, node = .sugar tag inner metaForm md →
            (metaForm.isSome = true ↔ tag = Reader.withMetadataTag)) ∧
    (∀ (calls : List Call) (steps : List (Step π)),
      performAll calls (ofTokens tokens maxDepth) = some steps →
        ∀ step ∈ steps, ∀ cause, step.result = .error (.metadata cause) →
          cause = .unsupported .nil ∨ cause = .unsupported .unit) ∧
    ∀ source cause,
      (read source : Except ReadError (Value π)) = .error (.metadata cause) ∨
        (readAll source : Except ReadError (List (Value π))) = .error (.metadata cause) →
      cause = .unsupported .nil ∨ cause = .unsupported .unit := by
  refine ⟨?_, ?_, fun _ _ => metadata_eq_of_read⟩
  · intro value after hread
    have hform := isForm_of_run_readForm hread
    refine ⟨hform.metadata?_eq_none, fun place node hnode => ?_⟩
    have hplace := Grammar.InPlace.of_node hform hnode
    constructor
    · intro metadata
      rw [hplace.metadata_eq]
      exact Place.annotation?_eq_some_iff
    · rintro tag inner metaForm md rfl
      exact hplace.isSome_iff
  · intro calls steps hsteps step hstep cause hresult
    exact metadata_eq_of_performAll (Nat.zero_le _) hsteps hstep hresult

/-- A `^` behind a `^`, and a third one in the metadata of the second. The inner shorthand gets `:a`
as any other form would, and wherever else `:a` is attached it comes from a `^` as well. -/
theorem metadata_placement_stacked :
    let tokens : List Token := ["^", ":a", "^", "^", ":b", "m", "c"]
    let a : Value Empty := .keyword ⟨"a"⟩
    let b : Value Empty := .keyword ⟨"b"⟩
    let noted : Value Empty :=
      .sugar Reader.withMetadataTag (.atom (.symbol ⟨"m"⟩) (some b)) (some b) none
    let stacked : Value Empty :=
      .sugar Reader.withMetadataTag (.atom (.symbol ⟨"c"⟩) (some noted)) (some noted) (some a)
    let value : Value Empty := .sugar Reader.withMetadataTag stacked (some a) none
    readForm.run.run (ofTokens tokens 4) =
        some (.ok value, { ofTokens tokens 4 with position := 7 }) ∧
      value.metadata? = none ∧ Node value (.under value .form) stacked ∧
      ∀ place node, Node value place node → node.metadata? = some a →
        ∃ inner md, place = .under (.sugar Reader.withMetadataTag inner (some a) md) .form := by
  intro tokens a b noted stacked value
  have hread : readForm.run.run (ofTokens tokens 4) =
      some (.ok value, { ofTokens tokens 4 with position := 7 }) :=
    run_readForm_ofTokens (show _ = Reader.leaves [] (.ok value) from rfl)
  obtain ⟨hnone, htree⟩ := (metadata_placement tokens 4).1 value _ hread
  refine ⟨hread, hnone, .child .top .form, fun place node hnode hmetadata => ?_⟩
  exact ((htree place node hnode).1 a).mp hmetadata

end MiniLisp
