import MiniLisp.Proofs.Desugaring
import MiniLisp.Proofs.RoundTrip

/-!
# Printing normalises what was read

A value that was read and printed reads as the same value with its shorthands written out, and from
then on printing and reading change nothing. The values that the reader returns are not all readable
in the sense of `Value.Readable`: they hold shorthands, closing brackets of one collection as
symbols in another, and metadata.

Results:
1. `Form.height_le`: a form is no higher than the budget it was read with.
2. `Form.head?_eq_of_isSymbol`: a symbol is read from the token of its name only. So an item is
   never the symbol that closes its own collection.
3. `Form.legible_desugar`: what is read from tokens of a text is legible once its shorthands are
   written out.
4. `read_print_read`: reading the text of what was read.
-/

namespace MiniLisp

open Token Grammar RoundTripLemmas

variable {π : Type}

/-! ## Definitions -/

/-- The value loses nothing by being printed and read: its floats read back from their texts, and
none of its shorthands applies to the symbol that closes lists. -/
structure Value.Reprintable (value : Value π) : Prop where
  floats : ∀ x md, Within (.atom (.float x) md) value →
    ReadsAs ((Atom.float x).print .readable) (.float x : Value π)
  shorthands : ∀ tag form metaForm md, Within (.sugar tag form metaForm md) value →
    ¬ form.IsSymbol Bracket.list.closer ∧ ∀ m ∈ metaForm, ¬ m.IsSymbol Bracket.list.closer

namespace Value

theorem Reprintable.part {part value : Value π} (h : value.Reprintable)
    (hpart : part ∈ value.parts) : part.Reprintable where
  floats x md hwithin := h.floats x md (.part hpart hwithin)
  shorthands tag form metaForm md hwithin := h.shorthands tag form metaForm md (.part hpart hwithin)

theorem Reprintable.of_parts {value : Value π} (hparts : ∀ part ∈ value.parts, part.Reprintable)
    (hfloat : ∀ x md, value = .atom (.float x) md →
      ReadsAs ((Atom.float x).print .readable) (.float x : Value π))
    (hsugar : ∀ tag form metaForm md, value = .sugar tag form metaForm md →
      ¬ form.IsSymbol Bracket.list.closer ∧ ∀ m ∈ metaForm, ¬ m.IsSymbol Bracket.list.closer) :
    value.Reprintable where
  floats x md hwithin := by
    cases hwithin with
    | refl => exact hfloat x md rfl
    | part hpart hwithin => exact (hparts _ hpart).floats x md hwithin
  shorthands tag form metaForm md hwithin := by
    cases hwithin with
    | refl => exact hsugar tag form metaForm md rfl
    | part hpart hwithin => exact (hparts _ hpart).shorthands tag form metaForm md hwithin

theorem reprintable_atom {a : Atom}
    (h : ∀ x, a = .float x → ReadsAs ((Atom.float x).print .readable) (.float x : Value π))
    (md : Option (Value π)) : (Value.atom a md).Reprintable := by
  refine .of_parts (List.forall_mem_nil _) ?_ nofun
  rintro x md' ⟨⟩
  exact h x rfl

theorem reprintable_sugar {tag : Symbol} {form : Value π} {metaForm md : Option (Value π)}
    (hform : form.Reprintable) (hmeta : ∀ m ∈ metaForm, m.Reprintable)
    (hcloser : ¬ form.IsSymbol Bracket.list.closer ∧
      ∀ m ∈ metaForm, ¬ m.IsSymbol Bracket.list.closer) :
    (Value.sugar tag form metaForm md).Reprintable := by
  refine .of_parts ?_ nofun ?_
  · simpa [parts] using ⟨hform, hmeta⟩
  · rintro _ _ _ _ ⟨⟩
    exact hcloser

/-! ## Metadata -/

theorem Legible.setMetadata {value : Value π} (h : value.Legible) (md : Option (Value π)) :
    (value.setMetadata md).Legible := by
  cases h with
  | nil => exact .nil
  | unit => exact .unit
  | atom ha => exact .atom ha
  | list hne hitems hcloser => exact .list hne hitems hcloser
  | vector hitems hcloser => exact .vector hitems hcloser
  | map hsorted hkeys hvalues hcloser => exact .map hsorted hkeys hvalues hcloser

theorem Reprintable.of_setMetadata {md : Option (Value π)} {value : Value π}
    (h : (value.setMetadata md).Reprintable) : value.Reprintable where
  floats x _ hwithin := by
    cases hwithin with
    | refl => exact h.floats x md .refl
    | part hpart hwithin =>
      rw [← parts_setMetadata md value] at hpart
      exact (h.part hpart).floats x _ hwithin
  shorthands tag form metaForm _ hwithin := by
    cases hwithin with
    | refl => exact h.shorthands tag form metaForm md .refl
    | part hpart hwithin =>
      rw [← parts_setMetadata md value] at hpart
      exact (h.part hpart).shorthands tag form metaForm _ hwithin

/-- Desugaring makes no symbols but the tags inside the lists. -/
theorem isSymbol_of_isSymbol_desugar {name : String} {value : Value π}
    (h : value.desugar.IsSymbol name) : value.IsSymbol name := by
  obtain ⟨md, h⟩ := h
  cases value with
  | atom a md' =>
    cases h
    exact ⟨md, rfl⟩
  | _ => cases h

end Value

/-! ## What the reader returns -/

namespace NormalisationLemmas

theorem parts_eq_nil_of_denotes {token : Token} {value : Value π} (h : Denotes token value) :
    value.parts = [] := by
  cases h with
  | keyword _ => rfl
  | string _ _ => rfl
  | scalar _ _ =>
    rcases scalar_cases π token with ⟨_, h⟩ | ⟨_, h⟩ | ⟨_, h⟩ | h | h <;> (rw [h]; rfl)

theorem eq_name_of_denotes {token : Token} {name : String} {value : Value π}
    (h : Denotes token value) (hsymbol : value.IsSymbol name) : token = name := by
  obtain ⟨md, hvalue⟩ := hsymbol
  cases h with
  | keyword _ => cases hvalue
  | string _ _ => cases hvalue
  | scalar _ _ =>
    rcases scalar_cases π token with ⟨_, h⟩ | ⟨_, h⟩ | ⟨_, h⟩ | h | h <;>
      (rw [h] at hvalue; cases hvalue)
    rfl

/-- A collection has no parts but its items. Not all items need be parts: of the values for one key
of a map only the last is kept. -/
theorem mem_of_mem_parts_of_gathers {bracket : Bracket} {items : List (Value π)}
    {value part : Value π} (h : Gathers bracket items value) (hpart : part ∈ value.parts) :
    part ∈ items := by
  cases h with
  | unit => cases hpart
  | list _ => exact hpart
  | vector => exact hpart
  | map hmap =>
    obtain ⟨pairs, hpairs, rfl⟩ := Value.mapOfItems_eq_ok hmap
    obtain ⟨entry, hentry, rfl⟩ := List.mem_map.mp hpart
    exact (Value.mem_of_mem_toPairs hpairs (Entries.mem_of_mem_ofPairs hentry)).2

end NormalisationLemmas

open NormalisationLemmas

namespace Grammar

mutual

/-- A form is no higher than its budget. -/
theorem Form.height_le {k : Nat} {tokens rest : List Token} {value : Value π} :
    Form k tokens value rest → value.height ≤ k
  | .collection hitems hgather => by
    rw [Value.height_le_succ_iff]
    intro part hpart
    exact hitems.height_le part (mem_of_mem_parts_of_gathers hgather hpart)
  | .shorthand _ hform => by
    rw [Value.height_le_succ_iff]
    simpa [Value.parts] using hform.height_le
  | .annotated hmetadata hform _ _ => by
    rw [Value.height_le_succ_iff]
    simpa [Value.parts, Value.height_setMetadata] using ⟨hform.height_le, hmetadata.height_le⟩
  | .literal _ hdenotes => by
    rw [Value.height_le_succ_iff, parts_eq_nil_of_denotes hdenotes]
    exact List.forall_mem_nil _

theorem Items.height_le {k : Nat} {closer : Token} {tokens rest : List Token}
    {values : List (Value π)} : Items k closer tokens values rest → ∀ x ∈ values, x.height ≤ k
  | .nil => List.forall_mem_nil _
  | .cons _ hform hitems => List.forall_mem_cons.mpr ⟨hform.height_le, hitems.height_le⟩

end

/-- A symbol is read from the token of its name. -/
theorem Form.head?_eq_of_isSymbol {k : Nat} {tokens rest : List Token} {value : Value π}
    {name : String} (h : Form k tokens value rest) (hsymbol : value.IsSymbol name) :
    tokens.head? = some name := by
  obtain ⟨md, rfl⟩ := hsymbol
  cases h with
  | collection _ hgather =>
    cases hgather with
    | map hmap =>
      obtain ⟨_, _, heq⟩ := Value.mapOfItems_eq_ok hmap
      cases heq
  | literal _ hdenotes => exact congrArg some (eq_name_of_denotes hdenotes ⟨md, rfl⟩)

/-- No item is the symbol that closes the collection. -/
theorem Items.not_isSymbol_closer {k : Nat} {closer : Token} {values : List (Value π)}
    {tokens rest : List Token} (h : Items k closer tokens values rest) :
    ∀ x ∈ values, ¬ x.IsSymbol closer := by
  induction values generalizing tokens with
  | nil => exact List.forall_mem_nil _
  | cons value values ih =>
    cases h with
    | cons hhead hform hitems =>
      refine List.forall_mem_cons.mpr ⟨?_, ih hitems⟩
      intro hsymbol
      exact hhead (hform.head?_eq_of_isSymbol hsymbol)

end Grammar

/-! ## What the reader returns is legible -/

namespace NormalisationLemmas

theorem legible_float {x : Binary64}
    (h : ReadsAs ((Atom.float x).print .readable) (.float x : Value π)) :
    (Atom.float x).Legible π := by
  have hlexeme : Lexeme .bare ((Atom.float x).print .readable).toList [] := by
    rw [Atom.print, String.toList_ofList]
    exact x.lexeme_toChars ends_nil
  refine .of_tokenize ?_ h
  rw [tokenize, ← List.append_nil (String.toList _), ofChars_token hlexeme, ofChars_nil]

/-- A literal token of a text is read as a value that reads back. -/
theorem legible_of_denotes {token : Token} {value : Value π} {shape : Shape} {others : List Char}
    (hlexeme : Lexeme shape token.toList others) (hleader : token ∉ leaders)
    (hdenotes : Denotes token value) (h : value.Reprintable) : value.desugar.Legible := by
  cases hdenotes with
  | @keyword name hcolon =>
    have hprint : (Atom.keyword ⟨String.ofList name⟩).print .readable = token := by
      rw [← String.toList_inj, hcolon]
      simp [Atom.print, Keyword.text]
    exact .atom (.of_lexeme (hprint ▸ hlexeme) (hprint ▸ hleader) (.keyword (hprint ▸ hcolon)))
  | string _ _ => exact .atom (Atom.legible_string _)
  | scalar hcolon hquote =>
    rcases scalar_cases π token with ⟨n, hn⟩ | ⟨x, hx⟩ | ⟨b, hb⟩ | hnil | hsymbol
    · rw [hn]
      exact .atom (Atom.legible_int n)
    · rw [hx] at h ⊢
      exact .atom (legible_float (h.floats x none .refl))
    · rw [hb]
      exact .atom (Atom.legible_bool b)
    · rw [hnil]
      exact .nil
    · have hdenotes : Denotes token (.symbol ⟨token⟩ : Value π) := hsymbol ▸ .scalar hcolon hquote
      rw [hsymbol]
      exact .atom (.of_lexeme hlexeme hleader hdenotes)

/-- A key that is read from a text is legible. -/
theorem legible_key {value : Value π} {key : MapKey}
    (hvalue : value.Reprintable → value.desugar.Legible) (hkey : value.toKey = .ok key) :
    key.atom.Legible π := by
  obtain ⟨md, rfl⟩ := Value.toKey_eq_ok hkey
  have hlegible := hvalue (by cases key <;> exact Value.reprintable_atom (by nofun) md)
  cases key <;> (cases hlegible with | atom h => exact h)

/-- A collection of items that are legible, none of which closes it, is legible. -/
theorem legible_of_gathers {bracket : Bracket} {items : List (Value π)} {value : Value π}
    (hgather : Gathers bracket items value) (hclosers : ∀ x ∈ items, ¬ x.IsSymbol bracket.closer)
    (hitems : ∀ x ∈ items, x.Reprintable → x.desugar.Legible) (h : value.Reprintable) :
    value.desugar.Legible := by
  have hparts : ∀ x ∈ value.parts,
      x.desugar.Legible ∧ ¬ x.desugar.IsSymbol bracket.closer := by
    intro x hx
    have hmem := mem_of_mem_parts_of_gathers hgather hx
    refine ⟨hitems x hmem (h.part hx), ?_⟩
    intro hsymbol
    exact hclosers x hmem (Value.isSymbol_of_isSymbol_desugar hsymbol)
  cases hgather with
  | unit => exact .unit
  | list hne =>
    rw [Value.desugar, Value.desugarItems_eq_map]
    refine .list (by simpa using hne) ?_ ?_
    · exact List.forall_mem_map.mpr fun x hx => (hparts x hx).1
    · exact List.forall_mem_map.mpr fun x hx => (hparts x hx).2
  | vector =>
    rw [Value.desugar, Value.desugarItems_eq_map]
    refine .vector ?_ ?_
    · exact List.forall_mem_map.mpr fun x hx => (hparts x hx).1
    · exact List.forall_mem_map.mpr fun x hx => (hparts x hx).2
  | map hmap =>
    obtain ⟨pairs, hpairs, rfl⟩ := Value.mapOfItems_eq_ok hmap
    rw [Value.desugar, Value.desugarEntries_eq_map]
    refine .map (List.pairwise_map.mpr (Entries.sorted_ofPairs pairs)) ?_ ?_ ?_
    · -- Keys are no parts of the map, but they were items, and an item that is a key is an atom.
      refine List.forall_mem_map.mpr fun entry hentry => ?_
      obtain ⟨⟨key, hkey, htoKey⟩, _⟩ :=
        Value.mem_of_mem_toPairs hpairs (Entries.mem_of_mem_ofPairs hentry)
      exact legible_key (hitems key hkey) htoKey
    · exact List.forall_mem_map.mpr fun entry hentry => (hparts _ (List.mem_map_of_mem hentry)).1
    · exact List.forall_mem_map.mpr fun entry hentry => (hparts _ (List.mem_map_of_mem hentry)).2

/-- The tags of the lists that shorthands stand for. -/
def tags : List String :=
  ["quote", "quasiquote", "unquote", "splice-unquote", "deref", "with-meta"]

theorem legible_tag {tag : String} (h : tag ∈ tags) : (Atom.symbol ⟨tag⟩).Legible π := by
  simp only [tags, List.mem_cons, List.not_mem_nil, or_false] at h
  rcases h with rfl | rfl | rfl | rfl | rfl | rfl <;> exact .of_isBareText (by decide) rfl

/-- The list that a shorthand stands for is legible if the parts of the shorthand are. -/
theorem legible_sugar {tag : String} {form : Value π} {metaForm md : Option (Value π)}
    (htag : tag ∈ tags) (h : (Value.sugar ⟨tag⟩ form metaForm md).Reprintable)
    (hparts : ∀ x ∈ (Value.sugar ⟨tag⟩ form metaForm md).parts, x.desugar.Legible) :
    (Value.sugar ⟨tag⟩ form metaForm md).desugar.Legible := by
  have hsymbol : ¬ (Value.symbol ⟨tag⟩ : Value π).IsSymbol Bracket.list.closer := by
    rintro ⟨md, heq⟩
    cases heq
    exact absurd htag (by decide)
  have hclosers : ∀ x ∈ (Value.sugar ⟨tag⟩ form metaForm md).parts,
      ¬ x.IsSymbol Bracket.list.closer := by
    simpa [Value.parts] using h.shorthands _ _ _ _ .refl
  rw [Value.desugar_sugar]
  refine .list (List.cons_ne_nil _ _) ?_ ?_
  · exact List.forall_mem_cons.mpr ⟨.atom (legible_tag htag), List.forall_mem_map.mpr hparts⟩
  · refine List.forall_mem_cons.mpr ⟨hsymbol, List.forall_mem_map.mpr ?_⟩
    intro x hx hcloser
    exact hclosers x hx (Value.isSymbol_of_isSymbol_desugar hcloser)

end NormalisationLemmas

namespace Grammar

mutual

/-- What is read from tokens of a text is legible with its shorthands written out. -/
theorem Form.legible_desugar {k : Nat} {tokens rest : List Token} {value : Value π} :
    Form k tokens value rest →
      (∀ token ∈ tokens, ∃ shape others, Lexeme shape token.toList others) →
      value.Reprintable → value.desugar.Legible
  | .collection hitems hgather => fun htokens h =>
    legible_of_gathers hgather hitems.not_isSymbol_closer
      (hitems.legible_desugar (List.forall_mem_cons.mp htokens).2) h
  | .shorthand hmem hform => fun htokens h => by
    have htags : ∀ pair ∈ shorthands, pair.2 ∈ tags := by decide
    have hinner := hform.legible_desugar (List.forall_mem_cons.mp htokens).2
      (h.part List.mem_cons_self)
    exact legible_sugar (htags _ hmem) h (by simpa [Value.parts] using hinner)
  | .annotated hmetadata hform _ _ => fun htokens h => by
    have htokens := (List.forall_mem_cons.mp htokens).2
    have hmeta := hmetadata.legible_desugar htokens (h.part (by simp [Value.parts]))
    obtain ⟨used, _, rfl⟩ := hmetadata.consumes
    have hinner := hform.legible_desugar (List.forall_mem_append.mp htokens).2
      (h.part List.mem_cons_self).of_setMetadata
    refine legible_sugar (by decide) h ?_
    -- The form got its metadata after it was read, and its text does not show it.
    simpa [Value.parts, Value.desugar_setMetadata] using ⟨hinner.setMetadata _, hmeta⟩
  | .literal hleader hdenotes => fun htokens h => by
    obtain ⟨shape, others, hlexeme⟩ := htokens _ (List.mem_cons_self ..)
    exact legible_of_denotes hlexeme hleader hdenotes h

theorem Items.legible_desugar {k : Nat} {closer : Token} {tokens rest : List Token}
    {values : List (Value π)} :
    Items k closer tokens values rest →
      (∀ token ∈ tokens, ∃ shape others, Lexeme shape token.toList others) →
      ∀ x ∈ values, x.Reprintable → x.desugar.Legible
  | .nil => fun _ => List.forall_mem_nil _
  | .cons _ hform hitems => fun htokens => by
    have hfirst := hform.legible_desugar htokens
    obtain ⟨used, _, rfl⟩ := hform.consumes
    have hothers := hitems.legible_desugar (List.forall_mem_append.mp htokens).2
    exact List.forall_mem_cons.mpr ⟨hfirst, hothers⟩

end

end Grammar

/-! ## Reading the text of what was read -/

theorem legible_of_read {source : String} {value : Value π} (hread : read source = .ok value)
    (h : value.Reprintable) : value.desugar.Legible ∧ value.height ≤ maxReadDepth := by
  rcases read_eq_ok_iff.mp hread with ⟨_, rfl⟩ | ⟨rest, hform⟩
  · exact ⟨.unit, by simp [Value.height, maxReadDepth]⟩
  · refine ⟨hform.legible_desugar ?_ h, hform.height_le⟩
    intro token hmem
    exact (lexed_ofChars source.toList).exists_lexeme hmem

/-- The text of a value that was read, if the value is reprintable, reads as the value with its
shorthands written out, and the form that is read has the same text. -/
theorem read_print_read {source : String} {value : Value π} (hread : read source = .ok value)
    (h : value.Reprintable) :
    ∃ form, read (value.print .readable) = .ok form ∧ (form == value.desugar) = true ∧
      form.print .readable = value.print .readable := by
  obtain ⟨hlegible, hheight⟩ := legible_of_read hread h
  have hform := hlegible.form_tokenize (value.height_desugar ▸ hheight)
  rw [Value.print_desugar] at hform
  refine ⟨value.desugar.erase, read_eq_ok_iff.mpr (.inr ⟨[], hform⟩), ?_, ?_⟩
  · rw [Value.beq_iff_erase_eq]
    exact value.desugar.erase_erase
  · rw [Value.print_erase, Value.print_desugar]

/-- A vector with a closing bracket of another kind, its own closing bracket under a quote, a float
as metadata, and a key that occurs twice. -/
theorem read_print_read_vector :
    let source := "[) '] ^1.5 \x7b:k 1 :k 2\x7d]"
    let x := Binary64.ofBits 0x3ff8000000000000
    let entries : List (MapKey × Value Empty) := [(.keyword ⟨"k"⟩, .int 2)]
    let quoted : Value Empty := .sugar ⟨"quote"⟩ (.symbol ⟨"]"⟩) none none
    let annotated : Value Empty :=
      .sugar ⟨"with-meta"⟩ (.map entries (some (.float x))) (some (.float x)) none
    let value : Value Empty := .vector [.symbol ⟨")"⟩, quoted, annotated] none
    read source = .ok value ∧ value.Reprintable ∧
      ∃ form, read (value.print .readable) = .ok form ∧ (form == value.desugar) = true ∧
        form.print .readable = value.print .readable := by
  intro source x entries quoted annotated value
  have hread : read source = .ok value := by
    have htokens : tokenize source =
        ["[", ")", "'", "]", "^", "1.5", "\x7b", ":k", "1", ":k", "2", "\x7d", "]"] := by
      decide +kernel
    have hint : Numeral.int64? "1.5".toList = none := by decide +kernel
    have hbinary : Numeral.binary64? "1.5".toList = some x := by decide +kernel
    have hscalar : (scalar "1.5" : Value Empty) = .float x := by simp only [scalar, hint, hbinary]
    have hfloat : Denotes "1.5" (.float x : Value Empty) :=
      hscalar ▸ .scalar (by decide) (by decide)
    have hmap : Form 510 ["\x7b", ":k", "1", ":k", "2", "\x7d", "]"] (.map entries none) ["]"] :=
      form_sound 510 rfl
    have hannotated : Form 511 ("^" :: "1.5" :: _) annotated ["]"] :=
      .annotated (.literal (by decide) hfloat) hmap (by simp) (by simp)
    rw [read_eq_ok_iff, htokens]
    refine .inr ⟨[], @Form.collection _ 511 .vector _ _ _ _ ?_ .vector⟩
    exact .cons (by decide) (form_sound 511 rfl)
      (.cons (by decide) (form_sound 511 rfl) (.cons (by decide) hannotated .nil))
  have hreprintable : value.Reprintable := by
    have hsymbol : ∀ s, (Value.symbol s : Value Empty).Reprintable :=
      fun s => Value.reprintable_atom (by simp) none
    have hfloat : (Value.float x : Value Empty).Reprintable := by
      refine Value.reprintable_atom ?_ none
      rintro _ ⟨⟩
      decide +kernel
    have hint : (Value.int 2 : Value Empty).Reprintable := Value.reprintable_atom (by simp) none
    have hmap : (Value.map entries (some (.float x))).Reprintable :=
      .of_parts (by simpa [entries, Value.parts] using hint) (by simp) (by simp)
    have hquoted : quoted.Reprintable := by
      refine Value.reprintable_sugar (hsymbol _) (by simp) ?_
      simp [Value.IsSymbol, Value.symbol, Bracket.closer]
    have hannotated : annotated.Reprintable := by
      refine Value.reprintable_sugar hmap (by simpa using hfloat) ?_
      simp [Value.IsSymbol, Value.float]
    refine .of_parts ?_ (by simp [value]) (by simp [value])
    simpa [value, Value.parts] using ⟨hsymbol _, hquoted, hannotated⟩
  exact ⟨hread, hreprintable, read_print_read hread hreprintable⟩

end MiniLisp
