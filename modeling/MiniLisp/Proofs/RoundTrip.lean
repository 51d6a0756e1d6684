import MiniLisp.Proofs.Equality
import MiniLisp.Proofs.Grammar
import MiniLisp.Proofs.Numerals
import MiniLisp.Proofs.Quoting

/-!
# What is printed reads back

The text of a value is read as that value, without its metadata, if the value holds nothing that has
no text of its own.

The argument follows the text from left to right. The text of a value in front of a delimiter, or at
the end, gives tokens that start with a form of the value, and the tokens behind the form are those
of the text behind. Two conditions of `Value.Legible` make this true. The text of every atom is one
token that denotes the atom. No item of a collection is the symbol whose name closes the collection.

Results:
1. `Value.Legible.reads`: the tokens of a legible text start with a form of the value.
2. `Value.Readable.legible`: values made of constants, numbers, strings and leaves that read back by
   themselves are legible.
3. `readAll_print`: a readable value of at most `maxReadDepth` levels reads back.
-/

namespace MiniLisp

open Token Grammar

variable {π : Type}

/-! ## Definitions -/

/-- A key as an atom. -/
def MapKey.atom : MapKey → Atom
  | .string text => .string text
  | .keyword k => .keyword k

/-- The text of the atom is one token in front of every delimiter, and it denotes the atom. -/
structure Atom.Legible (π : Type) (a : Atom) : Prop where
  lexeme : ∀ rest, Ends rest → ∃ shape, Lexeme shape (a.print .readable).toList rest
  not_leader : a.print .readable ∉ leaders
  denotes : Denotes (a.print .readable) (.atom a none : Value π)

namespace Value

/-- The value is the symbol with the given name. -/
def IsSymbol (name : String) (value : Value π) : Prop :=
  ∃ md, value = .atom (.symbol ⟨name⟩) md

/-- The text of the value is read as the value. -/
inductive Legible : Value π → Prop
  | nil : Legible .nil
  | unit : Legible .unit
  | atom {a : Atom} {md : Option (Value π)} : a.Legible π → Legible (.atom a md)
  | list {items : List (Value π)} {md : Option (Value π)} :
      items ≠ [] → (∀ x ∈ items, Legible x) → (∀ x ∈ items, ¬ x.IsSymbol Bracket.list.closer) →
      Legible (.list items md)
  | vector {items : List (Value π)} {md : Option (Value π)} :
      (∀ x ∈ items, Legible x) → (∀ x ∈ items, ¬ x.IsSymbol Bracket.vector.closer) →
      Legible (.vector items md)
  | map {entries : List (MapKey × Value π)} {md : Option (Value π)} :
      Entries.Sorted entries → (∀ entry ∈ entries, entry.1.atom.Legible π) →
      (∀ entry ∈ entries, Legible entry.2) →
      (∀ entry ∈ entries, ¬ entry.2.IsSymbol Bracket.map.closer) →
      Legible (.map entries md)

end Value

/-! ## Brackets -/

namespace RoundTripLemmas

theorem lexeme_single {token : Token} {c : Char} (htext : token.toList = [c])
    (hc : isSingle c = true) (htilde : c ≠ '~') (rest : List Char) :
    Lexeme .single token.toList rest := by
  rw [htext]
  exact .single hc fun h => absurd h htilde

theorem lexeme_opener (bracket : Bracket) (rest : List Char) :
    Lexeme .single bracket.opener.toList rest := by
  cases bracket <;> exact lexeme_single rfl (by decide) (by decide) rest

theorem lexeme_closer (bracket : Bracket) (rest : List Char) :
    Lexeme .single bracket.closer.toList rest := by
  cases bracket <;> exact lexeme_single rfl (by decide) (by decide) rest

theorem ends_closer (bracket : Bracket) (rest : List Char) :
    Ends (bracket.closer.toList ++ rest) := by
  intro c hc
  cases bracket <;> (cases hc; decide)

theorem ends_space (rest : List Char) : Ends (' ' :: rest) := by
  intro c hc
  cases hc
  decide

theorem ofChars_space (rest : List Char) : ofChars (' ' :: rest) = ofChars rest :=
  (Gap.blank (.inl (by decide)) .nil : Gap [' '] rest).ofChars_append

theorem ofChars_token {shape : Shape} {token : Token} {rest : List Char}
    (h : Lexeme shape token.toList rest) :
    ofChars (token.toList ++ rest) = token :: ofChars rest := by
  rw [h.ofChars_append, String.ofList_toList]

/-- A closing token is a form only as the symbol of that name. -/
theorem eq_symbol_of_form_closer {bracket : Bracket} {k : Nat} {tokens rest : List Token}
    {value : Value π} (h : Form k (bracket.closer :: tokens) value rest) :
    value = .symbol ⟨bracket.closer⟩ := by
  have hread := h.complete k
  cases k with
  | zero => cases h
  | succ k =>
    cases bracket <;> cases hread <;> rfl

end RoundTripLemmas

open RoundTripLemmas

/-! ## The tokens of a legible text -/

/-- `Reads k value`: in front of a delimiter, the text of the value gives tokens that start with a
form of the value, with a budget of `k` levels. -/
def Value.Reads (k : Nat) (value : Value π) : Prop :=
  ∀ rest, Ends rest →
    Form k (ofChars ((value.print .readable).toList ++ rest)) value.erase (ofChars rest)

namespace RoundTripLemmas

theorem reads_atom {a : Atom} (md : Option (Value π)) (h : a.Legible π) (k : Nat) :
    (Value.atom a md).Reads (k + 1) := by
  intro rest hrest
  obtain ⟨shape, hlexeme⟩ := h.lexeme rest hrest
  rw [Value.print, ofChars_token hlexeme]
  exact .literal h.not_leader h.denotes

theorem isSymbol_of_erase_eq {value : Value π} {s : Symbol} (h : value.erase = .symbol s) :
    value.IsSymbol s.name := by
  cases value <;> simp [Value.erase, Value.symbol] at h
  subst h
  exact ⟨_, rfl⟩

/-- Items that read one by one read in a row, up to the bracket that closes them. -/
theorem items_printItems {bracket : Bracket} {k : Nat} {items : List (Value π)}
    (hreads : ∀ x ∈ items, x.Reads k) (hcloser : ∀ x ∈ items, ¬ x.IsSymbol bracket.closer)
    (rest : List Char) :
    Items k bracket.closer
      (ofChars ((Value.printItems .readable items).toList ++ (bracket.closer.toList ++ rest)))
      (Value.eraseItems items) (ofChars rest) := by
  induction items with
  | nil =>
    simp only [Value.printItems, String.toList_empty, List.nil_append]
    rw [ofChars_token (lexeme_closer bracket rest)]
    exact .nil
  | cons x xs ih =>
    rw [List.forall_mem_cons] at hreads hcloser
    have hothers := ih hreads.2 hcloser.2
    -- Only the symbol of that name has a text that starts with the closing token.
    have hfirst : ∀ rest, Ends rest →
        (ofChars ((x.print .readable).toList ++ rest)).head? ≠ some bracket.closer := by
      intro rest hrest hhead
      obtain ⟨tokens, htokens⟩ := List.head?_eq_some_iff.mp hhead
      have hform := hreads.1 rest hrest
      rw [htokens] at hform
      exact hcloser.1 (isSymbol_of_erase_eq (eq_symbol_of_form_closer hform))
    cases xs with
    | nil =>
      have hends := ends_closer bracket rest
      exact .cons (hfirst _ hends) (hreads.1 _ hends) hothers
    | cons y ys =>
      have hends := ends_space
        ((Value.printItems .readable (y :: ys)).toList ++ (bracket.closer.toList ++ rest))
      have hform := hreads.1 _ hends
      rw [ofChars_space] at hform
      have htext : (Value.printItems .readable (x :: y :: ys)).toList ++
          (bracket.closer.toList ++ rest) =
          (x.print .readable).toList ++ ' ' ::
            ((Value.printItems .readable (y :: ys)).toList ++ (bracket.closer.toList ++ rest)) := by
        simp [Value.printItems]
      rw [htext]
      exact .cons (hfirst _ hends) hform hothers

theorem ofKey_eq_atom (key : MapKey) : (Value.ofKey key : Value π) = .atom key.atom none := by
  cases key <;> rfl

theorem not_isSymbol_ofKey (key : MapKey) (name : String) :
    ¬ (Value.ofKey key : Value π).IsSymbol name := by
  rintro ⟨md, h⟩
  cases key <;> cases h

/-- The entries of a map print as the sequence of their keys and values. -/
theorem printEntries_eq (entries : List (MapKey × Value π)) :
    Value.printEntries .readable entries =
      Value.printItems .readable (Value.flatItems entries) := by
  have hkey : ∀ key : MapKey, (Value.ofKey key : Value π).print .readable = key.text := by
    intro key
    cases key <;> rfl
  induction entries with
  | nil => rfl
  | cons entry rest ih =>
    cases rest with
    | nil => simp [Value.printEntries, Value.flatItems, Value.printItems, hkey]
    | cons next rest =>
      simp only [Value.flatItems, List.flatMap_cons, List.cons_append, List.nil_append] at ih ⊢
      simp [Value.printEntries, Value.printItems, hkey, ih, String.append_assoc]

theorem eraseItems_flatItems (entries : List (MapKey × Value π)) :
    Value.eraseItems (Value.flatItems entries) = Value.flatItems (Value.eraseEntries entries) := by
  have hkey : ∀ key : MapKey, (Value.ofKey key : Value π).erase = Value.ofKey key := by
    intro key
    cases key <;> rfl
  induction entries with
  | nil => rfl
  | cons entry rest ih =>
    simp only [Value.flatItems, Value.eraseEntries, List.flatMap_cons, List.cons_append,
      List.nil_append, Value.eraseItems, hkey] at ih ⊢
    rw [ih]

theorem sorted_eraseEntries {entries : List (MapKey × Value π)} (h : Entries.Sorted entries) :
    Entries.Sorted (Value.eraseEntries entries) := by
  rw [Value.eraseEntries_eq_map]
  exact List.pairwise_map.mpr h

/-- A value that prints as its items in a bracket reads as what the items make up. -/
theorem reads_bracket {bracket : Bracket} {k : Nat} {items : List (Value π)} {value : Value π}
    (hprint : value.print .readable =
      bracket.opener ++ Value.printItems .readable items ++ bracket.closer)
    (hreads : ∀ x ∈ items, x.Reads k) (hcloser : ∀ x ∈ items, ¬ x.IsSymbol bracket.closer)
    (hgather : Gathers bracket (Value.eraseItems items) value.erase) : value.Reads (k + 1) := by
  intro rest _
  rw [hprint, String.toList_append, String.toList_append, List.append_assoc, List.append_assoc,
    ofChars_token (lexeme_opener bracket _)]
  exact .collection (items_printItems hreads hcloser rest) hgather

end RoundTripLemmas

/-- The text of a legible value is read as the value without its metadata. -/
theorem Value.Legible.reads {value : Value π} (h : value.Legible) {k : Nat}
    (hheight : value.height ≤ k) : value.Reads k := by
  induction h generalizing k with
  | nil =>
    obtain ⟨k, rfl⟩ := exists_succ_of_height_le hheight
    intro rest hrest
    have hlexeme : Lexeme .bare "nil".toList rest := lexeme_of_isBareText (by decide) hrest
    rw [Value.print, ofChars_token hlexeme]
    exact .literal (by decide) (denotes_iff.mpr rfl)
  | unit =>
    obtain ⟨k, rfl⟩ := exists_succ_of_height_le hheight
    have hprint : (Value.unit : Value π).print .readable =
        Bracket.list.opener ++ printItems .readable ([] : List (Value π)) ++ Bracket.list.closer :=
      rfl
    exact reads_bracket hprint (by simp) (by simp) .unit
  | @atom a md ha =>
    obtain ⟨k, rfl⟩ := exists_succ_of_height_le hheight
    exact reads_atom md ha k
  | @list items md hne hitems hcloser ih =>
    obtain ⟨k, rfl⟩ := exists_succ_of_height_le hheight
    rw [height_le_succ_iff] at hheight
    refine reads_bracket rfl (fun x hx => ih x hx (hheight x hx)) hcloser (.list ?_)
    simpa [eraseItems_eq_map] using hne
  | @vector items md hitems hcloser ih =>
    obtain ⟨k, rfl⟩ := exists_succ_of_height_le hheight
    rw [height_le_succ_iff] at hheight
    exact reads_bracket rfl (fun x hx => ih x hx (hheight x hx)) hcloser .vector
  | @map entries md hsorted hkeys hvalues hcloser ih =>
    obtain ⟨k, rfl⟩ := exists_succ_of_height_le hheight
    rw [height_le_succ_iff] at hheight
    have hprint : (Value.map entries md).print .readable =
        Bracket.map.opener ++ printItems .readable (flatItems entries) ++ Bracket.map.closer := by
      rw [← printEntries_eq]
      rfl
    -- Keys have one level, so the budget for the values is enough for them.
    refine reads_bracket hprint ?_ ?_ (.map ?_)
    · intro x hx
      obtain ⟨entry, hentry, rfl | rfl⟩ := mem_flatItems.mp hx
      · obtain ⟨k, rfl⟩ := exists_succ_of_height_le (hheight _ (List.mem_map_of_mem hentry))
        rw [ofKey_eq_atom]
        exact reads_atom none (hkeys entry hentry) k
      · exact ih entry hentry (hheight _ (List.mem_map_of_mem hentry))
    · intro x hx
      obtain ⟨entry, hentry, rfl | rfl⟩ := mem_flatItems.mp hx
      · exact not_isSymbol_ofKey _ _
      · exact hcloser entry hentry
    · rw [eraseItems_flatItems]
      exact mapOfItems_flatItems (sorted_eraseEntries hsorted)

/-! ## Legible atoms -/

namespace RoundTripLemmas

/-- A token that is a form by itself stays one token in front of every delimiter. A string that
breaks off is no form, and all other shapes do not depend on what follows. -/
theorem lexeme_of_denotes {shape : Shape} {token : Token} {rest : List Char} {value : Value π}
    (h : Lexeme shape token.toList rest) (hleader : token ∉ leaders)
    (hdenotes : Denotes token value) {others : List Char} (hothers : Ends others) :
    ∃ shape, Lexeme shape token.toList others := by
  generalize htext : token.toList = text at h
  cases h with
  | splice =>
    have htoken : token = "~@" := String.toList_inj.mp htext
    exact absurd htoken (by rintro rfl; exact hleader (by decide))
  | @single c _ hc _ =>
    refine ⟨.single, .single hc ?_⟩
    rintro rfl
    have htoken : token = "~" := String.toList_inj.mp htext
    exact absurd htoken (by rintro rfl; exact hleader (by decide))
  | closed hbody => exact ⟨.string, .closed hbody⟩
  | @broken body _ hbody _ =>
    cases hdenotes with
    | keyword hcolon => simp [htext] at hcolon
    | string _ htext' =>
      have hdecode : Text.Quoted.decode ('"' :: body) = none := hbody.decodeBody_eq_none
      simp [unquote, htext, hdecode] at htext'
    | scalar _ hquote => simp [htext] at hquote
  | bare hc hcs _ => exact ⟨.bare, .bare hc hcs hothers⟩

end RoundTripLemmas

/-- An atom is legible if its text is a token of some text and denotes the atom. -/
theorem Atom.Legible.of_lexeme {a : Atom} {shape : Shape} {rest : List Char}
    (h : Lexeme shape (a.print .readable).toList rest) (hleader : a.print .readable ∉ leaders)
    (hdenotes : Denotes (a.print .readable) (.atom a none : Value π)) : a.Legible π where
  lexeme _ hothers := lexeme_of_denotes h hleader hdenotes hothers
  not_leader := hleader
  denotes := hdenotes

namespace RoundTripLemmas

/-- No token that starts a form of several tokens is bare. -/
theorem not_mem_leaders_of_bare {token : Token} {rest : List Char}
    (h : Lexeme .bare token.toList rest) : token ∉ leaders := by
  intro hmem
  have hleaders : ∀ token ∈ leaders, token.toList.head?.all startsBare = false := by decide
  have hhead := hleaders token hmem
  generalize token.toList = text at h hhead
  cases h with
  | bare hc _ _ => simp [hc] at hhead

end RoundTripLemmas

/-- An atom that is written as one word is legible if the word denotes it. -/
theorem Atom.Legible.of_isBareText {a : Atom} (hbare : isBareText (a.print .readable).toList = true)
    (hliteral : literal (a.print .readable) = .ok (.atom a none : Value π)) : a.Legible π := by
  have hlexeme := lexeme_of_isBareText hbare ends_nil
  exact .of_lexeme hlexeme (not_mem_leaders_of_bare hlexeme) (denotes_iff.mpr hliteral)

theorem Atom.legible_bool (b : Bool) : (Atom.bool b).Legible π := by
  cases b <;> exact .of_isBareText (by decide) rfl

theorem Atom.legible_int (n : Int64) : (Atom.int n).Legible π := by
  have hlexeme : Lexeme .bare ((Atom.int n).print .readable).toList [] :=
    Numeral.lexeme_int n.toInt ends_nil
  have hscalar : (scalar ((Atom.int n).print .readable) : Value π) = .atom (.int n) none := by
    simp only [scalar, Atom.print, Numeral.int64?_toString]
    rfl
  have hhead : ∀ c, c ∉ numberChars → ((Atom.int n).print .readable).toList.head? ≠ some c := by
    intro c hc hhead
    exact hc (Numeral.mem_numberChars_of_mem_toString (List.mem_of_mem_head? hhead))
  refine .of_lexeme hlexeme (not_mem_leaders_of_bare hlexeme) ?_
  rw [← hscalar]
  exact .scalar (hhead _ (by decide)) (hhead _ (by decide))

theorem Atom.legible_string (text : String) : (Atom.string text).Legible π := by
  have htext : ((Atom.string text).print .readable).toList = Text.Quoted.encode text.toList :=
    String.toList_ofList
  have hleader : ∀ token ∈ leaders, token.toList.head? ≠ some '"' := by decide
  have hquote : ((Atom.string text).print .readable).toList.head? = some '"' := by
    rw [htext]
    rfl
  have hlexeme := Text.Quoted.lexeme_encode text.toList []
  rw [← htext] at hlexeme
  refine .of_lexeme hlexeme (fun hmem => hleader _ hmem hquote) (.string hquote ?_)
  simp [unquote, htext, Text.Quoted.decode_encode]

/-! ## Readable values -/

/-- The source text is read as a form that is equal to the value. -/
def ReadsAs (source : String) (value : Value π) : Prop :=
  ∃ form, read source = .ok form ∧ (form == value) = true

instance (source : String) (value : Value π) : Decidable (ReadsAs source value) :=
  match h : (read source : Except ReadError (Value π)) with
  | .ok form => decidable_of_iff ((form == value) = true) (by simp [ReadsAs, h])
  | .error _ => .isFalse (by simp [ReadsAs, h])

/-- The text of the atom is one token, no closing bracket, and reads as the atom. -/
def Atom.ReadsBack (π : Type) (a : Atom) : Prop :=
  tokenize (a.print .readable) = [a.print .readable] ∧
    a.print .readable ∉ [")", "]", "\x7d"] ∧
    ReadsAs (a.print .readable) (.atom a none : Value π)

instance (a : Atom) : Decidable (a.ReadsBack π) :=
  inferInstanceAs (Decidable (_ ∧ _ ∧ _))

/-- The values that are printed to be read. Constants, integers and strings are leaves without a
condition, and so are strings as keys; a symbol, a keyword or a float has to read back by itself,
and so has a keyword as a key. There are no functions and no shorthands, and no `list` is empty.
Metadata may be anything. -/
inductive Value.Readable : Value π → Prop
  | nil : Readable .nil
  | unit : Readable .unit
  | bool {b : Bool} {md : Option (Value π)} : Readable (.atom (.bool b) md)
  | int {n : Int64} {md : Option (Value π)} : Readable (.atom (.int n) md)
  | string {text : String} {md : Option (Value π)} : Readable (.atom (.string text) md)
  | symbol {s : Symbol} {md : Option (Value π)} :
      (Atom.symbol s).ReadsBack π → Readable (.atom (.symbol s) md)
  | keyword {k : Keyword} {md : Option (Value π)} :
      (Atom.keyword k).ReadsBack π → Readable (.atom (.keyword k) md)
  | float {x : Binary64} {md : Option (Value π)} :
      (Atom.float x).ReadsBack π → Readable (.atom (.float x) md)
  | list {items : List (Value π)} {md : Option (Value π)} :
      items ≠ [] → (∀ x ∈ items, Readable x) → Readable (.list items md)
  | vector {items : List (Value π)} {md : Option (Value π)} :
      (∀ x ∈ items, Readable x) → Readable (.vector items md)
  | map {entries : List (MapKey × Value π)} {md : Option (Value π)} :
      Entries.Sorted entries →
      (∀ entry ∈ entries, ∀ k, entry.1 = .keyword k → (Atom.keyword k).ReadsBack π) →
      (∀ entry ∈ entries, Readable entry.2) → Readable (.map entries md)

namespace RoundTripLemmas

/-- A form of one token is that token's value. -/
theorem denotes_of_form_singleton {k : Nat} {token : Token} {rest : List Token} {value : Value π}
    (h : Form k [token] value rest) : token ∉ leaders ∧ Denotes token value := by
  cases h with
  | collection hitems _ => exact absurd rfl hitems.ne_nil
  | shorthand _ hform => exact absurd rfl hform.ne_nil
  | annotated hform _ _ _ => exact absurd rfl hform.ne_nil
  | literal hleader hdenotes => exact ⟨hleader, hdenotes⟩

end RoundTripLemmas

/-- An atom whose text is one token and reads as the atom is legible. -/
theorem Atom.Legible.of_tokenize {a : Atom}
    (htokens : tokenize (a.print .readable) = [a.print .readable])
    (hreads : ReadsAs (a.print .readable) (.atom a none : Value π)) : a.Legible π := by
  obtain ⟨value, hread, hbeq⟩ := hreads
  rw [Value.beq_iff_erase_eq] at hbeq
  rcases read_eq_ok_iff.mp hread with ⟨hnil, _⟩ | ⟨rest, hform⟩
  · rw [htokens] at hnil
    cases hnil
  · rw [htokens] at hform
    obtain ⟨hleader, hdenotes⟩ := denotes_of_form_singleton hform
    have hvalue : value = .atom a none := by
      have hnone := hform.metadata?_eq_none
      cases value <;> simp_all [Value.erase, Value.metadata?]
    obtain ⟨shape, others, hlexeme⟩ := (lexed_ofChars (a.print .readable).toList).exists_lexeme
      (by rw [← tokenize, htokens]; exact List.mem_singleton_self _)
    exact .of_lexeme hlexeme hleader (hvalue ▸ hdenotes)

theorem Atom.ReadsBack.legible {a : Atom} (h : a.ReadsBack π) : a.Legible π :=
  .of_tokenize h.1 h.2.2

/-- A symbol that reads back is not named like a closing bracket. -/
theorem Value.Readable.not_isSymbol_closer {value : Value π} (h : value.Readable)
    (bracket : Bracket) : ¬ value.IsSymbol bracket.closer := by
  rintro ⟨md, rfl⟩
  cases h with
  | symbol hreads =>
    refine hreads.2.1 ?_
    cases bracket <;> decide

theorem Value.Readable.legible {value : Value π} (h : value.Readable) : value.Legible := by
  induction h with
  | nil => exact .nil
  | unit => exact .unit
  | bool => exact .atom (Atom.legible_bool _)
  | int => exact .atom (Atom.legible_int _)
  | string => exact .atom (Atom.legible_string _)
  | symbol h => exact .atom h.legible
  | keyword h => exact .atom h.legible
  | float h => exact .atom h.legible
  | list hne hitems ih => exact .list hne ih fun x hx => (hitems x hx).not_isSymbol_closer _
  | vector hitems ih => exact .vector ih fun x hx => (hitems x hx).not_isSymbol_closer _
  | map hsorted hkeys hvalues ih =>
    refine .map hsorted ?_ ih fun entry hentry => (hvalues entry hentry).not_isSymbol_closer _
    intro entry hentry
    cases hkey : entry.1 with
    | string text => exact Atom.legible_string text
    | keyword k => exact (hkeys entry hentry k hkey).legible

/-! ## Reading back -/

/-- The whole text of a legible value is one form. -/
theorem Value.Legible.form_tokenize {value : Value π} (h : value.Legible)
    (hheight : value.height ≤ maxReadDepth) :
    Form maxReadDepth (tokenize (value.print .readable)) value.erase [] := by
  have hform := h.reads hheight [] ends_nil
  rwa [List.append_nil, ofChars_nil] at hform

/-- A readable value of at most `maxReadDepth` levels prints as a text with one form, and that form
is equal to the value. -/
theorem readAll_print {value : Value π} (h : value.Readable)
    (hheight : value.height ≤ maxReadDepth) :
    ∃ form, readAll (value.print .readable) = .ok [form] ∧
      read (value.print .readable) = .ok form ∧ (form == value) = true := by
  have hform := h.legible.form_tokenize hheight
  refine ⟨value.erase, readAll_of_form hform, read_eq_ok_iff.mpr (.inr ⟨[], hform⟩), ?_⟩
  rw [Value.beq_iff_erase_eq]
  exact value.erase_erase

/-- A vector with metadata that holds a list, a string with escaped characters, and a map. -/
theorem readAll_print_vector :
    let items : List (Value Empty) :=
      [.symbol ⟨"+"⟩, .int Int64.minValue, .float (.ofBits 0x3ff8000000000000)]
    let entries : List (MapKey × Value Empty) :=
      [(.string ")", .unit), (.keyword ⟨"k"⟩, .nil)]
    let value : Value Empty :=
      .vector [.list items none, .string "say \"hi\"\\\n", .map entries none] (some (.bool true))
    value.Readable ∧ value.height ≤ maxReadDepth ∧
      ∃ form, readAll (value.print .readable) = .ok [form] ∧
        read (value.print .readable) = .ok form ∧ (form == value) = true := by
  intro items entries value
  have hitems : ∀ x ∈ items, x.Readable := by
    simp only [items, List.forall_mem_cons]
    exact ⟨.symbol (by decide +kernel), .int, .float (by decide +kernel), List.forall_mem_nil _⟩
  have hentries : (Value.map entries none).Readable := by
    refine .map (by simp [entries, Entries.Sorted]) ?_ ?_
    · simp only [entries, List.forall_mem_cons]
      refine ⟨by rintro k ⟨⟩, ?_, List.forall_mem_nil _⟩
      rintro k ⟨⟩
      decide +kernel
    · simp only [entries, List.forall_mem_cons]
      exact ⟨.unit, .nil, List.forall_mem_nil _⟩
  have hvalue : value.Readable := by
    refine .vector ?_
    simp only [List.forall_mem_cons]
    exact ⟨.list (by simp [items]) hitems, .string, hentries, List.forall_mem_nil _⟩
  have hheight : value.height ≤ maxReadDepth := by decide
  exact ⟨hvalue, hheight, readAll_print hvalue hheight⟩
end MiniLisp
