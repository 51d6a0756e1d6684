import MiniLisp.Proofs.Lines
import MiniLisp.Proofs.Programs
import MiniLisp.Proofs.ReadErrors

/-!
# Answers on one line

Whatever is printed for a source without line feeds is printed on one line: what was read from it,
what it evaluates to, and the message if either fails. Line feeds can stand in the strings of a value
and there they are escaped. All other text that gets into the output comes from tokens of the source
(symbols, keywords, strings that are not closed), from the names of functions, or from the program
itself.

Results:
1. `Value.oneLine_print_list` and those after it: a value is printed on one line exactly if its names
   and its parts are.
2. `Form.oneLine`: what is read from tokens without line feeds is printed on one line.
3. `ReadError.oneLine_message`: the message of an error is on one line, unless the error quotes a
   token that is not.
4. `oneLine_print_of_read`, `oneLine_message_of_read`: both for sources.
5. `oneLine_outcome`: evaluation adds no line feeds, neither to a value nor to an error.
-/

namespace MiniLisp

open Text Token Grammar

variable {π : Type}

/-! ## Texts -/

theorem oneLine_ofList {cs : List Char} : OneLine (String.ofList cs) ↔ '\n' ∉ cs := by
  simp [OneLine]

/-- A bare token holds no blanks, and so no line feed. -/
theorem newline_not_mem_of_bare {token rest : List Char} (h : Lexeme .bare token rest) :
    '\n' ∉ token := by
  cases h with
  | bare hstart hothers _ =>
    intro hmem
    rcases List.mem_cons.mp hmem with rfl | hmem
    · exact absurd hstart (by decide)
    · exact absurd (hothers _ hmem) (by decide)

/-- Line feeds are escaped between quotes. -/
theorem newline_not_mem_encode (text : List Char) : '\n' ∉ Quoted.encode text := by
  have hchar : ∀ c, '\n' ∉ Quoted.escapeChar c := by
    intro c
    unfold Quoted.escapeChar
    split
    · decide
    · split
      · decide
      · split
        · decide
        · next hline => simpa using Ne.symm hline
  simp [Quoted.encode, Quoted.escape, hchar]

theorem oneLine_toString (n : Nat) : OneLine (toString n) := by
  have hdigits : (toString n).toList = Nat.toDigits 10 n := by
    simp [Nat.repr]
  intro hmem
  rw [hdigits] at hmem
  exact absurd (NumeralLemmas.isDigit_of_mem_toDigits hmem) (by decide)

/-! ## Names and atoms -/

theorem Kind.oneLine_name (kind : Kind) : OneLine kind.name := by
  cases kind <;> decide

theorem Operator.oneLine_name (op : Operator) : OneLine op.name := by
  cases op <;> decide

/-- Of the atoms, only symbols and keywords have texts that depend on the source. -/
theorem Atom.oneLine_print {a : Atom} (hsymbol : ∀ s, a = .symbol s → OneLine s.text)
    (hkeyword : ∀ k, a = .keyword k → OneLine k.text) : OneLine (a.print .readable) := by
  cases a with
  | bool b => cases b <;> decide
  | int n => exact newline_not_mem_of_bare (Numeral.lexeme_int n.toInt ends_nil)
  | float x => exact oneLine_ofList.mpr (newline_not_mem_of_bare (x.lexeme_toChars ends_nil))
  | symbol s => exact hsymbol s rfl
  | string text => exact oneLine_ofList.mpr (newline_not_mem_encode text.toList)
  | keyword k => exact hkeyword k rfl

/-! ## Values -/

namespace Value

theorem oneLine_printItems {items : List (Value π)} :
    OneLine (printItems .readable items) ↔ ∀ x ∈ items, OneLine (x.print .readable) := by
  induction items with
  | nil => simp [printItems, OneLine]
  | cons x xs ih =>
    rw [List.forall_mem_cons, ← ih]
    cases xs with
    | nil => simp [printItems, OneLine]
    | cons y ys =>
      have hspace : OneLine " " := by decide
      simp only [printItems, oneLine_append, hspace, and_true]

theorem oneLine_printEntries {entries : List (MapKey × Value π)} :
    OneLine (printEntries .readable entries) ↔
      ∀ entry ∈ entries, OneLine entry.1.text ∧ OneLine (entry.2.print .readable) := by
  have hspace : OneLine " " := by decide
  induction entries with
  | nil => simp [printEntries, OneLine]
  | cons entry rest ih =>
    cases rest with
    | nil => simp only [printEntries, oneLine_append, hspace, and_true, List.forall_mem_singleton]
    | cons next rest =>
      simp only [printEntries, oneLine_append, hspace, and_true, ih, List.forall_mem_cons]

theorem oneLine_print_list {items : List (Value π)} {md : Option (Value π)} :
    OneLine ((Value.list items md).print .readable) ↔ ∀ x ∈ items, OneLine (x.print .readable) := by
  have hbrackets : OneLine "(" ∧ OneLine ")" := by decide
  simp only [print, oneLine_append, hbrackets, true_and, and_true, oneLine_printItems]

theorem oneLine_print_vector {items : List (Value π)} {md : Option (Value π)} :
    OneLine ((Value.vector items md).print .readable) ↔
      ∀ x ∈ items, OneLine (x.print .readable) := by
  have hbrackets : OneLine "[" ∧ OneLine "]" := by decide
  simp only [print, oneLine_append, hbrackets, true_and, and_true, oneLine_printItems]

theorem oneLine_print_map {entries : List (MapKey × Value π)} {md : Option (Value π)} :
    OneLine ((Value.map entries md).print .readable) ↔
      ∀ entry ∈ entries, OneLine entry.1.text ∧ OneLine (entry.2.print .readable) := by
  have hbrackets : OneLine "\x7b" ∧ OneLine "\x7d" := by decide
  simp only [print, oneLine_append, hbrackets, true_and, and_true, oneLine_printEntries]

/-- A shorthand is printed as its list. -/
theorem oneLine_print_sugar {tag : Symbol} {form : Value π} {metaForm md : Option (Value π)} :
    OneLine ((Value.sugar tag form metaForm md).print .readable) ↔
      ∀ x ∈ sugarItems tag form metaForm, OneLine (x.print .readable) := by
  rw [← print_desugar, desugar_sugar, oneLine_print_list]
  show _ ↔ ∀ x ∈ symbol tag :: (Value.sugar tag form metaForm md).parts, _
  simp only [List.forall_mem_cons, List.forall_mem_map, print_desugar]

theorem oneLine_print_procedure {f : Procedure π} {md : Option (Value π)} :
    OneLine ((Value.procedure f md).print .readable) ↔ OneLine f.name.text := by
  have hbrackets : OneLine "#<native-fn " ∧ OneLine ">" := by decide
  simp only [print, Procedure.print, oneLine_append, hbrackets, true_and, and_true]

theorem print_setMetadata (style : Style) (md : Option (Value π)) (value : Value π) :
    (value.setMetadata md).print style = value.print style := by
  cases value <;> rfl

/-- The text of a key is that of the value which became the key. -/
theorem oneLine_text_of_toKey {value : Value π} {key : MapKey} (h : value.toKey = .ok key)
    (hvalue : OneLine (value.print .readable)) : OneLine key.text := by
  obtain ⟨md, rfl⟩ := toKey_eq_ok h
  cases key <;> exact hvalue

end Value

/-! ## What is read -/

theorem mem_of_mem_token {text : List Char} {tokens : List Token} (h : Lexed text tokens)
    {token : Token} (htoken : token ∈ tokens) {c : Char} (hc : c ∈ token.toList) : c ∈ text := by
  induction h with
  | done _ => cases htoken
  | token _ _ _ _ ih =>
    rcases List.mem_cons.mp htoken with rfl | htoken
    · simp only [String.toList_ofList] at hc
      simp [hc]
    · simp [ih htoken]

theorem oneLine_of_mem_tokenize {source : String} (h : OneLine source) {token : Token}
    (htoken : token ∈ tokenize source) : OneLine token :=
  fun hmem => h (mem_of_mem_token (lexed_ofChars source.toList) htoken hmem)

theorem oneLine_of_denotes {token : Token} {value : Value π} (h : Denotes token value)
    (htoken : OneLine token) : OneLine (value.print .readable) := by
  cases h with
  | @keyword name hcolon =>
    refine Atom.oneLine_print (by simp) ?_
    rintro k ⟨⟩
    have htext : token = ":" ++ String.ofList name := by
      rw [← String.toList_inj, hcolon]
      simp
    rwa [htext] at htoken
  | string _ _ => exact Atom.oneLine_print (by simp) (by simp)
  | scalar _ _ =>
    have hatom : ∀ a : Atom, (∀ s, a ≠ .symbol s) → (∀ k, a ≠ .keyword k) →
        OneLine ((Value.atom a none : Value π).print .readable) :=
      fun a hs hk => Atom.oneLine_print (fun s h => absurd h (hs s)) fun k h => absurd h (hk k)
    rcases scalar_cases π token with ⟨n, h⟩ | ⟨x, h⟩ | ⟨b, h⟩ | h | h
    · exact h ▸ hatom _ (by simp) (by simp)
    · exact h ▸ hatom _ (by simp) (by simp)
    · exact h ▸ hatom _ (by simp) (by simp)
    · rw [h]
      show OneLine "nil"
      decide
    · exact h ▸ htoken

theorem oneLine_of_gathers {bracket : Bracket} {items : List (Value π)} {value : Value π}
    (h : Gathers bracket items value) (hitems : ∀ x ∈ items, OneLine (x.print .readable)) :
    OneLine (value.print .readable) := by
  cases h with
  | unit =>
    show OneLine "()"
    decide
  | list _ => exact Value.oneLine_print_list.mpr hitems
  | vector => exact Value.oneLine_print_vector.mpr hitems
  | map hmap =>
    obtain ⟨pairs, hpairs, rfl⟩ := Value.mapOfItems_eq_ok hmap
    refine Value.oneLine_print_map.mpr fun entry hentry => ?_
    obtain ⟨⟨key, hkey, htoKey⟩, hvalue⟩ :=
      Value.mem_of_mem_toPairs hpairs (Entries.mem_of_mem_ofPairs hentry)
    exact ⟨Value.oneLine_text_of_toKey htoKey (hitems key hkey), hitems _ hvalue⟩

theorem oneLine_tag {token : Token} {tag : String} (h : (token, tag) ∈ shorthands) :
    OneLine tag := by
  have hall : ∀ entry ∈ shorthands, OneLine entry.2 := by decide
  exact hall _ h

namespace Grammar

mutual

theorem Form.oneLine {k : Nat} {tokens rest : List Token} {value : Value π} :
    Form k tokens value rest → (∀ token ∈ tokens, OneLine token) → OneLine (value.print .readable)
  | .collection hitems hgather => fun htokens =>
    oneLine_of_gathers hgather (hitems.oneLine (List.forall_mem_cons.mp htokens).2)
  | .shorthand htag hform => fun htokens => by
    have hinner := hform.oneLine (List.forall_mem_cons.mp htokens).2
    rw [Value.oneLine_print_sugar]
    simpa [Value.sugarItems] using ⟨oneLine_tag htag, hinner⟩
  | .annotated hmetadata hform _ _ => fun htokens => by
    have htokens := (List.forall_mem_cons.mp htokens).2
    have hmeta := hmetadata.oneLine htokens
    obtain ⟨used, _, rfl⟩ := hmetadata.consumes
    have hinner := hform.oneLine (List.forall_mem_append.mp htokens).2
    have htag : OneLine "with-meta" := by decide
    rw [Value.oneLine_print_sugar]
    simpa [Value.sugarItems, Value.print_setMetadata] using ⟨htag, hinner, hmeta⟩
  | .literal _ hdenotes => fun htokens =>
    oneLine_of_denotes hdenotes (List.forall_mem_cons.mp htokens).1

theorem Items.oneLine {k : Nat} {closer : Token} {tokens rest : List Token}
    {values : List (Value π)} :
    Items k closer tokens values rest → (∀ token ∈ tokens, OneLine token) →
      ∀ x ∈ values, OneLine (x.print .readable)
  | .nil => fun _ => List.forall_mem_nil _
  | .cons _ hform hitems => fun htokens => by
    have hfirst := hform.oneLine htokens
    obtain ⟨used, _, rfl⟩ := hform.consumes
    exact List.forall_mem_cons.mpr ⟨hfirst, hitems.oneLine (List.forall_mem_append.mp htokens).2⟩

end

end Grammar

/-! ## Errors of reading -/

theorem MapError.oneLine_message (e : MapError) : OneLine e.message := by
  cases e with
  | oddElementCount count => exact oneLine_append.mpr ⟨by decide, oneLine_toString count⟩
  | invalidKey got => exact oneLine_append.mpr ⟨by decide, got.oneLine_name⟩

theorem MetadataError.oneLine_message (e : MetadataError) : OneLine e.message := by
  cases e with
  | unsupported kind => exact oneLine_append.mpr ⟨kind.oneLine_name, by decide⟩
  | alreadyAttached kind => exact oneLine_append.mpr ⟨kind.oneLine_name, by decide⟩

/-- The message of an error is on one line, unless the error quotes a token that is not. -/
theorem ReadError.oneLine_message {e : ReadError}
    (h : ∀ token, e = .malformedString token → OneLine token) : OneLine e.message := by
  cases e with
  | unexpectedEnd =>
    show OneLine "unexpected EOF"
    decide
  | unterminated bracket => cases bracket <;> decide
  | malformedString token => exact oneLine_append.mpr ⟨by decide, h token rfl⟩
  | invalidMap cause => exact cause.oneLine_message
  | metadata cause => exact oneLine_append.mpr ⟨by decide, cause.oneLine_message⟩
  | tooDeeplyNested limit =>
    exact oneLine_append.mpr ⟨oneLine_append.mpr ⟨by decide, oneLine_toString limit⟩, by decide⟩

theorem oneLine_print_of_read {source : String} (h : OneLine source) {form : Value π}
    (hread : read source = .ok form) : OneLine (form.print .readable) := by
  rcases read_eq_ok_iff.mp hread with ⟨_, rfl⟩ | ⟨rest, hform⟩
  · show OneLine "()"
    decide
  · exact hform.oneLine fun _ => oneLine_of_mem_tokenize h

theorem oneLine_message_of_read {source : String} (h : OneLine source) {e : ReadError}
    (hread : (read source : Except ReadError (Value π)) = .error e) : OneLine e.message := by
  refine ReadError.oneLine_message ?_
  rintro token rfl
  exact oneLine_of_mem_tokenize h (mem_tokenize_of_read hread)

/-! ## Evaluation -/

/-- The text that is shown for the result of an evaluation. -/
def shown : Except EvalError (Value π) → String
  | .ok x => x.print .readable
  | .error e => e.message

theorem oneLine_print_of_isNumber {x : Value π} (h : x.isNumber = true) :
    OneLine (x.print .readable) := by
  obtain ⟨n, md, rfl⟩ | ⟨y, md, rfl⟩ := Value.isNumber_cases h
  · exact Atom.oneLine_print (by simp) (by simp)
  · exact Atom.oneLine_print (by simp) (by simp)

theorem Operator.oneLine_nonFinite (op : Operator) : OneLine op.nonFinite.message := by
  cases op <;> decide

theorem Operator.oneLine_reduce (op : Operator) (args : List (Value π)) :
    OneLine (shown (op.reduce args)) := by
  obtain ⟨_, hreduce⟩ | ⟨x, _, _, hreduce⟩ | ⟨_, _, ⟨value, hreduce, hnumber⟩ | hreduce⟩ :=
    op.reduce_cases args
  · rw [hreduce]
    exact oneLine_append.mpr ⟨op.oneLine_name, by decide⟩
  · rw [hreduce]
    exact oneLine_append.mpr
      ⟨oneLine_append.mpr ⟨op.oneLine_name, by decide⟩, x.kind.oneLine_name⟩
  · rw [hreduce]
    exact oneLine_print_of_isNumber hnumber
  · rw [hreduce]
    exact op.oneLine_nonFinite

/-- An application fails with the text of its head, or with names of functions. -/
theorem oneLine_applied {values : List (Value π)}
    (h : ∀ x ∈ values, OneLine (x.print .readable)) : OneLine (shown (applied values)) := by
  unfold applied
  split
  · show OneLine "()"
    decide
  · exact Operator.oneLine_reduce _ _
  · have hname := Value.oneLine_print_procedure.mp (h _ List.mem_cons_self)
    exact oneLine_append.mpr ⟨oneLine_append.mpr ⟨by decide, hname⟩, by decide⟩
  · exact oneLine_append.mpr ⟨h _ List.mem_cons_self, by decide⟩

/-- What one step of evaluation shows is on one line if the form and the values are, and the names
of the functions that the environment binds. -/
theorem oneLine_settle {env : Env π} (henv : ∀ s f, env.find? s = some f → OneLine f.name.text)
    {form : Value π} (hform : OneLine (form.print .readable)) {values : List (Value π)}
    (hvalues : ∀ x ∈ values, OneLine (x.print .readable)) :
    OneLine (shown (form.settle env values)) := by
  unfold Value.settle
  split
  · next s _ =>
    split
    · next f hf =>
      rw [shown, Value.oneLine_print_procedure]
      exact henv s f hf
    · exact oneLine_append.mpr ⟨oneLine_append.mpr ⟨by decide, hform⟩, by decide⟩
  · exact oneLine_applied hvalues
  · exact oneLine_applied hvalues
  · rw [shown, Value.oneLine_print_vector]
    exact hvalues
  · next entries _ =>
    rw [shown, Value.oneLine_print_map]
    intro entry hentry
    obtain ⟨hkey, hvalue⟩ := List.of_mem_zip hentry
    obtain ⟨other, hother, hkey⟩ := List.mem_map.mp hkey
    rw [← hkey]
    exact ⟨(Value.oneLine_print_map.mp hform other hother).1, hvalues _ hvalue⟩
  · exact hform

theorem Value.oneLine_subform {form x : Value π} (h : OneLine (form.print .readable))
    (hx : x ∈ form.subforms) : OneLine (x.print .readable) := by
  cases form with
  | list items md => exact oneLine_print_list.mp h x hx
  | vector items md => exact oneLine_print_vector.mp h x hx
  | map entries md =>
    obtain ⟨entry, hentry, rfl⟩ := List.mem_map.mp hx
    exact (oneLine_print_map.mp h entry hentry).2
  | sugar tag inner metaForm md => exact oneLine_print_sugar.mp h x hx
  | _ => cases hx

/-- What is shown for the result of a form on one line is on one line. -/
theorem oneLine_outcome {env : Env π} (henv : ∀ s f, env.find? s = some f → OneLine f.name.text)
    (limit : Option Nat) (depth : Nat) {form : Value π} (hform : OneLine (form.print .readable)) :
    OneLine (shown (outcome env limit depth form)) := by
  induction form using Value.induction_subforms generalizing depth with
  | step form ih =>
    have hsubforms : ∀ x ∈ form.subforms, OneLine (shown (outcome env limit (depth + 1) x)) :=
      fun x hx => ih x hx (depth + 1) (Value.oneLine_subform hform hx)
    have hresult : OneLine (shown
        (form.subforms.mapM (outcome env limit (depth + 1)) >>= form.settle env)) := by
      cases hvalues : form.subforms.mapM (outcome env limit (depth + 1)) with
      | error e =>
        obtain ⟨x, hx, hfails⟩ := exists_of_mapM_eq_error hvalues
        have hx := hsubforms x hx
        rwa [hfails] at hx
      | ok values =>
        refine oneLine_settle henv hform fun y hy => ?_
        obtain ⟨x, hx, hvalue⟩ := (exists_of_mapM_eq_ok hvalues).2 y hy
        have hx := hsubforms x hx
        rwa [hvalue] at hx
    rw [outcome_eq]
    unfold bounded
    split
    · exact hresult
    · next limit =>
      split
      · exact oneLine_append.mpr
          ⟨oneLine_append.mpr ⟨by decide, oneLine_toString limit⟩, by decide⟩
      · exact hresult

end MiniLisp
