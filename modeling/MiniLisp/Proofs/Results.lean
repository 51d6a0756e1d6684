import MiniLisp.Proofs.NormalForms
import MiniLisp.Proofs.Programs

/-!
# Results are their own values

What a source evaluates to is final: it holds no symbols, no applications and no shorthands, at any
depth. If there are no functions in it either, its text is a source for it, and evaluating it again
changes nothing. So the output of the step from a text to a text is a fixed point of that step.

`Value.Written` is what is used of a form that was read, and it passes to the value of the form. The
keywords of both were tokens of the source, which is why they can be read again.

Results:
1. `written_of_read`, `written_of_outcome`: what the reader returns is written, and so is what a
   written form evaluates to, if there are no functions in it.
2. `Value.Written.legible`: a written and final value can be read from its text.
3. `rep_fixed`: the output as a source.
-/

namespace MiniLisp

open Token Grammar NormalisationLemmas

variable {π : Type}

/-! ## Definitions -/

namespace Value

/-- The floats in the value read back from their texts. -/
def FloatsReadBack (value : Value π) : Prop :=
  ∀ x md, Within (.atom (.float x) md) value →
    ReadsAs ((Atom.float x).print .readable) (.float x : Value π)

/-- A form as it can stand in a source: there are no functions and no empty `list`, keywords can be
read from their texts, and maps are sorted. -/
inductive Written : Value π → Prop
  | nil : Written .nil
  | unit : Written .unit
  | atom {a : Atom} {md : Option (Value π)} :
      (∀ k, a = .keyword k → a.Legible π) → Written (.atom a md)
  | list {items : List (Value π)} {md : Option (Value π)} :
      items ≠ [] → (∀ x ∈ items, Written x) → Written (.list items md)
  | vector {items : List (Value π)} {md : Option (Value π)} :
      (∀ x ∈ items, Written x) → Written (.vector items md)
  | map {entries : List (MapKey × Value π)} {md : Option (Value π)} :
      Entries.Sorted entries → (∀ entry ∈ entries, entry.1.atom.Legible π) →
      (∀ entry ∈ entries, Written entry.2) → Written (.map entries md)
  | sugar {tag : Symbol} {form : Value π} {metaForm md : Option (Value π)} :
      Written form → (∀ m ∈ metaForm, Written m) → Written (.sugar tag form metaForm md)

theorem FloatsReadBack.of_parts {value : Value π}
    (hparts : ∀ part ∈ value.parts, part.FloatsReadBack)
    (hvalue : ∀ x md, value = .atom (.float x) md →
      ReadsAs ((Atom.float x).print .readable) (.float x : Value π)) : value.FloatsReadBack := by
  intro x md hwithin
  cases hwithin with
  | refl => exact hvalue x md rfl
  | part hpart hwithin => exact hparts _ hpart x md hwithin

theorem FloatsReadBack.of_parts_eq_nil {value : Value π} (hparts : value.parts = [])
    (hvalue : ∀ x md, value ≠ .atom (.float x) md) : value.FloatsReadBack := by
  refine .of_parts ?_ fun x md h => absurd h (hvalue x md)
  rw [hparts]
  exact List.forall_mem_nil _

theorem FloatsReadBack.part {part value : Value π} (h : value.FloatsReadBack)
    (hpart : part ∈ value.parts) : part.FloatsReadBack :=
  fun x md hwithin => h x md (.part hpart hwithin)

/-! ## Written forms -/

theorem Written.setMetadata {value : Value π} (h : value.Written) (md : Option (Value π)) :
    (value.setMetadata md).Written := by
  cases h with
  | nil => exact .nil
  | unit => exact .unit
  | atom hkeyword => exact .atom hkeyword
  | list hne hitems => exact .list hne hitems
  | vector hitems => exact .vector hitems
  | map hsorted hkeys hvalues => exact .map hsorted hkeys hvalues
  | sugar hform hmeta => exact .sugar hform hmeta

theorem Written.part {part value : Value π} (h : value.Written) (hpart : part ∈ value.parts) :
    part.Written := by
  cases h with
  | nil => cases hpart
  | unit => cases hpart
  | atom _ => cases hpart
  | list _ hitems => exact hitems part hpart
  | vector hitems => exact hitems part hpart
  | map _ _ hvalues =>
    obtain ⟨entry, hentry, rfl⟩ := List.mem_map.mp hpart
    exact hvalues entry hentry
  | sugar hform hmeta =>
    rcases List.mem_cons.mp hpart with rfl | hpart
    · exact hform
    · exact hmeta part (Option.mem_toList.mp hpart)

theorem Written.subform {x form : Value π} (h : form.Written) (hx : x ∈ form.subforms) :
    x.Written := by
  rcases mem_subforms hx with hpart | ⟨tag, rfl⟩
  · exact h.part hpart
  · refine .atom ?_
    rintro k ⟨⟩

theorem Written.legible_key {value : Value π} {key : MapKey} (h : value.Written)
    (hkey : value.toKey = .ok key) : key.atom.Legible π := by
  obtain ⟨md, rfl⟩ := toKey_eq_ok hkey
  cases key with
  | string text => exact Atom.legible_string text
  | keyword k =>
    cases h with
    | atom hkeyword => exact hkeyword k rfl

end Value

/-! ## What the reader returns -/

theorem written_of_denotes {token : Token} {value : Value π} {shape : Shape} {others : List Char}
    (hlexeme : Lexeme shape token.toList others) (hleader : token ∉ leaders)
    (hdenotes : Denotes token value) : value.Written := by
  cases hdenotes with
  | @keyword name hcolon =>
    have hvalue : Denotes token (.keyword ⟨String.ofList name⟩ : Value π) := .keyword hcolon
    have hlegible := legible_of_denotes hlexeme hleader hvalue
      (Value.reprintable_atom (by simp) none)
    cases hlegible with
    | atom h => exact .atom fun _ _ => h
  | string _ _ =>
    refine .atom ?_
    rintro k ⟨⟩
  | scalar _ _ =>
    have hatom : ∀ a : Atom, (∀ k, a ≠ .keyword k) → (Value.atom a none : Value π).Written :=
      fun a ha => .atom fun k hk => absurd hk (ha k)
    rcases scalar_cases π token with ⟨n, h⟩ | ⟨x, h⟩ | ⟨b, h⟩ | h | h
    · exact h ▸ hatom _ (by simp)
    · exact h ▸ hatom _ (by simp)
    · exact h ▸ hatom _ (by simp)
    · exact h ▸ .nil
    · exact h ▸ hatom _ (by simp)

theorem written_of_gathers {bracket : Bracket} {items : List (Value π)} {value : Value π}
    (hgather : Gathers bracket items value) (hitems : ∀ x ∈ items, x.Written) : value.Written := by
  cases hgather with
  | unit => exact .unit
  | list hne => exact .list hne hitems
  | vector => exact .vector hitems
  | map hmap =>
    obtain ⟨pairs, hpairs, rfl⟩ := Value.mapOfItems_eq_ok hmap
    refine .map (Entries.sorted_ofPairs pairs) ?_ ?_
    · intro entry hentry
      obtain ⟨⟨key, hkey, htoKey⟩, _⟩ :=
        Value.mem_of_mem_toPairs hpairs (Entries.mem_of_mem_ofPairs hentry)
      exact (hitems key hkey).legible_key htoKey
    · intro entry hentry
      exact hitems _ (Value.mem_of_mem_toPairs hpairs (Entries.mem_of_mem_ofPairs hentry)).2

namespace Grammar

mutual

/-- What is read from tokens of a text is written. -/
theorem Form.written {k : Nat} {tokens rest : List Token} {value : Value π} :
    Form k tokens value rest →
      (∀ token ∈ tokens, ∃ shape others, Lexeme shape token.toList others) → value.Written
  | .collection hitems hgather => fun htokens =>
    written_of_gathers hgather (hitems.written (List.forall_mem_cons.mp htokens).2)
  | .shorthand _ hform => fun htokens =>
    .sugar (hform.written (List.forall_mem_cons.mp htokens).2) (by simp)
  | .annotated hmetadata hform _ _ => fun htokens => by
    have htokens := (List.forall_mem_cons.mp htokens).2
    have hmeta := hmetadata.written htokens
    obtain ⟨used, _, rfl⟩ := hmetadata.consumes
    have hinner := hform.written (List.forall_mem_append.mp htokens).2
    exact .sugar (hinner.setMetadata _) (by simpa using hmeta)
  | .literal hleader hdenotes => fun htokens => by
    obtain ⟨shape, others, hlexeme⟩ := htokens _ (List.mem_cons_self ..)
    exact written_of_denotes hlexeme hleader hdenotes

theorem Items.written {k : Nat} {closer : Token} {tokens rest : List Token}
    {values : List (Value π)} :
    Items k closer tokens values rest →
      (∀ token ∈ tokens, ∃ shape others, Lexeme shape token.toList others) →
      ∀ x ∈ values, x.Written
  | .nil => fun _ => List.forall_mem_nil _
  | .cons _ hform hitems => fun htokens => by
    have hfirst := hform.written htokens
    obtain ⟨used, _, rfl⟩ := hform.consumes
    exact List.forall_mem_cons.mpr
      ⟨hfirst, hitems.written (List.forall_mem_append.mp htokens).2⟩

end

end Grammar

theorem written_of_read {source : String} {value : Value π} (hread : read source = .ok value) :
    value.Written := by
  rcases read_eq_ok_iff.mp hread with ⟨_, rfl⟩ | ⟨rest, hform⟩
  · exact .unit
  · refine hform.written ?_
    intro token hmem
    exact (lexed_ofChars source.toList).exists_lexeme hmem

/-! ## What evaluation returns -/

theorem written_of_isNumber {x : Value π} (h : x.isNumber = true) : x.Written := by
  obtain ⟨n, md, rfl⟩ | ⟨y, md, rfl⟩ := Value.isNumber_cases h
  · exact .atom (by simp)
  · exact .atom (by simp)

/-- A map keeps its keys. -/
theorem written_zip {entries : List (MapKey × Value π)} {values : List (Value π)}
    (hlength : entries.length = values.length) (hsorted : Entries.Sorted entries)
    (hkeys : ∀ entry ∈ entries, entry.1.atom.Legible π) (hvalues : ∀ x ∈ values, x.Written) :
    (Value.map ((entries.map Prod.fst).zip values) none).Written := by
  have hfst : ((entries.map Prod.fst).zip values).map Prod.fst = entries.map Prod.fst :=
    List.map_fst_zip (by simp [hlength])
  refine .map ?_ ?_ ?_
  · have hpairwise : (entries.map Prod.fst).Pairwise fun j k => compare j k = .lt :=
      List.pairwise_map.mpr hsorted
    rw [← hfst] at hpairwise
    exact List.pairwise_map.mp hpairwise
  · intro entry hentry
    obtain ⟨other, hother, hkey⟩ := List.mem_map.mp (List.of_mem_zip hentry).1
    exact hkey ▸ hkeys other hother
  · intro entry hentry
    exact hvalues _ (List.of_mem_zip hentry).2

/-- What a written form evaluates to is written, unless there are functions in it. -/
theorem written_of_outcome {env : Env π} {limit : Option Nat} {depth : Nat} {form x : Value π}
    (hform : form.Written) (h : outcome env limit depth form = .ok x) (hfree : x.FunctionFree) :
    x.Written := by
  induction form using Value.induction_subforms generalizing depth x with
  | step form ih =>
    obtain ⟨values, hvalues, hsettle⟩ := exists_values_of_outcome h
    have hwritten : ∀ y ∈ values, y.FunctionFree → y.Written := by
      intro y hy
      obtain ⟨subform, hmem, houtcome⟩ := (exists_of_mapM_eq_ok hvalues).2 y hy
      exact ih subform hmem (hform.subform hmem) houtcome
    cases hform with
    | nil =>
      cases hsettle
      exact .nil
    | unit =>
      cases hsettle
      exact .unit
    | @atom a md hkeyword =>
      cases a with
      | symbol s =>
        rw [Value.settle] at hsettle
        split at hsettle <;> cases hsettle
        exact absurd rfl (hfree.ne_procedure _ _)
      | _ =>
        cases hsettle
        exact .atom hkeyword
    | list hne _ =>
      have hnumber := isNumber_of_applied hvalues hsettle
      exact written_of_isNumber (hnumber.trans (by simpa [Value.subforms] using hne))
    | vector _ =>
      cases hsettle
      exact .vector fun y hy => hwritten y hy (hfree.part hy)
    | map hsorted hkeys _ =>
      cases hsettle
      have hlength := (mapM_eq_ok_iff.mp hvalues).length_eq
      rw [Value.subforms, List.length_map] at hlength
      refine written_zip hlength hsorted hkeys fun y hy => hwritten y hy (hfree.part ?_)
      rw [Value.parts, List.map_snd_zip (by simp [hlength])]
      exact hy
    | sugar _ _ => exact written_of_isNumber (isNumber_of_applied hvalues hsettle)

theorem Value.Final.not_isSymbol {value : Value π} (h : value.Final) (name : String) :
    ¬ value.IsSymbol name := by
  rintro ⟨md, rfl⟩
  cases h with
  | atom hsymbol => exact hsymbol _ rfl

/-- The text of a value is read as the value, if the value is final and its floats are read back. -/
theorem Value.Written.legible {value : Value π} (h : value.Written) (hfinal : value.Final)
    (hfloats : value.FloatsReadBack) : value.Legible := by
  induction h with
  | nil => exact .nil
  | unit => exact .unit
  | @atom a md hkeyword =>
    refine .atom ?_
    cases a with
    | bool b => exact Atom.legible_bool b
    | int n => exact Atom.legible_int n
    | float x => exact legible_float (hfloats x md .refl)
    | symbol s =>
      cases hfinal with
      | atom hsymbol => exact absurd rfl (hsymbol s)
    | string text => exact Atom.legible_string text
    | keyword k => exact hkeyword k rfl
  | list hne _ _ =>
    cases hfinal
    exact absurd rfl hne
  | vector _ ih =>
    refine .vector ?_ fun x hx => (hfinal.part hx).not_isSymbol _
    intro x hx
    exact ih x hx (hfinal.part hx) (hfloats.part hx)
  | @map entries md hsorted hkeys _ ih =>
    have hpart : ∀ entry ∈ entries, entry.2 ∈ (Value.map entries md).parts :=
      fun _ hentry => List.mem_map_of_mem hentry
    refine .map hsorted hkeys ?_ ?_
    · intro entry hentry
      exact ih entry hentry (hfinal.part (hpart entry hentry)) (hfloats.part (hpart entry hentry))
    · intro entry hentry
      exact (hfinal.part (hpart entry hentry)).not_isSymbol _
  | sugar _ _ _ _ => cases hfinal

/-! ## The output as a source -/

/-- If the value of a source holds no functions, and its floats read back from their texts, then the
output for the source is a source of that value, and it is its own output. -/
theorem rep_fixed (host : Host π) {source out : String} {form result : Value π}
    {gauge after : Gauge} (hread : read source = .ok form)
    (heval : (eval host .standard form).run gauge = .ok result after)
    (hrep : (rep host .standard source).run gauge = .ok out after)
    (hfunctions : result.FunctionFree) (hfloats : result.FloatsReadBack) :
    (∃ again, read out = .ok again ∧ (again == result) = true) ∧
      (rep host .standard out).run gauge = .ok out gauge := by
  rw [run_eval host Env.arithmetic_standard (functionFree_of_read hread)] at heval
  have houtcome := eq_ok_of_ends heval
  rw [run_rep host Env.arithmetic_standard hread, houtcome] at hrep
  cases hrep
  have hfinal := final_of_outcome houtcome
  have hwritten := written_of_outcome (written_of_read hread) houtcome hfunctions
  -- The text is not too high for the reader, since the source was not.
  have hform := (hwritten.legible hfinal hfloats).form_tokenize
    (Nat.le_trans (height_le_of_value houtcome) (height_le_of_read hread))
  have hagain : read (result.print .readable) = .ok result.erase :=
    read_eq_ok_iff.mpr (.inr ⟨[], hform⟩)
  refine ⟨⟨result.erase, hagain, (Value.beq_iff_erase_eq _ _).mpr result.erase_erase⟩, ?_⟩
  -- Nor is it too high for the limit, since the form was evaluated under it.
  have hown : outcome .standard (some gauge.limit) gauge.depth result = .ok result := by
    have hrun := hfinal.run_eval host .standard (room_of_outcome houtcome)
    rw [run_eval host Env.arithmetic_standard hfunctions] at hrun
    exact eq_ok_of_ends hrun
  rw [run_rep host Env.arithmetic_standard hagain,
    map_print_of_map_bare (outcome_erase _ _ _ hfunctions), hown]
  rfl

/-- A vector with a float that has to be computed and a map that has not. -/
theorem rep_fixed_quotient :
    let source := "[(/ 1 2.0) \x7b:k ()\x7d]"
    let out := "[0.5 \x7b:k ()\x7d]"
    let half := Binary64.ofBits 0x3fe0000000000000
    let result : Value Empty := .vector [.float half, .map [(.keyword ⟨"k"⟩, .unit)] none] none
    result.FunctionFree ∧ result.FloatsReadBack ∧
      (rep Host.none .standard source).run {} = .ok out {} ∧
      (∃ again, read out = .ok again ∧ (again == result) = true) ∧
      (rep Host.none .standard out).run {} = .ok out {} := by
  intro source out half result
  let two := Binary64.ofBits 0x4000000000000000
  let quotient : Value Empty := .list [.symbol ⟨"/"⟩, .int 1, .float two] none
  let entries : Value Empty := .map [(.keyword ⟨"k"⟩, .unit)] none
  let form : Value Empty := .vector [quotient, entries] none
  have hread : read source = .ok form := by
    have htokens : tokenize source =
        ["[", "(", "/", "1", "2.0", ")", "\x7b", ":k", "(", ")", "\x7d", "]"] := by
      decide +kernel
    have hint : Numeral.int64? "2.0".toList = none := by decide +kernel
    have hbinary : Numeral.binary64? "2.0".toList = some two := by decide +kernel
    have hscalar : (scalar "2.0" : Value Empty) = .float two := by simp only [scalar, hint, hbinary]
    have hfloat : Denotes "2.0" (.float two : Value Empty) :=
      hscalar ▸ .scalar (by decide) (by decide)
    have hentries : Form 511 ["\x7b", ":k", "(", ")", "\x7d", "]"] entries ["]"] :=
      form_sound 511 rfl
    have hquotient : Form 511
        ["(", "/", "1", "2.0", ")", "\x7b", ":k", "(", ")", "\x7d", "]"] quotient
        ["\x7b", ":k", "(", ")", "\x7d", "]"] :=
      @Form.collection _ 510 .list _ _ _ _ (.cons (by decide) (form_sound 510 rfl)
        (.cons (by decide) (form_sound 510 rfl)
          (.cons (by decide) (.literal (by decide) hfloat) .nil))) (.list (by simp))
    rw [read_eq_ok_iff, htokens]
    exact .inr ⟨[], @Form.collection _ 511 .vector _ _ _ _
      (.cons (by decide) hquotient (.cons (by decide) hentries .nil)) .vector⟩
  have hvalue : unlimited .standard form = .ok result := by
    have hfind : (Env.standard : Env Empty).find? ⟨"/"⟩ = some (Operator.procedure .div) :=
      Env.find?_standard_eq_some_iff.mpr ⟨.div, rfl, rfl⟩
    have htotal : Operator.div.total (.int 1) [.float two] = half := by decide +kernel
    have hquotient : unlimited .standard quotient = .ok (.float half) := by
      simp only [quotient, unlimited_eq, Value.subforms, Value.symbol, Value.int, Value.float,
        List.mapM_cons, List.mapM_nil, pure_bind, Value.settle, hfind]
      rw [← htotal]
      rfl
    have hentries : unlimited .standard entries = .ok entries := by
      simp only [entries, unlimited_eq, Value.subforms, List.map_cons, List.map_nil,
        List.mapM_cons, List.mapM_nil, pure_bind, Value.settle]
      rfl
    rw [unlimited_eq]
    simp only [form, Value.subforms, List.mapM_cons, List.mapM_nil, hquotient, hentries]
    rfl
  have houtcome : outcome .standard (some maxEvalDepth) 0 form = .ok result :=
    outcome_eq_ok_iff.mpr ⟨by decide +kernel, hvalue⟩
  have heval : (eval Host.none .standard form).run {} = .ok result {} := by
    rw [run_eval Host.none Env.arithmetic_standard (functionFree_of_read hread), houtcome]
    rfl
  have hrep : (rep Host.none .standard source).run {} = .ok out {} := by
    have hprint : result.print .readable = out := by decide +kernel
    rw [run_rep Host.none Env.arithmetic_standard hread, houtcome, ← hprint]
    rfl
  have hfunctions : result.FunctionFree := by
    have hmap : entries.FunctionFree :=
      .of_parts (List.forall_mem_singleton.mpr (.of_parts_eq_nil rfl rfl)) rfl
    exact .of_parts (List.forall_mem_cons.mpr
      ⟨Value.functionFree_atom _ _, List.forall_mem_singleton.mpr hmap⟩) rfl
  have hfloats : result.FloatsReadBack := by
    have hhalf : ReadsAs ((Atom.float half).print .readable) (.float half : Value Empty) := by
      decide +kernel
    have hmap : entries.FloatsReadBack :=
      .of_parts (List.forall_mem_singleton.mpr (.of_parts_eq_nil rfl (by simp))) (by simp [entries])
    have hfloat : (Value.float half : Value Empty).FloatsReadBack := by
      refine .of_parts (List.forall_mem_nil _) ?_
      rintro x md ⟨⟩
      exact hhalf
    exact .of_parts (List.forall_mem_cons.mpr ⟨hfloat, List.forall_mem_singleton.mpr hmap⟩)
      (by simp [result])
  exact ⟨hfunctions, hfloats, hrep, rep_fixed Host.none hread heval hrep hfunctions hfloats⟩

end MiniLisp
