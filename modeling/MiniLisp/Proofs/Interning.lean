import Mathlib.Data.List.Forall2
import Mathlib.Data.List.Induction
import Mathlib.Data.List.Nodup
import MiniLisp.Eval.Environment
import MiniLisp.Name.Table

/-!
# Identity of interned names

Names are told apart by their addresses and ordered by their texts. The two would be at odds if one
text lay at two places, or one place were given out twice. A table makes both impossible, whatever
was asked of it before: it looks a text up before it takes memory for it, and it gives nothing back,
so a free address is one that no name has.

Nothing is assumed of the allocator but that the address it gives is free. It may give any free
address each time, since more addresses are in use than at any time before. The tables take their
memory from the same allocator, so a symbol and a keyword never have the same address either.

Results:
1. `NameTables.intern_cases`: what one request does to the tables.
2. `NameTables.Sound.internAll`, `NameTables.extends_internAll`, `NameTables.mem_internAll_iff`: what
   any number of requests does to them.
3. `NameTables.Sound.beq_iff`: in sound tables, identity is equality of kinds and texts.
4. `Name.getElem?_hashed`: a hash map, which goes by identity, and a store that goes by texts.
5. `NameTables.internAll_identity`: all this, from empty tables.
-/

namespace MiniLisp

/-! ## Definitions -/

namespace NameTables

/-- The tables with one name more, the newest of its kind. -/
def add (tables : NameTables) (kind : NameKind) (name : Name) : NameTables :=
  tables.setTable kind ⟨(tables.table kind).names ++ [name]⟩

/-- Whatever `before` keeps, `after` keeps as it was. New names stand behind the old ones. -/
def Extends (before after : NameTables) : Prop :=
  ∀ kind, (before.table kind).names <+: (after.table kind).names

/-- A table keeps no text twice, and no two names lie at the same place. -/
structure Sound (tables : NameTables) : Prop where
  texts : ∀ kind, ((tables.table kind).names.map (·.text)).Nodup
  addresses : tables.addresses.Nodup

end NameTables

section Stores

variable {π α : Type}

/-- The hash map that took up `pairs` one after the other. It goes by the identity of names. -/
def Name.hashed (pairs : List (Name × α)) : Std.HashMap Name α :=
  pairs.foldl (fun map pair => map.insert pair.1 pair.2) ∅

/-- The frame that took up `bindings` of symbols one after the other. It goes by their texts. -/
def Frame.ofNames (bindings : List (Name × Procedure π)) : Frame π :=
  bindings.foldl (fun frame binding => frame.bind binding.1.toSymbol binding.2) {}

/-- The entries of a map that took up `pairs` one after the other, with keywords as its keys. It goes
by the order of their texts. -/
def Entries.ofNames (pairs : List (Name × α)) : Entries α :=
  ofPairs (pairs.map fun pair => (.keyword pair.1.toKeyword, pair.2))

end Stores

/-! ## One request -/

namespace NameTable

/-- The name that is kept is given, or a new one is put at the end of the table. -/
theorem intern_cases (table : NameTable) (free : Nat) (text : String) :
    (∃ name ∈ table.names, name.text = text ∧ table.intern free text = (name, table)) ∨
      (∀ name ∈ table.names, name.text ≠ text) ∧
        table.intern free text = (⟨free, text⟩, ⟨table.names ++ [⟨free, text⟩]⟩) := by
  cases hfind : table.find? text with
  | some name =>
    have htext : name.text = text := by simpa using List.find?_some hfind
    exact .inl ⟨name, List.mem_of_find?_eq_some hfind, htext, by rw [intern, hfind]⟩
  | none =>
    refine .inr ⟨fun name hname => ?_, by rw [intern, hfind]⟩
    simpa using List.find?_eq_none.mp hfind name hname

end NameTable

namespace NameTables

variable {tables : NameTables}

theorem setTable_table (tables : NameTables) (kind : NameKind) :
    tables.setTable kind (tables.table kind) = tables := by
  cases kind <;> rfl

theorem names_add (tables : NameTables) (kind other : NameKind) (name : Name) :
    ((tables.add kind name).table other).names =
      (tables.table other).names ++ if other = kind then [name] else [] := by
  cases kind <;> cases other <;> simp [add, setTable, table]

theorem addresses_add_perm (tables : NameTables) (kind : NameKind) (name : Name) :
    (tables.add kind name).addresses.Perm (name.address :: tables.addresses) := by
  have hnames : ((tables.add kind name).symbols.names ++ (tables.add kind name).keywords.names).Perm
      (name :: (tables.symbols.names ++ tables.keywords.names)) := by
    cases kind with
    | symbol =>
      show (tables.symbols.names ++ [name] ++ tables.keywords.names).Perm _
      rw [List.append_assoc]
      exact List.perm_middle
    | keyword =>
      show (tables.symbols.names ++ (tables.keywords.names ++ [name])).Perm _
      rw [← List.append_assoc]
      exact List.perm_append_singleton _ _
  exact hnames.map _

/-- What a request does: it finds the name in the table of its kind, or it adds a name with the text
at a free address. -/
theorem intern_cases (allocator : Allocator) (tables : NameTables) (request : NameRequest) :
    (∃ name ∈ (tables.table request.kind).names, name.text = request.text ∧
        tables.intern allocator request = (name, tables)) ∨
      ∃ name : Name, name.text = request.text ∧ name.address ∉ tables.addresses ∧
        (∀ kept ∈ (tables.table request.kind).names, kept.text ≠ request.text) ∧
        tables.intern allocator request = (name, tables.add request.kind name) := by
  obtain ⟨name, hname, htext, hintern⟩ | ⟨hnew, hintern⟩ :=
    (tables.table request.kind).intern_cases (allocator.next tables.addresses) request.text
  · refine .inl ⟨name, hname, htext, ?_⟩
    simp only [intern, hintern, setTable_table]
  · refine .inr ⟨⟨allocator.next tables.addresses, request.text⟩, rfl, ?_, hnew, ?_⟩
    · exact allocator.next_not_mem tables.addresses
    · simp only [intern, hintern, add]

theorem text_intern (allocator : Allocator) (tables : NameTables) (request : NameRequest) :
    (tables.intern allocator request).1.text = request.text := by
  obtain ⟨name, _, htext, hintern⟩ | ⟨name, htext, _, _, hintern⟩ :=
    tables.intern_cases allocator request
  · rw [hintern, htext]
  · rw [hintern, htext]

theorem Extends.refl (tables : NameTables) : tables.Extends tables := fun _ => List.prefix_rfl

theorem Extends.trans {first second third : NameTables} (h₁ : first.Extends second)
    (h₂ : second.Extends third) : first.Extends third := fun kind => (h₁ kind).trans (h₂ kind)

theorem extends_intern (allocator : Allocator) (tables : NameTables) (request : NameRequest) :
    tables.Extends (tables.intern allocator request).2 := by
  obtain ⟨_, _, _, hintern⟩ | ⟨name, _, _, _, hintern⟩ := tables.intern_cases allocator request
  · rw [hintern]
    exact .refl tables
  · intro kind
    rw [hintern, names_add]
    exact List.prefix_append _ _

/-- After a request a table keeps what it kept before and, if it is the table that was asked, the name
that was given. -/
theorem mem_intern_iff (allocator : Allocator) (tables : NameTables) (request : NameRequest)
    (kind : NameKind) (name : Name) :
    name ∈ ((tables.intern allocator request).2.table kind).names ↔
      name ∈ (tables.table kind).names ∨
        kind = request.kind ∧ name = (tables.intern allocator request).1 := by
  obtain ⟨found, hfound, _, hintern⟩ | ⟨new, _, _, _, hintern⟩ :=
    tables.intern_cases allocator request
  · rw [hintern]
    constructor
    · exact .inl
    · rintro (h | ⟨rfl, rfl⟩)
      · exact h
      · exact hfound
  · rw [hintern, names_add, List.mem_append]
    by_cases hkind : kind = request.kind <;> simp [hkind]

theorem sound_empty : ({} : NameTables).Sound where
  texts kind := by cases kind <;> exact List.nodup_nil
  addresses := List.nodup_nil

/-- A request leaves sound tables sound: a text that is added was not there, and its address was
free. -/
theorem Sound.intern (h : tables.Sound) (allocator : Allocator) (request : NameRequest) :
    (tables.intern allocator request).2.Sound := by
  obtain ⟨_, _, _, hintern⟩ | ⟨name, htext, hfree, hnew, hintern⟩ :=
    tables.intern_cases allocator request
  · rwa [hintern]
  · rw [hintern]
    constructor
    · intro kind
      rw [names_add]
      split
      · next hkind =>
        have hnotin : name.text ∉ (tables.table kind).names.map (·.text) := by
          intro hmem
          obtain ⟨kept, hkept, hsame⟩ := List.mem_map.mp hmem
          exact hnew kept (hkind ▸ hkept) (hsame.trans htext)
        rw [List.map_append, List.map_singleton, ← List.concat_eq_append]
        exact (h.texts kind).concat hnotin
      · rw [List.append_nil]
        exact h.texts kind
    · -- A symbol is added before all keywords, so the new address need not be the last one.
      rw [(addresses_add_perm tables request.kind name).nodup_iff]
      exact List.nodup_cons.mpr ⟨hfree, h.addresses⟩

/-! ## Any number of requests -/

theorem internAll_cons (allocator : Allocator) (tables : NameTables) (request : NameRequest)
    (rest : List NameRequest) :
    tables.internAll allocator (request :: rest) =
      ((tables.intern allocator request).1 ::
          ((tables.intern allocator request).2.internAll allocator rest).1,
        ((tables.intern allocator request).2.internAll allocator rest).2) := rfl

theorem internAll_append (allocator : Allocator) (tables : NameTables)
    (past future : List NameRequest) :
    (tables.internAll allocator (past ++ future)).2 =
      ((tables.internAll allocator past).2.internAll allocator future).2 := by
  induction past generalizing tables with
  | nil => rfl
  | cons request rest ih => rw [List.cons_append, internAll_cons, internAll_cons, ih]

theorem Sound.internAll (h : tables.Sound) (allocator : Allocator) (requests : List NameRequest) :
    (tables.internAll allocator requests).2.Sound := by
  induction requests generalizing tables with
  | nil => exact h
  | cons request rest ih => exact ih (h.intern allocator request)

theorem extends_internAll (allocator : Allocator) (tables : NameTables)
    (requests : List NameRequest) :
    tables.Extends (tables.internAll allocator requests).2 := by
  induction requests generalizing tables with
  | nil => exact .refl tables
  | cons request rest ih => exact (extends_intern allocator tables request).trans (ih _)

theorem forall₂_text_internAll (allocator : Allocator) (tables : NameTables)
    (requests : List NameRequest) :
    List.Forall₂ (fun request name => name.text = request.text) requests
      (tables.internAll allocator requests).1 := by
  induction requests generalizing tables with
  | nil => exact .nil
  | cons request rest ih => exact .cons (text_intern allocator tables request) (ih _)

/-- The tables keep what they kept before and what they gave, and nothing else. -/
theorem mem_internAll_iff (allocator : Allocator) (tables : NameTables)
    (requests : List NameRequest) (kind : NameKind) (name : Name) :
    name ∈ ((tables.internAll allocator requests).2.table kind).names ↔
      name ∈ (tables.table kind).names ∨
        ∃ text, (⟨kind, text⟩, name) ∈ requests.zip (tables.internAll allocator requests).1 := by
  induction requests generalizing tables with
  | nil => simp [internAll]
  | cons request rest ih =>
    obtain ⟨asked, text⟩ := request
    rw [internAll_cons, ih, mem_intern_iff, or_assoc]
    simp only [List.zip_cons_cons, List.mem_cons, Prod.mk.injEq, NameRequest.mk.injEq]
    refine or_congr_right ?_
    constructor
    · rintro (⟨rfl, hname⟩ | ⟨later, hlater⟩)
      · exact ⟨text, .inl ⟨⟨rfl, rfl⟩, hname⟩⟩
      · exact ⟨later, .inr hlater⟩
    · rintro ⟨later, ⟨⟨hkind, _⟩, hname⟩ | hlater⟩
      · exact .inl ⟨hkind, hname⟩
      · exact .inr ⟨later, hlater⟩

/-! ## Identity -/

theorem Sound.eq_of_text_eq (h : tables.Sound) {kind : NameKind} {a b : Name}
    (ha : a ∈ (tables.table kind).names) (hb : b ∈ (tables.table kind).names)
    (htext : a.text = b.text) : a = b :=
  List.inj_on_of_nodup_map (h.texts kind) ha hb htext

/-- What lies at one place is one name, of one kind. -/
theorem Sound.eq_of_address_eq (h : tables.Sound) {kind other : NameKind} {a b : Name}
    (ha : a ∈ (tables.table kind).names) (hb : b ∈ (tables.table other).names)
    (haddress : a.address = b.address) : kind = other ∧ a = b := by
  have hnodup := h.addresses
  rw [NameTables.addresses, List.map_append, List.nodup_append] at hnodup
  obtain ⟨hsymbols, hkeywords, hapart⟩ := hnodup
  cases kind with
  | symbol =>
    cases other with
    | symbol => exact ⟨rfl, List.inj_on_of_nodup_map hsymbols ha hb haddress⟩
    | keyword =>
      exact absurd haddress (hapart _ (List.mem_map_of_mem ha) _ (List.mem_map_of_mem hb))
  | keyword =>
    cases other with
    | symbol =>
      exact absurd haddress.symm (hapart _ (List.mem_map_of_mem hb) _ (List.mem_map_of_mem ha))
    | keyword => exact ⟨rfl, List.inj_on_of_nodup_map hkeywords ha hb haddress⟩

/-- Names are the same if and only if they are of one kind and have one text. -/
theorem Sound.beq_iff (h : tables.Sound) {kind other : NameKind} {a b : Name}
    (ha : a ∈ (tables.table kind).names) (hb : b ∈ (tables.table other).names) :
    (a == b) = true ↔ kind = other ∧ a.text = b.text := by
  rw [Name.beq_iff]
  constructor
  · intro haddress
    obtain ⟨hkind, rfl⟩ := h.eq_of_address_eq ha hb haddress
    exact ⟨hkind, rfl⟩
  · rintro ⟨rfl, htext⟩
    rw [h.eq_of_text_eq ha hb htext]

theorem Sound.beq_iff_text_eq (h : tables.Sound) {kind : NameKind} {a b : Name}
    (ha : a ∈ (tables.table kind).names) (hb : b ∈ (tables.table kind).names) :
    (a == b) = true ↔ a.text = b.text := by
  rw [h.beq_iff ha hb, and_iff_right rfl]

end NameTables

/-! ## Stores under names -/

namespace Name

variable {α σ : Type}

/-- A hash map finds what is found in a store in which each pair changes what is found under one name.
It is enough that the store does so for the names that are used. -/
theorem getElem?_hashed {names : List Name} {start : σ} {put : σ → Name × α → σ}
    (find? : σ → Name → Option α) (hstart : ∀ name, find? start name = none)
    (hput : ∀ store, ∀ pair : Name × α, pair.1 ∈ names → ∀ name ∈ names,
      find? (put store pair) name = if (pair.1 == name) = true then some pair.2 else find? store name)
    {pairs : List (Name × α)} (hpairs : ∀ pair ∈ pairs, pair.1 ∈ names) {name : Name}
    (hname : name ∈ names) : (hashed pairs)[name]? = find? (pairs.foldl put start) name := by
  -- From the end, as the last pair of a name decides.
  induction pairs using List.reverseRecOn with
  | nil => rw [List.foldl_nil, hstart, hashed, List.foldl_nil, Std.HashMap.getElem?_empty]
  | append_singleton pairs pair ih =>
    have hpair : pair.1 ∈ names := hpairs pair (List.mem_append_right _ List.mem_cons_self)
    have hearlier := ih fun pair hpair => hpairs pair (List.mem_append_left _ hpair)
    rw [hashed, List.foldl_concat, Std.HashMap.getElem?_insert, List.foldl_concat,
      hput _ pair hpair name hname, ← hearlier, hashed]

end Name

theorem Frame.find?_bind {π : Type} (frame : Frame π) (symbol other : Symbol) (f : Procedure π) :
    (frame.bind symbol f).find? other = if other = symbol then some f else frame.find? other := by
  rw [Frame.find?, Frame.bind, List.lookup_cons, Frame.find?]
  by_cases h : other = symbol
  · simp [h]
  · simp [h, beq_false_of_ne h]

namespace NameTables

variable {π α : Type} {tables : NameTables}

/-- What symbols are bound to is found by their identity as it is found by their texts. -/
theorem Sound.find?_frame (h : tables.Sound) {bindings : List (Name × Procedure π)}
    (hbindings : ∀ binding ∈ bindings, binding.1 ∈ (tables.table .symbol).names) {name : Name}
    (hname : name ∈ (tables.table .symbol).names) :
    (Name.hashed bindings)[name]? = (Frame.ofNames bindings).find? name.toSymbol := by
  refine Name.getElem?_hashed (fun frame name => Frame.find? frame name.toSymbol) (fun _ => rfl)
    ?_ hbindings hname
  intro frame binding hbinding name hname
  have hsame := h.beq_iff_text_eq hbinding hname
  simp only [Frame.find?_bind, Name.toSymbol, Symbol.mk.injEq, hsame, eq_comm]

/-- What keywords are the keys of is found by their identity as it is found in the order of their
texts. -/
theorem Sound.find?_entries (h : tables.Sound) {pairs : List (Name × α)}
    (hpairs : ∀ pair ∈ pairs, pair.1 ∈ (tables.table .keyword).names) {name : Name}
    (hname : name ∈ (tables.table .keyword).names) :
    (Name.hashed pairs)[name]? = (Entries.ofNames pairs).find? (.keyword name.toKeyword) := by
  rw [Entries.ofNames, Entries.ofPairs, List.foldl_map]
  refine Name.getElem?_hashed (fun entries name => Entries.find? (.keyword name.toKeyword) entries)
    (fun _ => rfl) ?_ hpairs hname
  intro entries pair hpair name hname
  have hsame := h.beq_iff_text_eq hpair hname
  simp only [Entries.find?_insert, Name.toKeyword, MapKey.keyword.injEq, Keyword.mk.injEq, hsame,
    eq_comm]

/-! ## From empty tables -/

/-- Whatever was asked of the tables since they were empty, and in whatever order, names are the same
if and only if they are of one kind and have one text. -/
theorem internAll_identity {π : Type} (allocator : Allocator) (requests : List NameRequest) :
    let names := (internAll allocator {} requests).1
    let tables := (internAll allocator {} requests).2
    -- Each table keeps the names that it gave, no text twice and no two names at one place.
    (∀ kind name, name ∈ (tables.table kind).names ↔
      ∃ text, (⟨kind, text⟩, name) ∈ requests.zip names) ∧
    (∀ kind, ((tables.table kind).names.map (·.text)).Nodup) ∧
    tables.addresses.Nodup ∧
    -- What was kept at any earlier time is kept now, as it was.
    (∀ past future, requests = past ++ future →
      Extends (internAll allocator {} past).2 tables) ∧
    -- Each name has the text that was asked for.
    List.Forall₂ (fun request name => name.text = request.text) requests names ∧
    -- Identity, which goes by addresses, and order, which goes by texts, agree.
    (∀ r a s b, (r, a) ∈ requests.zip names → (s, b) ∈ requests.zip names →
      ((a == b) = true ↔ r = s) ∧
      (r.kind = s.kind →
        ((a == b) = true ↔ a.text = b.text) ∧ (compare a b = .eq ↔ (a == b) = true))) ∧
    -- So bindings and the entries of maps are found by identity as they are found by texts.
    (∀ bindings : List (Name × Procedure π),
      (∀ binding ∈ bindings, binding.1 ∈ (tables.table .symbol).names) →
      ∀ name ∈ (tables.table .symbol).names,
        (Name.hashed bindings)[name]? = (Frame.ofNames bindings).find? name.toSymbol) ∧
    (∀ pairs : List (Name × Value π),
      (∀ pair ∈ pairs, pair.1 ∈ (tables.table .keyword).names) →
      ∀ name ∈ (tables.table .keyword).names,
        (Name.hashed pairs)[name]? = (Entries.ofNames pairs).find? (.keyword name.toKeyword)) := by
  intro names tables
  have hsound : tables.Sound := sound_empty.internAll allocator requests
  have htexts := forall₂_text_internAll allocator {} requests
  have hmem : ∀ kind name, name ∈ (tables.table kind).names ↔
      ∃ text, (⟨kind, text⟩, name) ∈ requests.zip names := by
    intro kind name
    refine (mem_internAll_iff allocator {} requests kind name).trans (or_iff_right ?_)
    cases kind <;> exact List.not_mem_nil
  refine ⟨hmem, hsound.texts, hsound.addresses, ?_, htexts, ?_, ?_, ?_⟩
  · rintro past future rfl
    show Extends _ (internAll allocator {} (past ++ future)).2
    rw [internAll_append]
    exact extends_internAll allocator _ future
  · intro r a s b ha hb
    have hra : a.text = r.text := (List.forall₂_iff_zip.mp htexts).2 ha
    have hsb : b.text = s.text := (List.forall₂_iff_zip.mp htexts).2 hb
    have hsame := hsound.beq_iff ((hmem r.kind a).mpr ⟨r.text, ha⟩)
      ((hmem s.kind b).mpr ⟨s.text, hb⟩)
    refine ⟨?_, fun hkind => ?_⟩
    · rw [hsame, hra, hsb]
      cases r
      cases s
      rw [NameRequest.mk.injEq]
    · rw [Name.compare_eq_iff, hsame, and_iff_right hkind]
      exact ⟨Iff.rfl, Iff.rfl⟩
  · intro bindings hbindings name hname
    exact hsound.find?_frame hbindings hname
  · intro pairs hpairs name hname
    exact hsound.find?_entries hpairs hname

/-- The symbol `a` is asked for twice, with the keyword `a` and another symbol between. -/
theorem internAll_identity_repeated :
    let a : Name := ⟨0, "a"⟩
    let keyword : Name := ⟨1, "a"⟩
    let b : Name := ⟨2, "b"⟩
    let past : List NameRequest := [⟨.symbol, "a"⟩, ⟨.keyword, "a"⟩]
    let future : List NameRequest := [⟨.symbol, "b"⟩, ⟨.symbol, "a"⟩]
    let shadow : Procedure Empty := ⟨⟨"shadow"⟩, .invalid⟩
    let bindings := [(a, ⟨⟨"f"⟩, .invalid⟩), (b, ⟨⟨"g"⟩, .invalid⟩), (a, shadow)]
    let result := internAll .ascending {} (past ++ future)
    result.1 = [a, keyword, b, a] ∧
      Extends (internAll .ascending {} past).2 result.2 ∧
      ((a == keyword) = true ↔ (⟨.symbol, "a"⟩ : NameRequest) = ⟨.keyword, "a"⟩) ∧
      ((a == b) = true ↔ a.text = b.text) ∧ (compare a b = .eq ↔ (a == b) = true) ∧
      (Name.hashed bindings)[a]? = (Frame.ofNames bindings).find? a.toSymbol ∧
      (Frame.ofNames bindings).find? a.toSymbol = some shadow ∧
      (Name.hashed [(keyword, (.nil : Value Empty))])[keyword]? =
        (Entries.ofNames [(keyword, .nil)]).find? (.keyword keyword.toKeyword) := by
  intro a keyword b past future shadow bindings result
  have hnames : result.1 = [a, keyword, b, a] := by rfl
  have hsymbols : (result.2.table .symbol).names = [a, b] := by rfl
  have hkeywords : (result.2.table .keyword).names = [keyword] := by rfl
  obtain ⟨_, _, _, hpast, _, hidentity, hbindings, hpairs⟩ :=
    @internAll_identity Empty .ascending (past ++ future)
  have ha : (⟨.symbol, "a"⟩, a) ∈ (past ++ future).zip result.1 := by
    rw [hnames]
    exact List.mem_cons_self
  have hkeyword : (⟨.keyword, "a"⟩, keyword) ∈ (past ++ future).zip result.1 := by
    rw [hnames]
    exact List.mem_cons_of_mem _ List.mem_cons_self
  have hb : (⟨.symbol, "b"⟩, b) ∈ (past ++ future).zip result.1 := by
    rw [hnames]
    exact List.mem_cons_of_mem _ (List.mem_cons_of_mem _ List.mem_cons_self)
  obtain ⟨hsame, hcompare⟩ := (hidentity _ a _ b ha hb).2 rfl
  refine ⟨hnames, hpast past future rfl, (hidentity _ a _ keyword ha hkeyword).1, hsame, hcompare,
    hbindings bindings ?_ a ?_, rfl, hpairs _ ?_ keyword ?_⟩
  · rw [hsymbols]
    simp [bindings]
  · rw [hsymbols]
    exact List.mem_cons_self
  · rw [hkeywords]
    simp
  · rw [hkeywords]
    exact List.mem_cons_self

end NameTables

end MiniLisp
