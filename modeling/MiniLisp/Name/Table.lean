import MiniLisp.Name

/-!
# Interned names

A name table keeps one copy in memory of every text that it meets, and never gives one up. Whoever
asks for a text gets the copy that is kept, so that two names of a table are told apart by the
places where they lie, without a look at their texts. Symbols and keywords have a table each.
-/

namespace MiniLisp

/-! ## Names in memory -/

/-- A text in memory, and the address of the place where it lies. -/
structure Name where
  address : Nat
  text : String
deriving Repr

namespace Name

/-- Names are the same if they lie at the same place. -/
instance : BEq Name := ⟨fun a b => a.address == b.address⟩

instance : Hashable Name := ⟨fun a => hash a.address⟩

/-- Names are ordered by their texts. -/
instance : Ord Name := ⟨fun a b => compare a.text b.text⟩

theorem beq_iff (a b : Name) : (a == b) = true ↔ a.address = b.address := by
  show (a.address == b.address) = true ↔ _
  exact beq_iff_eq

theorem compare_eq_iff (a b : Name) : compare a b = .eq ↔ a.text = b.text := by
  show compare a.text b.text = .eq ↔ _
  exact Std.compare_eq_iff_eq

instance : EquivBEq Name where
  rfl := (beq_iff _ _).mpr rfl
  symm h := (beq_iff _ _).mpr ((beq_iff _ _).mp h).symm
  trans h₁ h₂ := (beq_iff _ _).mpr (((beq_iff _ _).mp h₁).trans ((beq_iff _ _).mp h₂))

instance : LawfulHashable Name where
  hash_eq a b h := by
    show hash a.address = hash b.address
    rw [(beq_iff a b).mp h]

/-- The symbol of a name. -/
def toSymbol (name : Name) : Symbol := ⟨name.text⟩

/-- The keyword of a name. -/
def toKeyword (name : Name) : Keyword := ⟨name.text⟩

end Name

/-- How memory is given out: a free address, whatever addresses are in use. -/
structure Allocator where
  next : List Nat → Nat
  next_not_mem : ∀ used, next used ∉ used

/-- The least number that is greater than all of `used`. -/
def Allocator.above (used : List Nat) : Nat :=
  used.foldr (fun address bound => max (address + 1) bound) 0

theorem Allocator.lt_above {address : Nat} {used : List Nat} (h : address ∈ used) :
    address < above used := by
  induction used with
  | nil => cases h
  | cons first rest ih =>
    rw [above, List.foldr_cons]
    rcases List.mem_cons.mp h with rfl | h
    · exact Nat.lt_of_lt_of_le (Nat.lt_succ_self _) (Nat.le_max_left _ _)
    · exact Nat.lt_of_lt_of_le (ih h) (Nat.le_max_right _ _)

/-- Memory that is given out in the order of its addresses. -/
def Allocator.ascending : Allocator where
  next := above
  next_not_mem _ h := Nat.lt_irrefl _ (lt_above h)

/-! ## One table -/

/-- The names that a table keeps, the oldest first. -/
structure NameTable where
  names : List Name := []
deriving Repr

namespace NameTable

/-- How many names the table keeps. -/
def size (table : NameTable) : Nat := table.names.length

/-- The name that the table keeps for a text. -/
def find? (table : NameTable) (text : String) : Option Name :=
  table.names.find? (·.text == text)

/-- The name for a text, and the table that keeps it. A text that is not kept yet is put at the
address `free`. -/
def intern (table : NameTable) (free : Nat) (text : String) : Name × NameTable :=
  match table.find? text with
  | some name => (name, table)
  | none => (⟨free, text⟩, ⟨table.names ++ [⟨free, text⟩]⟩)

end NameTable

/-! ## The tables of symbols and of keywords -/

/-- What a name is used for. -/
inductive NameKind where
  | symbol
  | keyword
deriving DecidableEq, Repr, Inhabited

/-- A request for the name of a text. -/
structure NameRequest where
  kind : NameKind
  text : String
deriving DecidableEq, Repr

/-- The table of symbols and the table of keywords. -/
structure NameTables where
  symbols : NameTable := {}
  keywords : NameTable := {}
deriving Repr

namespace NameTables

/-- The table for a kind of names. -/
def table (tables : NameTables) : NameKind → NameTable
  | .symbol => tables.symbols
  | .keyword => tables.keywords

/-- The tables with another one for a kind of names. -/
def setTable (tables : NameTables) (kind : NameKind) (table : NameTable) : NameTables :=
  match kind with
  | .symbol => { tables with symbols := table }
  | .keyword => { tables with keywords := table }

/-- The addresses that are in use. -/
def addresses (tables : NameTables) : List Nat :=
  (tables.symbols.names ++ tables.keywords.names).map (·.address)

/-- The name that is asked for, and the tables that keep it. -/
def intern (allocator : Allocator) (tables : NameTables) (request : NameRequest) :
    Name × NameTables :=
  let free := allocator.next tables.addresses
  let (name, table) := (tables.table request.kind).intern free request.text
  (name, tables.setTable request.kind table)

/-- The names that are asked for, one after the other. -/
def internAll (allocator : Allocator) (tables : NameTables) :
    List NameRequest → List Name × NameTables
  | [] => ([], tables)
  | request :: rest =>
    let (name, tables) := tables.intern allocator request
    let (names, tables) := tables.internAll allocator rest
    (name :: names, tables)

end NameTables

end MiniLisp
