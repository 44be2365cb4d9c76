import Menagerie.Error
import Menagerie.NameTable

/-! # Directories

A `Directory` maps the names of the records of one kind to their offsets and remembers the order
in which the names came. A name is entered once: **a second entry is refused and the first one
stays** (`insert_of_new`, `insert_of_taken`).
-/

namespace Menagerie

/-- The names of one kind with their offsets, in the order of entry. -/
structure Directory where
  kind : RecordKind
  table : NameTable

namespace Directory

/-- The directory without entries. -/
def empty (kind : RecordKind) : Directory := ⟨kind, .empty⟩

/-- The offset entered for a name. -/
def get? (d : Directory) (name : String) : Option Offset := d.table.get? name

/-- The entry at a position. -/
def nth? (d : Directory) (i : Nat) : Option (String × Offset) := d.table.nth? i

/-- The number of entries. -/
def size (d : Directory) : Nat := d.table.size

/-- The entries in order. -/
def toList (d : Directory) : List (String × Offset) := d.table.toList

/-- Enters a name, unless it is taken: what came of it, and the directory afterwards. -/
def insert (d : Directory) (name : String) (offset : Offset) : Except CompileError Unit × Directory :=
  match h : d.table.get? name with
  | some _ => (.error (.duplicateName d.kind name), d)
  | none => (.ok (), { d with table := d.table.add name offset h })

/-- The directory after entering a list of names, those that are refused included. -/
def ofList (kind : RecordKind) (entries : List (String × Offset)) : Directory :=
  entries.foldl (fun d (name, offset) => (d.insert name offset).2) (empty kind)

/-! What the table is known to do is all that is used of it. -/

@[simp] theorem toList_empty (kind : RecordKind) : (empty kind).toList = [] :=
  NameTable.keepsOrder.toList_empty

theorem nodup_toList (d : Directory) : (d.toList.map (·.1)).Nodup := NameTable.keepsOrder.nodup d.table

/-- **The directory answers exactly its entries.** -/
theorem get?_eq_some_iff {d : Directory} {name : String} {o : Offset} :
    d.get? name = some o ↔ (name, o) ∈ d.toList :=
  NameTable.keepsOrder.get?_eq_some_iff d.table name o

theorem get?_eq_lookup (d : Directory) (name : String) : d.get? name = d.toList.lookup name :=
  Option.ext fun _ => get?_eq_some_iff.trans (lookup_eq_some_iff d.nodup_toList).symm

theorem nth?_eq (d : Directory) (i : Nat) : d.nth? i = d.toList[i]? := NameTable.keepsOrder.nth?_eq d.table i

theorem size_eq (d : Directory) : d.size = d.toList.length := NameTable.keepsOrder.size_eq d.table

/-- **A new name is entered at the end**, and nothing else changes. -/
theorem insert_of_new {d : Directory} {name : String} (h : d.get? name = none) (offset : Offset) :
    ∃ d', d.insert name offset = (.ok (), d') ∧ d'.kind = d.kind ∧
      d'.toList = d.toList ++ [(name, offset)] := by
  unfold insert
  split
  · rename_i o ho
    exact absurd (ho.symm.trans h) (Option.some_ne_none o)
  · exact ⟨_, rfl, rfl, NameTable.keepsOrder.toList_add d.table name offset h⟩

/-- **A name that is taken is refused**, and the directory stays as it is. -/
theorem insert_of_taken {d : Directory} {name : String} {o : Offset} (h : d.get? name = some o)
    (offset : Offset) : d.insert name offset = (.error (.duplicateName d.kind name), d) := by
  unfold insert
  split
  · rfl
  · rename_i hn
    exact absurd (h.symm.trans hn) (Option.some_ne_none o)

end Directory

end Menagerie
