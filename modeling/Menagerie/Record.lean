import Menagerie.Bytes.Address
import Menagerie.Bytes.Text
import Menagerie.Directory

/-! # Records

A record is a header followed by its fields. The header has one word per field: the distance from
the start of the record to that field. Fields follow each other without gaps, so a field ends where
the next one starts, and the last one ends with the record.

| kind | fields |
|---|---|
| animal | gene, name, sound |
| instance | world reference (unset at first), name, species reference |
| world | name, references to the instances listed |
-/

namespace Menagerie

/-- An encoded declaration. -/
structure Record where
  kind : RecordKind
  header : List UInt32
  bytes : Bytes
deriving DecidableEq, Repr, Inhabited

namespace Record

/-! ## 1. Header and fields -/

/-- The starts of fields laid end to end from a position on. -/
def starts (pos : Nat) : List Bytes → List Nat
  | [] => []
  | f :: fs => pos :: starts (pos + f.size) fs

/-- The record of a list of fields: the header, then the fields end to end. -/
def ofFields (kind : RecordKind) (fields : List Bytes) : Record :=
  let header := (starts (4 * fields.length) fields).map UInt32.ofNat
  { kind := kind
    header := header
    bytes := fields.foldl (· ++ ·) (header.foldl Bytes.pushWord #[]) }

/-- The length of a record, as it is kept in spans. -/
def len (r : Record) : UInt32 := UInt32.ofNat r.bytes.size

/-- The bytes of a single word. -/
def ofWord (w : UInt32) : Bytes := Bytes.pushWord #[] w

/-- The bytes of a text field, or the error that names the record, the field and the first
character without a byte. -/
def textField (kind : RecordKind) (name field s : String) : Except CompileError Bytes :=
  (Bytes.ofText s).mapError (.unencodable kind name field)

/-! ## 2. References -/

/-- The offset a directory has for the species of an instance. -/
def speciesOffset (g : Graph) (animals : Directory) (i : Instance) : Except CompileError Offset :=
  match g.animal? i.species with
  | none => .error (.unresolved (.species i.name) (.outOfRange .animal i.species.index))
  | some a =>
    match animals.get? a.name with
    | none => .error (.unresolved (.species i.name) (.unassigned .animal a.name))
    | some o => .ok o

/-- The offset a directory has for an instance that a world lists. -/
def memberOffset (g : Graph) (instances : Directory) (world : String) (r : Ref .inst) :
    Except CompileError Offset :=
  match g.inst? r with
  | none => .error (.unresolved (.listing world) (.outOfRange .inst r.index))
  | some i =>
    match instances.get? i.name with
    | none => .error (.unresolved (.listing world) (.unassigned .inst i.name))
    | some o => .ok o

/-! ## 3. The three kinds -/

/-- The record of an animal. -/
def ofAnimal (a : Animal) : Except CompileError Record := do
  let gene ← textField .animal a.name "gene" a.gene
  let name ← textField .animal a.name "name" a.name
  let sound ← textField .animal a.name "sound" a.sound
  pure (ofFields .animal [gene, name, sound])

/-- The record of an instance, its world still unset, given the offsets of the animals. -/
def ofInst (g : Graph) (animals : Directory) (i : Instance) : Except CompileError Record := do
  let species ← speciesOffset g animals i
  let name ← textField .inst i.name "name" i.name
  pure (ofFields .inst [ofWord Offset.unset.word, name, ofWord species.word])

/-- The record of a world, given the offsets of the instances. -/
def ofWorld (g : Graph) (instances : Directory) (w : World) : Except CompileError Record := do
  let name ← textField .world w.name "name" w.name
  let members ← w.contains.mapM (memberOffset g instances w.name)
  pure (ofFields .world [name, members.foldl (fun b o => b.pushWord o.word) #[]])

end Record

end Menagerie
