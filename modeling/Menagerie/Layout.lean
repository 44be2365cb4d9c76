import Menagerie.Record
import Menagerie.Traced
import Menagerie.View

/-! # Layouts

A layout places every record of a graph: all animals, then all instances, then all worlds, each
kind in the order of declaration, end to end from address 0. The order lets every reference be
encoded against offsets that are already known: instances refer to animals and worlds to instances.

For each record in turn the layout encodes it, checks that it still fits, reports it, and enters
its name; the first of these that fails ends the layout.
-/

namespace Menagerie

/-! ## 1. Limits -/

/-- The size of a memory page. -/
def pageSize : Nat := 65536

/-- How an image may be built. -/
structure ImageConfig where
  /-- The largest image allowed. -/
  maxBytes : Nat := 256 * pageSize
  /-- Whether an instance listed twice is an error. -/
  strict : Bool := false
deriving DecidableEq, Repr, Inhabited

namespace ImageConfig

/-- The configuration with the limit given in pages. The limit is a 64-bit number; a larger product
stays at the largest one. -/
def withMaxPages (c : ImageConfig) (pages : Nat) : ImageConfig :=
  { c with maxBytes := min (pages * pageSize) 0xFFFFFFFFFFFFFFFF }

/-- The limit that holds: never more than 32-bit offsets can address. -/
def limit (c : ImageConfig) : Nat := min c.maxBytes 0xFFFFFFFF

end ImageConfig

/-! ## 2. Placing records -/

/-- A record with its position among the declarations of its kind and its place in the image. -/
structure Placed where
  index : Nat
  offset : Offset
  record : Record
deriving DecidableEq, Repr, Inhabited

/-- Where the record lies. -/
def Placed.span (p : Placed) : Span := ⟨p.record.kind, p.offset, p.record.len⟩

/-- The places of all records of a graph. -/
structure Layout where
  animals : Directory
  instances : Directory
  worlds : Directory
  records : Array Placed
  total : Nat

namespace Layout

/-- A pass in progress: the names entered so far by this pass, all records placed so far, and the
first free address. -/
structure Progress where
  names : Directory
  records : Array Placed
  next : Nat

/-- Places one record: it must fit below `limit`, and its name must be new. -/
def place (limit : Nat) (p : Progress) (name : String) (index : Nat) (r : Record) : Traced Progress := do
  let stop := p.next + r.len.toNat
  let offset := Offset.ofNat p.next
  if limit < stop then Traced.fail (.overflow stop limit)
  else
    Traced.log (.allocated r.kind name offset r.len)
    let entered := p.names.insert name offset
    entered.1
    pure { names := entered.2, records := p.records.push ⟨index, offset, r⟩, next := stop }

/-- Places all declarations of one kind in order, after the records placed so far. -/
def pass {α : Type} (limit : Nat) (kind : RecordKind) (name : α → String)
    (encode : α → Except CompileError Record) (items : List α) (records : Array Placed) (next : Nat) :
    Traced Progress :=
  Traced.foldl (fun p (item, index) => do
      let r ← encode item
      place limit p (name item) index r)
    { names := Directory.empty kind, records, next } items.zipIdx

/-- The layout of a graph. -/
def ofGraph (c : ImageConfig) (g : Graph) : Traced Layout := do
  let a ← pass c.limit .animal Animal.name Record.ofAnimal g.animals.toList #[] 0
  let i ← pass c.limit .inst Instance.name (Record.ofInst g a.names) g.instances.toList a.records a.next
  let w ← pass c.limit .world World.name (Record.ofWorld g i.names) g.worlds.toList i.records i.next
  pure { animals := a.names, instances := i.names, worlds := w.names, records := w.records, total := w.next }

/-- The bytes of the image: as many zeros as the records take, with each record copied to its offset. -/
def bytes (l : Layout) : Bytes :=
  l.records.foldl (fun b p => b.overwrite p.offset.toNat p.record.bytes.toList) (Array.replicate l.total 0)

/-- The offsets of the world records in order. -/
def worldOffsets (l : Layout) : List Offset :=
  (l.records.toList.filter (·.record.kind = .world)).map (·.offset)

/-- The spans of all records in order. -/
def spans (l : Layout) : Array Span := l.records.map Placed.span

end Layout

end Menagerie
