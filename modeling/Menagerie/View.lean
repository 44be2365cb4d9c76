import Menagerie.Bytes.Address
import Menagerie.Bytes.Text
import Menagerie.Graph
import Menagerie.PartitionPoint

/-! # Views

A `View` reads a buffer with the help of the spans of the records in it. It works on any buffer
laid out by these spans, also one that a running program has changed since.

* `spanAt?`, `spanContaining?`, `spanEndingAt?` find a record by address; spans are kept in
  increasing order of offset, so they are found by halving (`partitionPoint`);
* `field?` cuts out a field between two header words, `fieldAt?` finds the field that begins at an
  address;
* `animal?`, `inst?`, `world?` read a whole record back.
-/

namespace Menagerie

/-! ## 1. Spans -/

/-- Where one record lies. -/
structure Span where
  kind : RecordKind
  offset : Offset
  len : UInt32
deriving DecidableEq, Repr, Inhabited

namespace Span

/-- The first address after the record. -/
def stop (s : Span) : Nat := s.offset.toNat + s.len.toNat

/-- Whether an address lies inside the record. -/
def contains (s : Span) (a : Nat) : Bool := s.offset.toNat ≤ a && a < s.stop

end Span

/-! ## 2. Finding records -/

/-- A buffer and the spans of the records in it, in increasing order of offset. -/
structure View where
  bytes : Bytes
  spans : Array Span
deriving DecidableEq, Repr, Inhabited

/-- What an instance record says. -/
structure InstEntry where
  name : String
  species : Offset
  world : Offset
deriving DecidableEq, Repr, Inhabited

/-- What a world record says. -/
structure WorldEntry where
  name : String
  contains : List Offset
deriving DecidableEq, Repr, Inhabited

namespace View

/-- The last span that satisfies `p`, among spans that satisfy it up to some point. -/
def lastSpan? (v : View) (p : Span → Bool) : Option Span :=
  match partitionPoint p v.spans with
  | 0 => none
  | n + 1 => v.spans[n]?

/-- The word at an address. -/
def word? (v : View) (a : Offset) : Option UInt32 := v.bytes.wordAt? a

/-- The record that starts at an address. -/
def spanAt? (v : View) (a : Offset) : Option Span :=
  (v.spans[partitionPoint (fun s => s.offset.toNat < a.toNat) v.spans]?).filter (·.offset == a)

/-- The record that an address lies in. -/
def spanContaining? (v : View) (a : Offset) : Option Span :=
  (v.lastSpan? fun s => s.offset.toNat ≤ a.toNat).filter (·.contains a.toNat)

/-- The record that ends just before an address. -/
def spanEndingAt? (v : View) (a : Offset) : Option Span :=
  (v.lastSpan? fun s => s.offset.toNat < a.toNat).filter (·.stop == a.toNat)

/-! ## 3. Fields -/

/-- The end of field `i` of the record at `base`, relative to the record: the start of the next
field, or the length of the record for the last one. -/
def fieldEnd? (v : View) (s : Span) (base : Offset) (i : Nat) : Option UInt32 := do
  if i + 1 < s.kind.slots then
    let header ← base.add? (Bytes.slotAt (i + 1))
    v.word? header
  else
    some s.len

/-- The bytes of field `i` of the record that starts at `base`. There are none if the header does
not describe a stretch inside the record, or the stretch leaves the buffer. -/
def field? (v : View) (base : Offset) (i : Nat) : Option Bytes := do
  let s ← v.spanAt? base
  if i < s.kind.slots then
    let header ← base.add? (Bytes.slotAt i)
    let first ← v.word? header
    let last ← v.fieldEnd? s base i
    if first ≤ last ∧ last ≤ s.len ∧ base.toNat + last.toNat ≤ v.bytes.size then
      some (v.bytes.extract (base.toNat + first.toNat) (base.toNat + last.toNat))
    else none
  else none

/-- Among candidate records, the first of the kind wanted whose header says that field `i` begins
at address `a`; an unreadable header ends the search. -/
def fieldAmong? (v : View) (a : Offset) (kind : RecordKind) (i : Nat) : List Span → Option Bytes
  | [] => none
  | s :: rest =>
    if s.kind = kind then do
      let header ← s.offset.add? (Bytes.slotAt i)
      let rel ← v.word? header
      if s.offset.toNat + rel.toNat = a.toNat then v.field? s.offset i
      else fieldAmong? v a kind i rest
    else fieldAmong? v a kind i rest

/-- The bytes of field `i` of a record of a kind, found by the address at which the field begins.
An empty last field begins where its record ends, so the record ending there is tried as well. -/
def fieldAt? (v : View) (a : Offset) (kind : RecordKind) (i : Nat) : Option Bytes :=
  v.fieldAmong? a kind i ((v.spanContaining? a).toList ++ (v.spanEndingAt? a).toList)

/-- The text of the field that begins at an address. -/
def textAt? (v : View) (a : Offset) (kind : RecordKind) (i : Nat) : Option String :=
  (v.fieldAt? a kind i).map Bytes.toText

/-! ## 4. Whole records -/

/-- The text of field `i` of the record at `base`. -/
def text? (v : View) (base : Offset) (i : Nat) : Option String :=
  (v.field? base i).map Bytes.toText

/-- The reference in field `i` of the record at `base`, which must be exactly one word. -/
def reference? (v : View) (base : Offset) (i : Nat) : Option Offset := do
  let b ← v.field? base i
  if b.size = 4 then (b.word? 0).map Offset.mk else none

/-- Whether a record of a kind starts at an address. -/
def startsRecord (v : View) (a : Offset) (kind : RecordKind) : Bool :=
  (v.spanAt? a).any (·.kind == kind)

/-- The animal whose record starts at `base`. -/
def animal? (v : View) (base : Offset) : Option Animal := do
  guard (v.startsRecord base .animal)
  let gene ← v.text? base Slot.animalGene
  let name ← v.text? base Slot.animalName
  let sound ← v.text? base Slot.animalSound
  pure { name, gene, sound }

/-- The instance whose record starts at `base`. -/
def inst? (v : View) (base : Offset) : Option InstEntry := do
  guard (v.startsRecord base .inst)
  let name ← v.text? base Slot.instName
  let species ← v.reference? base Slot.instSpecies
  let world ← v.reference? base Slot.instWorld
  pure { name, species, world }

/-- The world whose record starts at `base`. Its list is read word by word. -/
def world? (v : View) (base : Offset) : Option WorldEntry := do
  guard (v.startsRecord base .world)
  let members ← v.field? base Slot.worldContains
  let name ← v.text? base Slot.worldName
  pure { name, contains := (Bytes.words members).map Offset.mk }

end View

end Menagerie
