import Menagerie.Bytes
import Menagerie.Offset

/-! # Addresses computed from memory

A record begins with a header: one word per field, each the distance from the record's start to
that field. `fieldAddress?` follows a header word, `target?` follows a reference word.
-/

namespace Menagerie.Bytes

/-- The position of header slot `i`, relative to its record. -/
def slotAt (i : Nat) : Nat := 4 * i

/-- The word at an address. -/
def wordAt? (mem : Bytes) (a : Offset) : Option UInt32 := mem.word? a.toNat

/-- The address of field `i` of the record at `base`: the base plus the header word of slot `i`.
There is none if the header word lies outside memory or the sum leaves the address space. -/
def fieldAddress? (mem : Bytes) (base : Offset) (i : Nat) : Option Offset := do
  let header ← base.add? (slotAt i)
  let rel ← mem.wordAt? header
  base.add? rel.toNat

/-- The offset that the reference word at an address holds, unless the word is unset or lies
outside memory. -/
def target? (mem : Bytes) (a : Offset) : Option Offset := do
  let w ← mem.wordAt? a
  if (Offset.mk w).isUnset then none else some ⟨w⟩

end Menagerie.Bytes
