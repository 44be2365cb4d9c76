import Menagerie.Numeral

/-! # Offsets

An `Offset` is an absolute byte address inside an image. One value is set apart: `Offset.unset`
fills a reference word that no world has claimed yet, and no record ever starts there.
-/

namespace Menagerie

/-- An absolute byte address, as wide as the words that store it. -/
structure Offset where
  word : UInt32
deriving DecidableEq, Repr, Inhabited

namespace Offset

/-- The mark of a reference that points nowhere yet. -/
def unset : Offset := ⟨0xFFFFFFFF⟩

/-- The address as a natural number. -/
def toNat (o : Offset) : Nat := o.word.toNat

/-- The offset of a natural number below `2 ^ 32`; larger numbers are reduced modulo `2 ^ 32`. -/
def ofNat (n : Nat) : Offset := ⟨UInt32.ofNat n⟩

/-- Whether the offset is the mark `unset`. -/
def isUnset (o : Offset) : Bool := o == unset

/-- The address `rel` bytes further on, unless that leaves the address space. -/
def add? (o : Offset) (rel : Nat) : Option Offset :=
  if o.toNat + rel < 0x100000000 then some (ofNat (o.toNat + rel)) else none

/-- An offset is written as a hexadecimal literal, the mark as `<unset>`. -/
def text (o : Offset) : String :=
  if o.isUnset then "<unset>" else Numeral.hexLiteral o.toNat

theorem toNat_lt (o : Offset) : o.toNat < 0x100000000 := o.word.toNat_lt

@[simp] theorem toNat_ofNat {n : Nat} (h : n < 0x100000000) : (ofNat n).toNat = n :=
  UInt32.toNat_ofNat_of_lt h

@[simp] theorem ofNat_toNat (o : Offset) : ofNat o.toNat = o := by
  simp [toNat, ofNat]

@[ext] theorem ext_toNat {a b : Offset} (h : a.toNat = b.toNat) : a = b := by
  rw [← ofNat_toNat a, ← ofNat_toNat b, h]

/-- **Adding succeeds exactly inside the address space**, and then adds. -/
theorem add?_eq_some_iff {o p : Offset} {rel : Nat} :
    o.add? rel = some p ↔ o.toNat + rel = p.toNat := by
  have hp := p.toNat_lt
  unfold add?
  split
  · rename_i h
    constructor
    · intro e
      rw [← Option.some.inj e, toNat_ofNat h]
    · intro e
      rw [e, ofNat_toNat]
  · constructor
    · intro e; cases e
    · intro e; omega

end Offset

end Menagerie
