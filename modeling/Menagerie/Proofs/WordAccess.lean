import Menagerie.Proofs.Writes

/-! # Laws of word access

A write that has no room is refused and changes nothing. With that settled, writes obey their laws
wherever they go:

* `Bytes.written` -- what a write leaves, whether it is refused or not;
* `Bytes.getElem?_written` -- **the whole effect of a write, byte by byte**, from which the other laws
  follow;
* `Bytes.written_comm`, `Bytes.written_again` -- **writes four bytes apart can be swapped**, and of two
  writes at one position the later one stands;
* `Bytes.size_lt_of_wraps` -- a position so high that its end wraps around lies outside every buffer;
* `Bytes.word_access_laws` -- all of them, with the laws of reading and appending.
-/

namespace Menagerie.Bytes

variable {b : Bytes} {p q : Nat} {v w : UInt32}

/-! ## 1. One write -/

/-- What a write leaves, whether it goes through or not. -/
def written (b : Bytes) (pos : Nat) (w : UInt32) : Bytes := (b.writeWord pos w).2

theorem written_of_room (h : p + 4 ≤ b.size) : b.written p v = b.setWord p v := by
  rw [written, writeWord_of_room h]

theorem written_of_no_room (h : b.size < p + 4) : b.written p v = b := by
  rw [written, writeWord_of_no_room h]

@[simp] theorem size_written (b : Bytes) (p : Nat) (v : UInt32) : (b.written p v).size = b.size :=
  size_writeWord b p v

/-- **What a write does to each byte.** -/
theorem getElem?_written (b : Bytes) (p : Nat) (v : UInt32) (i : Nat) :
    (b.written p v)[i]? =
      if p + 4 ≤ b.size ∧ p ≤ i ∧ i < p + 4 then some (wordByte v (i - p)) else b[i]? := by
  by_cases h : p + 4 ≤ b.size
  · rw [written_of_room h, getElem?_setWord v h]
    simp only [h, true_and]
  · rw [written_of_no_room (Nat.lt_of_not_le h), if_neg fun hi => h hi.1]

theorem getElem?_written_of_outside {i : Nat} (h : i < p ∨ p + 4 ≤ i) :
    (b.written p v)[i]? = b[i]? := by
  rw [getElem?_written, if_neg (by omega)]

theorem word?_written_of_disjoint (h : p + 4 ≤ q ∨ q + 4 ≤ p) : (b.written p v).word? q = b.word? q :=
  word?_congr fun j hj => getElem?_written_of_outside (by omega)

/-! ## 2. Two writes -/

/-- **Writes four bytes apart can be swapped.** -/
theorem written_comm (h : p + 4 ≤ q ∨ q + 4 ≤ p) :
    (b.written p v).written q w = (b.written q w).written p v := by
  refine Array.ext_getElem? fun i => ?_
  simp only [getElem?_written, size_written]
  -- no byte lies in both words
  by_cases hp : p ≤ i ∧ i < p + 4
  · have hq : ¬ (q ≤ i ∧ i < q + 4) := by omega
    simp only [hq, and_false, if_false]
  · simp only [hp, and_false, if_false]

/-- **Of two writes at one position the later one stands.** -/
theorem written_again : (b.written p v).written p w = b.written p w := by
  refine Array.ext_getElem? fun i => ?_
  simp only [getElem?_written, size_written]
  by_cases hi : p + 4 ≤ b.size ∧ p ≤ i ∧ i < p + 4
  · rw [if_pos hi, if_pos hi]
  · rw [if_neg hi, if_neg hi, if_neg hi]

/-! ## 3. Positions near the end of the address space -/

theorem toNat_add_four (pos : USize) : (pos + 4).toNat = (pos.toNat + 4) % USize.size := by
  have hfour : (4 : USize).toNat = 4 := USize.toNat_ofNat_of_lt_32 (by decide)
  rw [USize.toNat_add, hfour]

/-- **A position whose end wraps around lies outside every buffer.** -/
theorem size_lt_of_wraps {pos : USize} (hb : b.size < USize.size) (h : pos + 4 < pos) :
    b.size < pos.toNat + 4 := by
  have hend : USize.size ≤ pos.toNat + 4 := by
    refine Nat.le_of_not_lt fun hlt => ?_
    have hless := USize.lt_iff_toNat_lt.mp h
    rw [toNat_add_four, Nat.mod_eq_of_lt hlt] at hless
    omega
  omega

/-! ## 4. The laws together -/

/-- **Laws of word access.** A write or a read goes through exactly if its four bytes lie inside the buffer,
and a write that does not go through changes nothing. One that does keeps the length and all bytes outside
its word, and is read back; it does not change what is read four bytes or more away. Two writes that far
apart can be swapped, and of two writes at one position the later one stands. A position whose end wraps
around the address space is refused like any other outside the buffer. An appended word follows the old
bytes and is read behind them. -/
theorem word_access_laws (b : Bytes) (p q : Nat) (v w : UInt32) :
    ((b.writeWord p v).1.isSome ↔ p + 4 ≤ b.size) ∧
    ((b.word? p).isSome ↔ p + 4 ≤ b.size) ∧
    ((b.writeWord p v).1 = none → b.written p v = b) ∧
    ((b.writeWord p v).1 = some () →
      (b.written p v).size = b.size ∧ (b.written p v).word? p = some v ∧
      (∀ i, i < p ∨ p + 4 ≤ i → (b.written p v)[i]? = b[i]?) ∧
      (p + 4 ≤ q ∨ q + 4 ≤ p → (b.written p v).word? q = b.word? q)) ∧
    (p + 4 ≤ q ∨ q + 4 ≤ p → (b.written p v).written q w = (b.written q w).written p v) ∧
    (b.written p v).written p w = b.written p w ∧
    (∀ pos : USize, b.size < USize.size → pos + 4 < pos →
      (b.writeWord pos.toNat v).1 = none ∧ b.word? pos.toNat = none) ∧
    b.toList <+: (b.pushWord v).toList ∧ (b.pushWord v).size = b.size + 4 ∧
    (b.pushWord v).word? b.size = some v := by
  refine ⟨isSome_writeWord, isSome_word?, fun h => ?_, fun h => ?_, written_comm, written_again,
    fun pos hb hpos => ?_, ?_, size_pushWord b v, word?_pushWord b v⟩
  · have hroom : ¬ p + 4 ≤ b.size := fun hle => by
      rw [writeWord_of_room hle] at h
      cases h
    exact written_of_no_room (Nat.lt_of_not_le hroom)
  · have hroom : p + 4 ≤ b.size := isSome_writeWord.mp (Option.isSome_of_eq_some h)
    have hread := word?_setWord_self v hroom
    rw [← written_of_room hroom] at hread
    exact ⟨size_written b p v, hread, fun i => getElem?_written_of_outside, word?_written_of_disjoint⟩
  · have hout := size_lt_of_wraps hb hpos
    exact ⟨congrArg Prod.fst (writeWord_of_no_room hout), dif_neg (Nat.not_le.mpr hout)⟩
  · rw [pushWord_eq_append, Array.toList_append]
    exact List.prefix_append _ _

/-- Eight bytes have room for two words side by side, which can be written in either order. At position
five a word has no room, and none next to the end of the address space. -/
theorem eight_bytes_hold_two_words : ∃ b : Bytes, b = #[0, 0, 0, 0, 0, 0, 0, 0] ∧
    (b.writeWord 0 0xDEADBEEF).1 = some () ∧ (b.written 0 0xDEADBEEF).word? 0 = some 0xDEADBEEF ∧
    (b.written 0 0xDEADBEEF).word? 4 = some 0 ∧
    (b.written 0 0xDEADBEEF).written 4 7 = (b.written 4 7).written 0 0xDEADBEEF ∧
    (b.writeWord 5 7).1 = none ∧ b.written 5 7 = b ∧
    ∃ pos : USize, pos + 4 < pos ∧ (b.writeWord pos.toNat 7).1 = none := by
  obtain ⟨b, hb⟩ : ∃ b : Bytes, b = #[0, 0, 0, 0, 0, 0, 0, 0] := ⟨_, rfl⟩
  have hsize : b.size = 8 := by rw [hb]; rfl
  obtain ⟨hroom, -, -, hwritten, hswap, -⟩ := word_access_laws b 0 4 0xDEADBEEF 7
  obtain ⟨hnone, -, hkept, -, -, -, hwrap, -⟩ := word_access_laws b 5 0 7 0
  obtain ⟨_, hdone⟩ := Option.isSome_iff_exists.mp (hroom.mpr (by omega))
  obtain ⟨-, hread, -, hother⟩ := hwritten hdone
  have hfive : (b.writeWord 5 7).1 = none :=
    Option.not_isSome_iff_eq_none.mp fun h => absurd (hnone.mp h) (by omega)
  -- the greatest position but one
  obtain ⟨pos, hpos⟩ : ∃ pos : USize, pos.toNat = USize.size - 2 :=
    ⟨USize.ofNatLT (USize.size - 2) (Nat.sub_lt USize.size_pos (by decide)), rfl⟩
  have hwraps : pos + 4 < pos := by
    rw [USize.lt_iff_toNat_lt, toNat_add_four, hpos]
    rcases USize.size_eq with h | h
    · rw [h]
      decide
    · rw [h]
      decide
  have haddressed : b.size < USize.size := by
    rcases USize.size_eq with h | h <;> omega
  refine ⟨b, hb, hdone, hread, ?_, hswap (by decide), hfive, hkept hfive, pos, hwraps,
    (hwrap pos haddressed hwraps).1⟩
  rw [hother (by decide), hb]
  decide

end Menagerie.Bytes
