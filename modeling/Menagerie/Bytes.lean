/-! # Byte buffers and words

A buffer is an array of bytes. Words are 32 bits wide and little-endian: the byte at the lowest
position is the least significant.

* `word?` reads the word at a position, `writeWord` overwrites it, `pushWord` appends one;
* **reading and overwriting refuse exactly the positions whose four bytes do not lie inside the buffer**
  (`isSome_word?`, `isSome_writeWord`);
* **what is written is read back, and only there** (`word?_setWord_self`,
  `word?_setWord_of_disjoint`, `word?_pushWord`).
-/

namespace Menagerie

/-! ## 1. Words and their bytes -/

/-- A byte buffer. -/
abbrev Bytes := Array UInt8

/-- Byte `k` of a word, counted from the least significant. -/
def wordByte (w : UInt32) (k : Nat) : UInt8 :=
  UInt8.ofNat (w.toNat >>> (8 * k))

/-- The word of four bytes, least significant first. -/
def joinBytes (a b c d : UInt8) : UInt32 :=
  UInt32.ofNat (a.toNat + 256 * (b.toNat + 256 * (c.toNat + 256 * d.toNat)))

theorem toNat_wordByte (w : UInt32) (k : Nat) :
    (wordByte w k).toNat = (w.toNat >>> (8 * k)) % 256 :=
  UInt8.toNat_ofNat'

/-- The four bytes of a word make up the word. -/
theorem joinBytes_wordByte (w : UInt32) :
    joinBytes (wordByte w 0) (wordByte w 1) (wordByte w 2) (wordByte w 3) = w := by
  have h := w.toNat_lt
  apply UInt32.toNat_inj.mp
  simp only [joinBytes, UInt32.toNat_ofNat', toNat_wordByte]
  omega

namespace Bytes

/-! ## 2. Access -/

/-- The word at position `pos`, if its four bytes lie inside the buffer. -/
def word? (b : Bytes) (pos : Nat) : Option UInt32 :=
  if h : pos + 4 ≤ b.size then
    some (joinBytes b[pos] b[pos + 1] b[pos + 2] b[pos + 3])
  else none

/-- The buffer with the word at position `pos` overwritten; `pos` must lie inside it with its four
bytes. -/
def setWord (b : Bytes) (pos : Nat) (w : UInt32) : Bytes :=
  (((b.setIfInBounds pos (wordByte w 0)).setIfInBounds (pos + 1) (wordByte w 1)).setIfInBounds
    (pos + 2) (wordByte w 2)).setIfInBounds (pos + 3) (wordByte w 3)

/-- Overwrites the word at position `pos`, if its four bytes lie inside the buffer: whether they do, and
the buffer afterwards. -/
def writeWord (b : Bytes) (pos : Nat) (w : UInt32) : Option Unit × Bytes :=
  if pos + 4 ≤ b.size then (some (), b.setWord pos w) else (none, b)

/-- The buffer with bytes copied into it from position `pos` on, as far as they lie inside it. -/
def overwrite (b : Bytes) (pos : Nat) : List UInt8 → Bytes
  | [] => b
  | x :: xs => overwrite (b.setIfInBounds pos x) (pos + 1) xs

/-- The buffer with a word appended. -/
def pushWord (b : Bytes) (w : UInt32) : Bytes :=
  (((b.push (wordByte w 0)).push (wordByte w 1)).push (wordByte w 2)).push (wordByte w 3)

/-- The words of a buffer read in order; up to three bytes left over at the end are not a word. -/
def words (b : Bytes) : List UInt32 :=
  (List.range (b.size / 4)).filterMap fun k => b.word? (4 * k)

/-! ## 3. Where access succeeds -/

theorem isSome_word? {b : Bytes} {pos : Nat} : (b.word? pos).isSome ↔ pos + 4 ≤ b.size := by
  unfold word?
  split <;> simp_all

theorem writeWord_of_room {b : Bytes} {pos : Nat} {w : UInt32} (h : pos + 4 ≤ b.size) :
    b.writeWord pos w = (some (), b.setWord pos w) :=
  if_pos h

/-- **A word that has no room is not written**: the buffer comes back as it was. -/
theorem writeWord_of_no_room {b : Bytes} {pos : Nat} {w : UInt32} (h : b.size < pos + 4) :
    b.writeWord pos w = (none, b) :=
  if_neg (Nat.not_le.mpr h)

theorem isSome_writeWord {b : Bytes} {pos : Nat} {w : UInt32} :
    (b.writeWord pos w).1.isSome ↔ pos + 4 ≤ b.size := by
  unfold writeWord
  split <;> simp_all

@[simp] theorem size_setWord (b : Bytes) (pos : Nat) (w : UInt32) : (b.setWord pos w).size = b.size := by
  simp [setWord]

@[simp] theorem size_writeWord (b : Bytes) (pos : Nat) (w : UInt32) :
    (b.writeWord pos w).2.size = b.size := by
  unfold writeWord
  split
  · exact size_setWord b pos w
  · rfl

@[simp] theorem size_overwrite (b : Bytes) (pos : Nat) (xs : List UInt8) :
    (b.overwrite pos xs).size = b.size := by
  induction xs generalizing b pos with
  | nil => rfl
  | cons x xs ih => rw [overwrite, ih, Array.size_setIfInBounds]

@[simp] theorem size_pushWord (b : Bytes) (w : UInt32) : (b.pushWord w).size = b.size + 4 := by
  simp [pushWord]

/-! ## 4. What access reads -/

/-- Reading a word is reading its four bytes. -/
theorem word?_eq_bind (b : Bytes) (pos : Nat) :
    b.word? pos = b[pos]?.bind fun x => b[pos + 1]?.bind fun y => b[pos + 2]?.bind fun z =>
      b[pos + 3]?.map fun t => joinBytes x y z t := by
  unfold word?
  split
  · rename_i h
    rw [Array.getElem?_eq_getElem (by omega), Array.getElem?_eq_getElem (by omega),
      Array.getElem?_eq_getElem (by omega), Array.getElem?_eq_getElem (by omega)]
    rfl
  · rename_i h
    rw [Array.getElem?_eq_none (i := pos + 3) (by omega)]
    simp

/-- Overwriting a word changes its four bytes and no other. -/
theorem getElem?_setWord {b : Bytes} {pos : Nat} (w : UInt32) (h : pos + 4 ≤ b.size) (i : Nat) :
    (b.setWord pos w)[i]? = if pos ≤ i ∧ i < pos + 4 then some (wordByte w (i - pos)) else b[i]? := by
  unfold setWord
  simp only [Array.getElem?_setIfInBounds, Array.size_setIfInBounds]
  by_cases h0 : i = pos
  · subst h0; simp; omega
  by_cases h1 : i = pos + 1
  · subst h1; simp; omega
  by_cases h2 : i = pos + 2
  · subst h2; simp; omega
  by_cases h3 : i = pos + 3
  · subst h3; simp; omega
  have : ¬ (pos ≤ i ∧ i < pos + 4) := by omega
  simp [this, Ne.symm h0, Ne.symm h1, Ne.symm h2, Ne.symm h3]

theorem word?_setWord_self {b : Bytes} {pos : Nat} (w : UInt32) (h : pos + 4 ≤ b.size) :
    (b.setWord pos w).word? pos = some w := by
  simp [word?_eq_bind, getElem?_setWord w h, joinBytes_wordByte]

theorem word?_setWord_of_disjoint {b : Bytes} {p q : Nat} (w : UInt32) (h : p + 4 ≤ b.size)
    (hd : p + 4 ≤ q ∨ q + 4 ≤ p) : (b.setWord p w).word? q = b.word? q := by
  simp only [word?_eq_bind, getElem?_setWord w h]
  rw [if_neg (by omega), if_neg (by omega), if_neg (by omega), if_neg (by omega)]

/-- **Bytes copied behind the first bytes of a buffer continue them**, and what lies behind the copy
stays. -/
theorem overwrite_append (done : Bytes) {rest part : List UInt8} (h : part.length ≤ rest.length) :
    overwrite (done ++ rest.toArray) done.size part =
      done ++ part.toArray ++ (rest.drop part.length).toArray := by
  induction part generalizing done rest with
  | nil => simp [overwrite]
  | cons x part ih =>
    cases rest with
    | nil => cases h
    | cons y rest =>
      have hset : Array.setIfInBounds (done ++ (y :: rest).toArray) done.size x =
          done.push x ++ rest.toArray := by
        rw [Array.setIfInBounds_append_right (Nat.le_refl _), Nat.sub_self, List.setIfInBounds_toArray,
          List.set_cons_zero]
        simp
      have hrest := ih (done.push x) (Nat.le_of_succ_le_succ h)
      rw [Array.size_push] at hrest
      rw [overwrite, hset, hrest]
      simp

theorem pushWord_eq_append (b : Bytes) (w : UInt32) :
    b.pushWord w = b ++ #[wordByte w 0, wordByte w 1, wordByte w 2, wordByte w 3] := by
  apply Array.ext'
  simp [pushWord]

theorem word?_append_left {b : Bytes} {pos : Nat} (h : pos + 4 ≤ b.size) (c : Bytes) :
    word? (b ++ c) pos = b.word? pos := by
  simp only [word?_eq_bind]
  rw [Array.getElem?_append_left (by omega), Array.getElem?_append_left (by omega),
    Array.getElem?_append_left (by omega), Array.getElem?_append_left (by omega)]

theorem word?_append_right (b c : Bytes) (pos : Nat) : word? (b ++ c) (b.size + pos) = c.word? pos := by
  simp only [word?_eq_bind]
  rw [Array.getElem?_append_right (by omega), Array.getElem?_append_right (by omega),
    Array.getElem?_append_right (by omega), Array.getElem?_append_right (by omega)]
  simp only [Nat.add_sub_cancel_left, Nat.add_assoc]

theorem word?_pushWord (b : Bytes) (w : UInt32) : (b.pushWord w).word? b.size = some w := by
  have h := word?_append_right b #[wordByte w 0, wordByte w 1, wordByte w 2, wordByte w 3] 0
  rw [Nat.add_zero, ← pushWord_eq_append] at h
  rw [h]
  simp [word?, joinBytes_wordByte]

end Bytes

end Menagerie
