import Menagerie.Bytes

/-! # Parts of a buffer and words written into it

* `getElem?_of_word?` -- the bytes of a word stand in a buffer, least significant first;
* `Holds mem part pos` -- the buffer `mem` has the bytes of `part` from position `pos` on. **What is
  read inside the part is read off the part** (`Holds.word?`, `Holds.extract_eq`).
* `writes b ws` -- the words `ws` written into `b` one after another. Bytes outside all the words
  stay (`getElem?_writes_of_outside`); **where the words written do not overlap, the last one
  written at a position is read there** (`word?_writes`).
-/

namespace Menagerie.Bytes

/-! ## 1. Words as bytes -/

theorem wordByte_joinBytes (x y z t : UInt8) {k : Nat} (hk : k < 4) :
    [x, y, z, t][k]? = some (wordByte (joinBytes x y z t) k) := by
  have hx := x.toNat_lt
  have hy := y.toNat_lt
  have hz := z.toNat_lt
  have ht := t.toNat_lt
  have hbyte : ∀ (b : UInt8) (k : Nat), b.toNat = ((joinBytes x y z t).toNat >>> (8 * k)) % 256 →
      b = wordByte (joinBytes x y z t) k := by
    intro b k hb
    apply UInt8.toNat_inj.mp
    rw [toNat_wordByte, hb]
  have hword : (joinBytes x y z t).toNat =
      x.toNat + 256 * (y.toNat + 256 * (z.toNat + 256 * t.toNat)) := by
    rw [joinBytes, UInt32.toNat_ofNat']
    omega
  have hcases : k = 0 ∨ k = 1 ∨ k = 2 ∨ k = 3 := by omega
  rcases hcases with rfl | rfl | rfl | rfl
  · exact congrArg some (hbyte x 0 (by omega))
  · exact congrArg some (hbyte y 1 (by omega))
  · exact congrArg some (hbyte z 2 (by omega))
  · exact congrArg some (hbyte t 3 (by omega))

/-- **The four bytes of a word that is read stand there, least significant first.** -/
theorem getElem?_of_word? {b : Bytes} {pos : Nat} {w : UInt32} (h : b.word? pos = some w) {k : Nat}
    (hk : k < 4) : b[pos + k]? = some (wordByte w k) := by
  unfold word? at h
  split at h
  · rename_i hle
    rw [← Option.some.inj h, ← wordByte_joinBytes _ _ _ _ hk]
    have hcases : k = 0 ∨ k = 1 ∨ k = 2 ∨ k = 3 := by omega
    rcases hcases with rfl | rfl | rfl | rfl
    · exact Array.getElem?_eq_getElem (by omega)
    · exact Array.getElem?_eq_getElem (by omega)
    · exact Array.getElem?_eq_getElem (by omega)
    · exact Array.getElem?_eq_getElem (by omega)
  · cases h

/-! ## 2. Parts -/

/-- The bytes of `part` stand in `mem` from position `pos` on. -/
def Holds (mem part : Bytes) (pos : Nat) : Prop :=
  ∀ j, j < part.size → mem[pos + j]? = part[j]?

/-- Two words with the same four bytes are the same. -/
theorem word?_congr {b b' : Bytes} {p q : Nat} (h : ∀ j, j < 4 → b[p + j]? = b'[q + j]?) :
    b.word? p = b'.word? q := by
  have h0 : b[p]? = b'[q]? := h 0 (by decide)
  rw [word?_eq_bind, word?_eq_bind, h0, h 1 (by decide), h 2 (by decide), h 3 (by decide)]

theorem holds_append (a b c : Bytes) : Holds (a ++ b ++ c) b a.size := by
  intro j hj
  rw [Array.getElem?_append_left (by rw [Array.size_append]; omega),
    Array.getElem?_append_right (by omega), Nat.add_sub_cancel_left]

theorem Holds.word? {mem part : Bytes} {pos q : Nat} (h : Holds mem part pos)
    (hq : q + 4 ≤ part.size) : mem.word? (pos + q) = part.word? q :=
  word?_congr fun j hj => by rw [Nat.add_assoc, h (q + j) (by omega)]

/-- A part is what stands between its two ends. -/
theorem Holds.extract_eq {mem part : Bytes} {pos : Nat} (h : Holds mem part pos) :
    mem.extract pos (pos + part.size) = part := by
  apply Array.ext_getElem?
  intro j
  rw [Array.getElem?_extract]
  by_cases hj : j < part.size
  · have hm : pos + j < mem.size := by
      have := h j hj
      rw [Array.getElem?_eq_getElem hj] at this
      exact (Array.getElem?_eq_some_iff.mp this).1
    rw [if_pos (by omega), h j hj]
  · rw [if_neg (by omega), Array.getElem?_eq_none (by omega)]

/-! ## 3. Words written one after another -/

/-- A word and the position it is written at. -/
structure Write where
  pos : Nat
  word : UInt32
deriving DecidableEq, Repr, Inhabited

/-- Whether a write leaves the word at a position alone, or hits it exactly. -/
def Write.Clean (w : Write) (q : Nat) : Prop := w.pos = q ∨ w.pos + 4 ≤ q ∨ q + 4 ≤ w.pos

/-- The buffer after all writes, in order. -/
def writes (b : Bytes) (ws : List Write) : Bytes :=
  ws.foldl (fun b w => b.setWord w.pos w.word) b

/-- The word that the last write at a position wrote. -/
def lastWrite? (ws : List Write) (q : Nat) : Option UInt32 :=
  (ws.reverse.find? (·.pos == q)).map (·.word)

@[simp] theorem writes_nil (b : Bytes) : b.writes [] = b := rfl

@[simp] theorem writes_cons (b : Bytes) (w : Write) (ws : List Write) :
    b.writes (w :: ws) = (b.setWord w.pos w.word).writes ws := rfl

@[simp] theorem size_writes (b : Bytes) (ws : List Write) : (b.writes ws).size = b.size := by
  induction ws generalizing b with
  | nil => rfl
  | cons w ws ih => rw [writes_cons, ih, size_setWord]

/-- **A byte outside all the words written stays.** -/
theorem getElem?_writes_of_outside {b : Bytes} {ws : List Write} {i : Nat}
    (hb : ∀ w ∈ ws, w.pos + 4 ≤ b.size) (hi : ∀ w ∈ ws, ¬ (w.pos ≤ i ∧ i < w.pos + 4)) :
    (b.writes ws)[i]? = b[i]? := by
  induction ws generalizing b with
  | nil => rfl
  | cons w ws ih =>
    obtain ⟨hw, hws⟩ := List.forall_mem_cons.mp hb
    obtain ⟨hiw, hiws⟩ := List.forall_mem_cons.mp hi
    rw [writes_cons, ih (by simpa using hws) hiws, getElem?_setWord w.word hw, if_neg hiw]

theorem lastWrite?_cons (w : Write) (ws : List Write) (q : Nat) :
    lastWrite? (w :: ws) q = (lastWrite? ws q).or (if w.pos = q then some w.word else none) := by
  simp only [lastWrite?, List.reverse_cons, List.find?_append]
  cases ws.reverse.find? (·.pos == q) with
  | some v => rfl
  | none => by_cases h : w.pos = q <;> simp [h]

/-- **The last word written at a position is read there**, the word before all writes if there was
none. -/
theorem word?_writes {b : Bytes} {ws : List Write} {q : Nat} (hb : ∀ w ∈ ws, w.pos + 4 ≤ b.size)
    (hq : ∀ w ∈ ws, w.Clean q) : (b.writes ws).word? q = (lastWrite? ws q).or (b.word? q) := by
  induction ws generalizing b with
  | nil => rfl
  | cons w ws ih =>
    obtain ⟨hw, hws⟩ := List.forall_mem_cons.mp hb
    obtain ⟨hqw, hqws⟩ := List.forall_mem_cons.mp hq
    have step : (b.setWord w.pos w.word).word? q =
        (if w.pos = q then some w.word else none).or (b.word? q) := by
      rcases hqw with rfl | hd
      · rw [word?_setWord_self w.word hw, if_pos rfl, Option.some_or]
      · rw [word?_setWord_of_disjoint w.word hw hd, if_neg (by omega), Option.none_or]
    rw [writes_cons, ih (by simpa using hws) hqws, lastWrite?_cons, Option.or_assoc, step]

end Menagerie.Bytes
