import Menagerie.Random.Source

/-! # The ChaCha stream as a source

A stream of words: the ChaCha block function with eight rounds, applied to a key and a 64-bit
counter, sixteen words per block. The key is spread out from a 64-bit seed.

* `Stream.next` -- the next word;
* `Stream.below` -- a number below a bound, by multiplying a word with the bound and keeping the
  upper half; a second word decides whether the lower half would have carried (`below_lt`);
* `Stream.byte` -- the low byte of a word.
-/

namespace Menagerie.ChaCha

/-! ## 1. The block function -/

/-- A row of four words. -/
structure Row where
  x : UInt32
  y : UInt32
  z : UInt32
  t : UInt32
deriving DecidableEq, Repr, Inhabited

namespace Row

/-- Word-wise sum. -/
def add (a b : Row) : Row := ⟨a.x + b.x, a.y + b.y, a.z + b.z, a.t + b.t⟩

/-- A word turned left by fewer than 32 bits. -/
def turn (n : UInt32) (w : UInt32) : UInt32 := (w <<< n) ||| (w >>> (32 - n))

/-- Word-wise exclusive or, each word then turned left. -/
def mix (n : UInt32) (a b : Row) : Row :=
  ⟨turn n (a.x ^^^ b.x), turn n (a.y ^^^ b.y), turn n (a.z ^^^ b.z), turn n (a.t ^^^ b.t)⟩

/-- The row moved one place to the left. -/
def shift (a : Row) : Row := ⟨a.y, a.z, a.t, a.x⟩

/-- The words in order. -/
def toList (a : Row) : List UInt32 := [a.x, a.y, a.z, a.t]

end Row

/-- Four rows of four words. -/
structure Block where
  a : Row
  b : Row
  c : Row
  d : Row
deriving DecidableEq, Repr, Inhabited

namespace Block

/-- Word-wise sum. -/
def add (p q : Block) : Block := ⟨p.a.add q.a, p.b.add q.b, p.c.add q.c, p.d.add q.d⟩

/-- The quarter round on all four columns at once. -/
def columns (s : Block) : Block :=
  let a := s.a.add s.b
  let d := s.d.mix 16 a
  let c := s.c.add d
  let b := s.b.mix 12 c
  let a := a.add b
  let d := d.mix 8 a
  let c := c.add d
  let b := b.mix 7 c
  ⟨a, b, c, d⟩

/-- Turns diagonals into columns. -/
def skew (s : Block) : Block := ⟨s.a, s.b.shift, s.c.shift.shift, s.d.shift.shift.shift⟩

/-- Turns columns back into diagonals. -/
def unskew (s : Block) : Block := ⟨s.a, s.b.shift.shift.shift, s.c.shift.shift, s.d.shift⟩

/-- Two rounds: the columns, then the diagonals. -/
def doubleRound (s : Block) : Block := s.columns.skew.columns.unskew

/-- The block function with eight rounds. -/
def scramble (s : Block) : Block :=
  s.doubleRound.doubleRound.doubleRound.doubleRound.add s

/-- The words after the first, in order. -/
def tail (s : Block) : List UInt32 :=
  [s.a.y, s.a.z, s.a.t] ++ s.b.toList ++ s.c.toList ++ s.d.toList

end Block

/-! ## 2. The stream -/

/-- A stream of words: the two rows of the key, the number of the next block, and what is left of
the current one. -/
structure Stream where
  key : Row × Row
  counter : UInt64
  pending : List UInt32
deriving DecidableEq, Repr, Inhabited

namespace Stream

/-- One step of the generator that spreads a seed: the new state and the word it gives. -/
def spread (s : UInt64) : UInt32 × UInt64 :=
  let s := s * 6364136223846793005 + 11634580027462260723
  let x := (((s >>> 18) ^^^ s) >>> 27).toUInt32
  let n := (s >>> 59).toUInt32
  ((x >>> n) ||| (x <<< ((32 - n) % 32)), s)

/-- A row of four words spread from a seed. -/
def spreadRow (s : UInt64) : Row × UInt64 :=
  let (x, s) := spread s
  let (y, s) := spread s
  let (z, s) := spread s
  let (t, s) := spread s
  (⟨x, y, z, t⟩, s)

/-- The stream of a seed. -/
def ofSeed (seed : UInt64) : Stream :=
  let (low, s) := spreadRow seed
  let (high, _) := spreadRow s
  { key := (low, high), counter := 0, pending := [] }

/-- The block of a number: the constants, the key, and the number in the last row. -/
def block (key : Row × Row) (counter : UInt64) : Block :=
  Block.scramble
    { a := ⟨0x61707865, 0x3320646e, 0x79622d32, 0x6b206574⟩
      b := key.1
      c := key.2
      d := ⟨counter.toUInt32, (counter >>> 32).toUInt32, 0, 0⟩ }

/-- The next word. -/
def next : StateM Stream UInt32 := fun s =>
  match s.pending with
  | w :: ws => (w, { s with pending := ws })
  | [] =>
    let b := block s.key s.counter
    (b.a.x, { s with counter := s.counter + 1, pending := b.tail })

/-- A number below `n`, for `n` up to `2 ^ 32`. -/
def below (n : Nat) : StateM Stream Nat := fun s =>
  let (w, s) := next s
  let high := w.toNat * n / 0x100000000
  let low := w.toNat * n % 0x100000000
  if 0x100000000 - n < low then
    let (w', s) := next s
    (if 0x100000000 ≤ low + w'.toNat * n / 0x100000000 then high + 1 else high, s)
  else (high, s)

/-- The low byte of the next word. -/
def byte : StateM Stream UInt8 := do
  let w ← next
  pure w.toUInt8

end Stream

/-! ## 3. The range of a draw -/

/-- The upper half of a product with a word stays below the other factor. -/
theorem high_lt {n : Nat} (w : UInt32) (hn : 0 < n) : w.toNat * n / 0x100000000 < n := by
  rw [Nat.div_lt_iff_lt_mul (by decide), Nat.mul_comm n]
  exact Nat.mul_lt_mul_of_pos_right w.toNat_lt hn

/-- A product whose lower half can carry has room left in its upper half. -/
theorem high_succ_lt {n : Nat} (w : UInt32) (h : 0x100000000 - n < w.toNat * n % 0x100000000) :
    w.toNat * n / 0x100000000 + 1 < n := by
  have hw : w.toNat + 1 ≤ 0x100000000 := w.toNat_lt
  have hm : (w.toNat + 1) * n ≤ 0x100000000 * n := Nat.mul_le_mul_right n hw
  rw [Nat.add_mul, Nat.one_mul] at hm
  omega

/-- **A draw stays below its bound.** -/
theorem below_lt {n : Nat} (hn : 0 < n) (s : Stream) : (Stream.below n s).1 < n := by
  simp only [Stream.below]
  rcases Stream.next s with ⟨w, s₁⟩
  by_cases h : 0x100000000 - n < w.toNat * n % 0x100000000
  · simp only [h, if_true]
    rcases Stream.next s₁ with ⟨w', s₂⟩
    dsimp only
    split
    · exact high_succ_lt w h
    · exact high_lt w hn
  · simp only [h, if_false]
    exact high_lt w hn

/-- The stream as a source. -/
def source : Source Stream := ⟨Stream.below, Stream.byte⟩

theorem source_inRange : source.InRange := fun _ s hn _ => below_lt hn s

end Menagerie.ChaCha
