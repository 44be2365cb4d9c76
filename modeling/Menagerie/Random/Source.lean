/-! # Sources of random draws

A `Source σ` draws from a state of type `σ`. What is built from draws is written for any source, so
that facts about it rest only on the range of a draw (`Source.InRange`).
-/

namespace Menagerie

/-- Two ways to draw from a state. -/
structure Source (σ : Type) where
  /-- A number below a bound. -/
  below : Nat → StateM σ Nat
  /-- Any byte. -/
  byte : StateM σ UInt8

/-- **A draw below `n` stays below `n`**, for every positive bound that a word can reach. -/
def Source.InRange {σ : Type} (src : Source σ) : Prop :=
  ∀ n s, 0 < n → n ≤ 0x100000000 → (src.below n s).1 < n

end Menagerie
