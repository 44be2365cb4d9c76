/-! # Partition points

Where an array splits into elements that satisfy a predicate and elements after them that do not,
`partitionPoint` finds the boundary by halving. **Exactly the elements before the boundary satisfy
the predicate** (`partitionPoint_spec`).
-/

namespace Menagerie

/-- The number of leading elements that satisfy `p`, found by halving the range from `lo` to `hi`
that is still open. -/
def partitionPointFrom {α : Type} (p : α → Bool) (xs : Array α) (lo hi : Nat) (h : hi ≤ xs.size) : Nat :=
  if lt : lo < hi then
    let mid := (lo + hi) / 2
    if p xs[mid] then partitionPointFrom p xs (mid + 1) hi h
    else partitionPointFrom p xs lo mid (by omega)
  else lo
termination_by hi - lo

/-- The number of leading elements that satisfy `p`. -/
def partitionPoint {α : Type} (p : α → Bool) (xs : Array α) : Nat :=
  partitionPointFrom p xs 0 xs.size (Nat.le_refl _)

/-- An array in which no element that satisfies `p` follows one that does not. -/
def Parted {α : Type} (p : α → Bool) (xs : Array α) : Prop :=
  ∀ i j (hj : j < xs.size) (hij : i ≤ j), p (xs[j]) = true → p (xs[i]) = true

/-- The halving keeps the first element that fails `p` between its two ends. -/
theorem partitionPointFrom_spec {α : Type} {p : α → Bool} {xs : Array α} (hp : Parted p xs)
    (lo hi : Nat) (h : hi ≤ xs.size) (hlh : lo ≤ hi)
    (hlo : ∀ i (hi' : i < xs.size), i < lo → p xs[i] = true)
    (hhi : ∀ i (hi' : i < xs.size), hi ≤ i → p xs[i] = false) :
    partitionPointFrom p xs lo hi h ≤ xs.size ∧
      ∀ i (hi' : i < xs.size), p xs[i] = decide (i < partitionPointFrom p xs lo hi h) := by
  fun_induction partitionPointFrom p xs lo hi h with
  | case1 lo hi h lt mid hmid ih =>
    refine ih (by omega) (fun i hi' hlt => ?_) hhi
    exact hp i mid (by omega) (by omega) hmid
  | case2 lo hi h lt mid hmid ih =>
    refine ih (by omega) hlo (fun i hi' hle => ?_)
    cases e : p xs[i] with
    | false => rfl
    | true => exact absurd (hp mid i hi' hle e) hmid
  | case3 lo hi h lt =>
    refine ⟨by omega, fun i hi' => ?_⟩
    by_cases hlt : i < lo
    · rw [hlo i hi' hlt, decide_eq_true hlt]
    · rw [hhi i hi' (by omega), decide_eq_false hlt]

/-- **The partition point splits the array**: exactly the elements before it satisfy `p`. -/
theorem partitionPoint_spec {α : Type} {p : α → Bool} {xs : Array α} (hp : Parted p xs) :
    partitionPoint p xs ≤ xs.size ∧
      ∀ i (hi : i < xs.size), p xs[i] = decide (i < partitionPoint p xs) :=
  partitionPointFrom_spec hp 0 xs.size (Nat.le_refl _) (Nat.zero_le _)
    (fun _ _ h => absurd h (Nat.not_lt_zero _)) (fun _ hi h => absurd hi (Nat.not_lt.mpr h))

end Menagerie
