import Menagerie.Machine
import Menagerie.Proofs.Outcome

/-! # Checked addresses and the code that computes them

The compiler follows header words and references with checked steps, a program with loads and additions
that wrap around. Over any memory that 32-bit addresses can reach, the code gives the checked result
where there is one:

* `Bytes.fieldAddress?_eq_some_iff`, `Bytes.target?_eq_some_iff` -- when a checked step succeeds, said
  of the word it reads;
* `Expr.eval_load_of_word`, `Expr.eval_load_of_none`, `Expr.eval_field_of_word`,
  `Expr.eval_field_of_none` -- what the code does, by the same word;
* `Machine.address_code_agrees` -- **the code agrees with the checked step, and where there is no checked
  address it traps or wraps around**.
-/

namespace Menagerie

/-! ## 1. Checked steps -/

namespace Bytes

variable {mem : Bytes}

/-- **A field has an address exactly when its header word can be read and the sum does not wrap.** A
header word beyond the last address cannot be read from a memory of that size. -/
theorem fieldAddress?_eq_some_iff (hm : mem.size ≤ 2 ^ 32) {base a : Offset} {i : Nat} :
    mem.fieldAddress? base i = some a ↔
      ∃ r, mem.word? (base.toNat + 4 * i) = some r ∧ base.toNat + r.toNat = a.toNat := by
  simp only [fieldAddress?, Option.bind_eq_bind, Option.bind_eq_some_iff, Offset.add?_eq_some_iff,
    slotAt]
  refine ⟨fun h => ?_, fun h => ?_⟩
  · obtain ⟨header, hheader, r, hr, ha⟩ := h
    exact ⟨r, hheader ▸ hr, ha⟩
  · obtain ⟨r, hr, ha⟩ := h
    -- the word lies in memory, so that the checked sum for its address cannot fail
    have hle := isSome_word?.mp (Option.isSome_of_eq_some hr)
    have hheader : (Offset.ofNat (base.toNat + 4 * i)).toNat = base.toNat + 4 * i :=
      Offset.toNat_ofNat (by omega)
    exact ⟨_, hheader.symm, r, by rw [wordAt?, hheader, hr], ha⟩

theorem fieldAddress?_eq_none_iff (hm : mem.size ≤ 2 ^ 32) {base : Offset} {i : Nat} :
    mem.fieldAddress? base i = none ↔
      ∀ r, mem.word? (base.toNat + 4 * i) = some r → 2 ^ 32 ≤ base.toNat + r.toNat := by
  rw [Option.eq_none_iff_forall_ne_some]
  refine ⟨fun h r hr => ?_, fun h a ha => ?_⟩
  · by_contra hlt
    exact h (.ofNat (base.toNat + r.toNat)) ((fieldAddress?_eq_some_iff hm).mpr
      ⟨r, hr, (Offset.toNat_ofNat (by omega)).symm⟩)
  · obtain ⟨r, hr, hsum⟩ := (fieldAddress?_eq_some_iff hm).mp ha
    have hle := h r hr
    have hlt := a.toNat_lt
    omega

theorem target?_eq_some_iff {a o : Offset} :
    mem.target? a = some o ↔ mem.word? a.toNat = some o.word ∧ o ≠ .unset := by
  simp only [target?, Option.bind_eq_bind, Option.bind_eq_some_iff, wordAt?]
  refine ⟨fun h => ?_, fun h => ?_⟩
  · obtain ⟨w, hw, ho⟩ := h
    split at ho
    · cases ho
    · rename_i hset
      cases ho
      exact ⟨hw, fun hu => hset (beq_iff_eq.mpr hu)⟩
  · obtain ⟨hw, hset⟩ := h
    exact ⟨o.word, hw, if_neg fun hu => hset (beq_iff_eq.mp hu)⟩

end Bytes

/-! ## 2. Code -/

namespace Expr

variable {mem : Bytes} {e : Expr} {b k w : UInt32}

theorem eval_load_of_word (he : e.eval mem = .ok b) (hw : mem.word? (b.toNat + k.toNat) = some w) :
    (load k e).eval mem = .ok w := by
  rw [eval, he]
  dsimp only [bind, Except.bind]
  rw [hw]
  rfl

theorem eval_load_of_none (he : e.eval mem = .ok b) (hw : mem.word? (b.toNat + k.toNat) = none) :
    (load k e).eval mem = .error (.outOfBounds (b.toNat + k.toNat) mem.size) := by
  rw [eval, he]
  dsimp only [bind, Except.bind]
  rw [hw]

theorem eval_field_of_word (he : e.eval mem = .ok b) (hw : mem.word? (b.toNat + k.toNat) = some w) :
    (e.field k).eval mem = .ok (b + w) := by
  rw [field, eval, he, eval_load_of_word he hw]
  rfl

theorem eval_field_of_none (he : e.eval mem = .ok b) (hw : mem.word? (b.toNat + k.toNat) = none) :
    (e.field k).eval mem = .error (.outOfBounds (b.toNat + k.toNat) mem.size) := by
  rw [field, eval, he, eval_load_of_none he hw]
  rfl

theorem eval_load_eq_ok_iff (he : e.eval mem = .ok b) :
    (load k e).eval mem = .ok w ↔ mem.word? (b.toNat + k.toNat) = some w := by
  refine ⟨fun h => ?_, eval_load_of_word he⟩
  cases hw : mem.word? (b.toNat + k.toNat) with
  | none =>
    rw [eval_load_of_none he hw] at h
    cases h
  | some r =>
    rw [eval_load_of_word he hw] at h
    cases h
    rfl

/-- **The code for a field traps exactly when the header word does not fit in memory.** -/
theorem eval_field_traps_iff (he : e.eval mem = .ok b) :
    (e.field k).eval mem = .error (.outOfBounds (b.toNat + k.toNat) mem.size) ↔
      mem.size < b.toNat + k.toNat + 4 := by
  have hfits : (mem.word? (b.toNat + k.toNat)).isSome ↔ b.toNat + k.toNat + 4 ≤ mem.size :=
    Bytes.isSome_word?
  cases hw : mem.word? (b.toNat + k.toNat) with
  | none =>
    rw [hw] at hfits
    exact iff_of_true (eval_field_of_none he hw) (Nat.lt_of_not_le fun hle => nomatch hfits.mpr hle)
  | some r =>
    rw [hw] at hfits
    refine iff_of_false (fun h => ?_) (Nat.not_lt.mpr (hfits.mp rfl))
    rw [eval_field_of_word he hw] at h
    cases h

section Slot

variable {s : Nat} (hm : mem.size ≤ 2 ^ 32) (he : e.eval mem = .ok b) (hk : k.toNat = 4 * s)
include hm he hk

/-- **The code for a field computes its address, if it has one.** -/
theorem eval_field_of_address {a : Offset} (ha : mem.fieldAddress? ⟨b⟩ s = some a) :
    (e.field k).eval mem = .ok a.word := by
  obtain ⟨r, hr, hsum⟩ := (Bytes.fieldAddress?_eq_some_iff hm).mp ha
  have hsum : b.toNat + r.toNat = a.toNat := hsum
  have hlt := a.toNat_lt
  have hword : b + r = a.word := by
    apply UInt32.toNat_inj.mp
    rw [UInt32.toNat_add]
    show (b.toNat + r.toNat) % 2 ^ 32 = a.toNat
    omega
  rw [eval_field_of_word he (hk ▸ hr), hword]

/-- Without an address the code for a field traps or wraps around. -/
theorem eval_field_of_no_address (ha : mem.fieldAddress? ⟨b⟩ s = none) :
    (e.field k).eval mem = .error (.outOfBounds (b.toNat + k.toNat) mem.size) ∨
      ∃ r v, mem.word? (b.toNat + k.toNat) = some r ∧ 2 ^ 32 ≤ b.toNat + r.toNat ∧
        (e.field k).eval mem = .ok v ∧ v.toNat = (b.toNat + r.toNat) % 2 ^ 32 := by
  cases hw : mem.word? (b.toNat + k.toNat) with
  | none => exact .inl (eval_field_of_none he hw)
  | some r =>
    have hwraps := (Bytes.fieldAddress?_eq_none_iff hm).mp ha r (hk ▸ hw)
    exact .inr ⟨r, b + r, rfl, hwraps, eval_field_of_word he hw, UInt32.toNat_add b r⟩

end Slot

end Expr

/-! ## 3. Both agree -/

namespace Machine

/-- **The code for an address agrees with the checked step**, over every memory of at most `2 ^ 32`
bytes and for every expression that computes a base. If the field of a slot has an address, the code
computes it. If it has none, then the header word does not fit in memory and the code traps there, or
the sum leaves the address space and the code computes it modulo `2 ^ 32`; it traps in no other case. A
reference leads somewhere exactly when the load computes an offset that is not the mark `unset`. -/
theorem address_code_agrees {m : Machine} (hm : m.memory.size ≤ 2 ^ 32) {e : Expr} {b : UInt32}
    (he : m.eval e = .ok b) {s : Nat} (hs : s < 2 ^ 30) :
    (∀ a, m.memory.fieldAddress? ⟨b⟩ s = some a →
      m.eval (e.field (UInt32.ofNat (4 * s))) = .ok a.word) ∧
    (m.memory.fieldAddress? ⟨b⟩ s = none →
      m.eval (e.field (UInt32.ofNat (4 * s))) =
          .error (.outOfBounds (b.toNat + 4 * s) m.memory.size) ∨
        ∃ r v, m.memory.word? (b.toNat + 4 * s) = some r ∧ 2 ^ 32 ≤ b.toNat + r.toNat ∧
          m.eval (e.field (UInt32.ofNat (4 * s))) = .ok v ∧
          v.toNat = (b.toNat + r.toNat) % 2 ^ 32) ∧
    (m.eval (e.field (UInt32.ofNat (4 * s))) =
        .error (.outOfBounds (b.toNat + 4 * s) m.memory.size) ↔
      m.memory.size < b.toNat + 4 * s + 4) ∧
    ∀ o, m.memory.target? ⟨b⟩ = some o ↔ m.eval (.load 0 e) = .ok o.word ∧ o ≠ .unset := by
  have hslot : (UInt32.ofNat (4 * s)).toNat = 4 * s :=
    UInt32.toNat_ofNat_of_lt (show 4 * s < 2 ^ 32 by omega)
  refine ⟨fun a ha => Expr.eval_field_of_address hm he hslot ha, fun ha => ?_, ?_, fun o => ?_⟩
  · have hcode := Expr.eval_field_of_no_address hm he hslot ha
    rwa [hslot] at hcode
  · have htrap := Expr.eval_field_traps_iff (k := UInt32.ofNat (4 * s)) he
    rwa [hslot] at htrap
  · have hload : m.eval (.load 0 e) = .ok o.word ↔ m.memory.word? b.toNat = some o.word :=
      Expr.eval_load_eq_ok_iff (k := 0) he
    rw [Bytes.target?_eq_some_iff, hload]
    rfl

/-- The word at 0 leads to 4, where the header word of slot 0 is the largest word: there is no address,
and the code computes 3. The header word of slot 1 lies outside memory. -/
theorem largest_header_word_wraps : ∃ m : Machine, m.memory = #[4, 0, 0, 0, 255, 255, 255, 255] ∧
    m.memory.target? ⟨0⟩ = some ⟨4⟩ ∧ m.eval (.load 0 (.const 0)) = .ok 4 ∧
    m.memory.fieldAddress? ⟨4⟩ 0 = none ∧
    (∃ v, m.eval (Expr.field (.load 0 (.const 0)) 0) = .ok v ∧ v.toNat = 3) ∧
    m.eval (Expr.field (.load 0 (.const 0)) 4) = .error (.outOfBounds 8 8) := by
  obtain ⟨m, hm⟩ : ∃ m : Machine, m = ⟨#[4, 0, 0, 0, 255, 255, 255, 255], #[]⟩ := ⟨_, rfl⟩
  have hsize : m.memory.size ≤ 2 ^ 32 := by rw [hm]; decide
  have hstart : m.eval (.const 0) = .ok 0 := rfl
  have hbase : m.eval (.load 0 (.const 0)) = .ok 4 := by rw [hm]; decide
  have hword : m.memory.word? 4 = some 0xFFFFFFFF := by rw [hm]; decide
  have hnone : m.memory.fieldAddress? ⟨4⟩ 0 = none := by rw [hm]; decide
  obtain ⟨-, -, -, htarget⟩ := address_code_agrees hsize hstart (s := 0) (by decide)
  obtain ⟨-, hwraps, hfits, -⟩ := address_code_agrees hsize hbase (s := 0) (by decide)
  obtain ⟨-, -, htraps, -⟩ := address_code_agrees hsize hbase (s := 1) (by decide)
  refine ⟨m, by rw [hm], (htarget ⟨4⟩).mpr ⟨hbase, by decide⟩, hbase, hnone, ?_, ?_⟩
  · rcases hwraps hnone with htrap | ⟨r, v, hr, -, hv, hsum⟩
    · exact absurd (hfits.mp htrap) (by rw [hm]; decide)
    · cases hword.symm.trans hr
      exact ⟨v, hv, hsum⟩
  · rw [hm] at htraps ⊢
    exact htraps.mpr (by decide)

end Machine

end Menagerie
