import Menagerie.View

/-! # Finding a record by address

The spans of a view are searched by halving. On spans in increasing order of offset the search
answers what looking at every span would answer:

* `spanAt?_eq_some_iff` -- **the span found is the one that starts at the address**, for spans in
  strictly increasing order (`Increasing`);
* `spanContaining?_eq_some_iff` -- **the span found is the one around the address**, for spans that do
  not overlap;
* `spanEndingAt?_eq_some_iff` -- **the span found is the one that ends at the address**, for spans that
  are not empty either (`Apart`). Gaps between the spans are allowed.
-/

namespace Menagerie

/-! ## 1. Order -/

/-- The offsets increase from span to span. -/
def Increasing (spans : Array Span) : Prop :=
  spans.toList.Pairwise fun s t => s.offset.toNat < t.offset.toNat

/-- No span is empty, and each ends before the later ones start. -/
structure Apart (spans : Array Span) : Prop where
  nonempty : ∀ s ∈ spans, 0 < s.len.toNat
  disjoint : spans.toList.Pairwise fun s t => s.stop ≤ t.offset.toNat

theorem Apart.increasing {spans : Array Span} (h : Apart spans) : Increasing spans := by
  refine h.disjoint.imp_of_mem fun {s t} hs _ hst => ?_
  have := h.nonempty s (Array.mem_toList_iff.mp hs)
  unfold Span.stop at hst
  omega

theorem pairwise_getElem {R : Span → Span → Prop} {spans : Array Span} (h : spans.toList.Pairwise R)
    {i j : Nat} (hij : i < j) (hj : j < spans.size) : R spans[i] spans[j] := by
  have := List.pairwise_iff_getElem.mp h i j (by simp; omega) (by simpa using hj) hij
  simpa using this

/-- A test that later spans pass only if the earlier ones do splits the spans in two. -/
theorem parted_of_pairwise {p : Span → Bool} {spans : Array Span}
    (h : spans.toList.Pairwise fun s t => p t = true → p s = true) : Parted p spans := by
  intro i j hj hij hp
  rcases Nat.lt_or_eq_of_le hij with hlt | rfl
  · exact pairwise_getElem h hlt hj hp
  · exact hp

theorem Increasing.parted_lt {spans : Array Span} (h : Increasing spans) (a : Nat) :
    Parted (fun s => s.offset.toNat < a) spans := by
  refine parted_of_pairwise (h.imp fun {s t} hst => ?_)
  simp only [decide_eq_true_eq]
  omega

theorem parted_le_of_disjoint {spans : Array Span}
    (h : spans.toList.Pairwise fun s t => s.stop ≤ t.offset.toNat) (a : Nat) :
    Parted (fun s => s.offset.toNat ≤ a) spans := by
  refine parted_of_pairwise (h.imp fun {s t} hst => ?_)
  unfold Span.stop at hst
  simp only [decide_eq_true_eq]
  omega

/-! ## 2. The span that starts at an address -/

namespace View

variable {v : View} {a : Offset} {s : Span}

theorem spanAt?_eq_some_iff (h : Increasing v.spans) :
    v.spanAt? a = some s ↔ s ∈ v.spans ∧ s.offset = a := by
  have hk := (partitionPoint_spec (h.parted_lt a.toNat)).2
  rw [spanAt?, Option.filter_eq_some_iff]
  generalize partitionPoint (fun s : Span => decide (s.offset.toNat < a.toNat)) v.spans = k at hk
  constructor
  · rintro ⟨hs, ha⟩
    exact ⟨Array.mem_of_getElem? hs, beq_iff_eq.mp ha⟩
  · rintro ⟨hs, rfl⟩
    obtain ⟨i, hi, rfl⟩ := Array.mem_iff_getElem.mp hs
    have hik : k ≤ i := by simpa using hk i hi
    -- a span at the boundary starts no earlier than the one looked for, so it is that one
    have : k = i := by
      rcases Nat.lt_or_eq_of_le hik with hlt | rfl
      · have hlt' := pairwise_getElem h hlt hi
        have : v.spans[i].offset.toNat ≤ v.spans[k].offset.toNat := by simpa using hk k (by omega)
        omega
      · rfl
    subst this
    exact ⟨Array.getElem?_eq_getElem hi, beq_self_eq_true _⟩

/-! ## 3. The last span that passes a test -/

/-- The last of the spans that pass a test. -/
theorem lastSpan?_eq_some {p : Span → Bool} (hp : Parted p v.spans) {i : Nat} (hi : i < v.spans.size)
    (hpi : p v.spans[i] = true) (hlast : ∀ j (hj : j < v.spans.size), i < j → p v.spans[j] = false) :
    v.lastSpan? p = some v.spans[i] := by
  obtain ⟨hle, hk⟩ := partitionPoint_spec hp
  rw [lastSpan?]
  have hik := hk i hi
  rw [hpi] at hik
  have hik := of_decide_eq_true hik.symm
  have hnext : partitionPoint p v.spans = i + 1 := by
    rcases Nat.lt_or_eq_of_le hik with hlt | heq
    · have hj := hk (i + 1) (by omega)
      rw [hlast (i + 1) (by omega) (by omega)] at hj
      exact absurd hlt (of_decide_eq_false hj.symm)
    · exact heq.symm
  rw [hnext]
  exact Array.getElem?_eq_getElem hi

theorem mem_of_lastSpan? {p : Span → Bool} (h : v.lastSpan? p = some s) : s ∈ v.spans := by
  unfold lastSpan? at h
  split at h
  · cases h
  · exact Array.mem_of_getElem? h

theorem spanContaining?_eq_some_iff
    (h : v.spans.toList.Pairwise fun s t => s.stop ≤ t.offset.toNat) :
    v.spanContaining? a = some s ↔ s ∈ v.spans ∧ s.offset.toNat ≤ a.toNat ∧ a.toNat < s.stop := by
  rw [spanContaining?, Option.filter_eq_some_iff]
  have hc : s.contains a.toNat = true ↔ s.offset.toNat ≤ a.toNat ∧ a.toNat < s.stop := by
    simp [Span.contains]
  rw [hc]
  constructor
  · rintro ⟨hs, hb⟩
    exact ⟨mem_of_lastSpan? hs, hb⟩
  · rintro ⟨hs, hlo, hhi⟩
    refine ⟨?_, hlo, hhi⟩
    obtain ⟨i, hi, rfl⟩ := Array.mem_iff_getElem.mp hs
    refine lastSpan?_eq_some (parted_le_of_disjoint h a.toNat) hi (by simpa using hlo)
      fun j hj hij => ?_
    have := pairwise_getElem h hij hj
    simp only [decide_eq_false_iff_not]
    omega

theorem spanEndingAt?_eq_some_iff (h : Apart v.spans) :
    v.spanEndingAt? a = some s ↔ s ∈ v.spans ∧ s.stop = a.toNat := by
  rw [spanEndingAt?, Option.filter_eq_some_iff, beq_iff_eq]
  constructor
  · rintro ⟨hs, hb⟩
    exact ⟨mem_of_lastSpan? hs, hb⟩
  · rintro ⟨hs, ha⟩
    refine ⟨?_, ha⟩
    have hpos := h.nonempty s hs
    obtain ⟨i, hi, rfl⟩ := Array.mem_iff_getElem.mp hs
    have hlt : v.spans[i].offset.toNat < a.toNat := by
      rw [← ha, Span.stop]
      omega
    refine lastSpan?_eq_some (h.increasing.parted_lt a.toNat) hi (by simpa using hlt)
      fun j hj hij => ?_
    have := pairwise_getElem h.disjoint hij hj
    simp only [decide_eq_false_iff_not]
    omega

end View

end Menagerie
