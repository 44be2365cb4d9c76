import Menagerie.Graph.Sample
import Menagerie.Proofs.Patching

/-! # Halving finds what a look at every span finds

The three searches of a view are compared with the plain one, which keeps every span that passes a
test: where at most one span can pass, both give the same.

* `filter_eq_toList` -- the plain search over a list in which no two elements pass;
* `filter_spanAt?`, `filter_spanContaining?`, `filter_spanEndingAt?` -- **halving loses no span and finds
  none that does not fit**, in gaps and beyond both ends too;
* `Span.Tiles.exists_around_iff` -- **the addresses inside spans that lie end to end** are those of the
  stretch they fill;
* `View.halving_agrees_with_scan` -- all three searches, and **an address lies in a record of an image
  exactly when it lies in the image**.
-/

namespace Menagerie

/-! ## 1. One search after the other -/

/-- Where no two elements of a list pass a test, those that pass are the one that is known to. -/
theorem filter_eq_toList {α : Type} {xs : List α} {p : α → Bool} {o : Option α}
    (hone : xs.Pairwise fun x y => p x = true → p y = false)
    (ho : ∀ x, o = some x ↔ x ∈ xs ∧ p x = true) : xs.filter p = o.toList := by
  cases hf : xs.filter p with
  | nil =>
    cases o with
    | none => rfl
    | some x =>
      have hx := List.mem_filter.mpr ((ho x).mp rfl)
      rw [hf] at hx
      exact absurd hx List.not_mem_nil
  | cons x rest =>
    have hpass : ∀ y ∈ x :: rest, y ∈ xs ∧ p y = true := fun y hy => List.mem_filter.mp (hf ▸ hy)
    have hpair := hone.filter p
    rw [hf, List.pairwise_cons] at hpair
    have hrest : rest = [] := by
      refine List.eq_nil_iff_forall_not_mem.mpr fun y hy => ?_
      have hy' := (hpass y (List.mem_cons_of_mem x hy)).2
      rw [hpair.1 y hy (hpass x List.mem_cons_self).2] at hy'
      cases hy'
    rw [(ho x).mpr (hpass x List.mem_cons_self), hrest, Option.toList_some]

namespace View

variable {v : View}

theorem filter_spanAt? (h : Increasing v.spans) (a : Offset) :
    v.spans.toList.filter (fun s => s.offset = a) = (v.spanAt? a).toList := by
  refine filter_eq_toList (h.imp fun {s t} hst => ?_) fun s => ?_
  · simp only [decide_eq_true_eq, decide_eq_false_iff_not]
    rintro rfl hta
    rw [hta] at hst
    exact Nat.lt_irrefl _ hst
  · rw [spanAt?_eq_some_iff h, decide_eq_true_eq, Array.mem_toList_iff]

theorem filter_spanContaining? (h : v.spans.toList.Pairwise fun s t => s.stop ≤ t.offset.toNat)
    (a : Offset) :
    v.spans.toList.filter (fun s => s.offset.toNat ≤ a.toNat ∧ a.toNat < s.stop) =
      (v.spanContaining? a).toList := by
  refine filter_eq_toList (h.imp fun {s t} hst => ?_) fun s => ?_
  · simp only [decide_eq_true_eq, decide_eq_false_iff_not]
    omega
  · rw [spanContaining?_eq_some_iff h, decide_eq_true_eq, Array.mem_toList_iff]

theorem filter_spanEndingAt? (h : Apart v.spans) (a : Offset) :
    v.spans.toList.filter (fun s => s.stop = a.toNat) = (v.spanEndingAt? a).toList := by
  refine filter_eq_toList (h.disjoint.imp_of_mem fun {s t} _ ht hst => ?_) fun s => ?_
  · -- the later span is not empty, so it ends behind its start and thus behind the earlier one
    have hpos := h.nonempty t (Array.mem_toList_iff.mp ht)
    have hlt : t.offset.toNat < t.stop := Nat.lt_add_of_pos_right hpos
    simp only [decide_eq_true_eq, decide_eq_false_iff_not]
    omega
  · rw [spanEndingAt?_eq_some_iff h, decide_eq_true_eq, Array.mem_toList_iff]

end View

/-- Spans of which each ends before the next one starts end before all later ones start. -/
theorem pairwise_of_consecutive {spans : List Span}
    (h : spans.IsChain fun s t => s.stop ≤ t.offset.toNat) :
    spans.Pairwise fun s t => s.stop ≤ t.offset.toNat := by
  have htrans : ∀ s t u : Span, s.stop ≤ t.offset.toNat → t.stop ≤ u.offset.toNat →
      s.stop ≤ u.offset.toNat := by
    intro s t u hst htu
    unfold Span.stop at htu
    omega
  have : IsTrans Span fun s t => s.stop ≤ t.offset.toNat := ⟨htrans⟩
  exact List.isChain_iff_pairwise.mp h

/-! ## 2. Spans end to end -/

namespace Span.Tiles

variable {a b : Nat} {ss : List Span}

theorem le (h : Tiles a ss b) : a ≤ b := by
  induction ss generalizing a with
  | nil => exact Nat.le_of_eq h
  | cons s ss ih =>
    have hle := ih h.2
    have hoff := h.1
    unfold stop at hle
    omega

theorem disjoint (h : Tiles a ss b) : ss.Pairwise fun s t => s.stop ≤ t.offset.toNat := by
  refine pairwise_of_consecutive ?_
  induction ss generalizing a with
  | nil => exact .nil
  | cons s ss ih =>
    cases ss with
    | nil => exact .singleton s
    | cons t ss => exact .cons_cons (Nat.le_of_eq h.2.1.symm) (ih h.2)

/-- **The addresses inside spans that tile a stretch are those of the stretch.** -/
theorem exists_around_iff (h : Tiles a ss b) {x : Nat} :
    (∃ s ∈ ss, s.offset.toNat ≤ x ∧ x < s.stop) ↔ a ≤ x ∧ x < b := by
  induction ss generalizing a with
  | nil =>
    cases h
    refine ⟨fun hex => ?_, fun hx => absurd hx.2 (Nat.not_lt.mpr hx.1)⟩
    obtain ⟨s, hs, -⟩ := hex
    exact absurd hs List.not_mem_nil
  | cons s ss ih =>
    have hoff := h.1
    have hstop : s.offset.toNat ≤ s.stop := Nat.le_add_right _ _
    have hend : s.stop ≤ b := h.2.le
    rw [List.exists_mem_cons_iff, ih h.2]
    omega

end Span.Tiles

/-! ## 3. Images -/

namespace Image

variable {c : ImageConfig} {g : Graph} {img : Image}

/-- An image has as many bytes as its layout counted. -/
theorem size_of_ofLayout {strict : Bool} {l : Layout} (h : (ofLayout strict g l).result = .ok img) :
    img.size = l.total := by
  obtain ⟨_, -, hbytes⟩ := ofLayout_writes h
  rw [size, hbytes, Bytes.size_writes, Layout.size_bytes]

/-- **An address lies in a record of an image exactly when it lies in the image.** -/
theorem isSome_spanContaining?_iff (h : (ofGraph c g).result = .ok img) (a : Offset) :
    (img.view.spanContaining? a).isSome ↔ a.toNat < img.size := by
  obtain ⟨l, hl, himg⟩ := Traced.result_bind_eq_ok_iff.mp h
  obtain ⟨⟨as, is, ws, hrows⟩, -⟩ := Layout.ofGraph_rows hl
  have hlt := Layout.total_lt_of_ofGraph hl
  have hspans : img.view.spans.toList = l.records.toList.map Placed.span := by
    obtain ⟨_, -, rfl⟩ := ofLayout_eq_ok_iff.mp himg
    exact Array.toList_map
  have htiles := hrows.tiles_spans hlt
  rw [← hspans] at htiles
  rw [Option.isSome_iff_exists, size_of_ofLayout himg]
  simp only [View.spanContaining?_eq_some_iff htiles.disjoint, ← Array.mem_toList_iff]
  rw [htiles.exists_around_iff]
  exact and_iff_right (Nat.zero_le _)

theorem size_lt_of_ofGraph (h : (ofGraph c g).result = .ok img) : img.size < 2 ^ 32 := by
  obtain ⟨l, hl, himg⟩ := Traced.result_bind_eq_ok_iff.mp h
  rw [size_of_ofLayout himg]
  exact Layout.total_lt_of_ofGraph hl

end Image

namespace View

/-- **The three searches find what a look at every span finds.** Over spans in increasing order of
offset, the spans that start at an address are the one found there, or none. If no span is empty and
each ends before the next one starts, the same holds of the spans around an address and of those that
end there, wherever the address lies. Over an image, an address lies in some record exactly when it is
below the size of the image, which is less than `2 ^ 32`. -/
theorem halving_agrees_with_scan :
    (∀ (v : View) (a : Offset), Increasing v.spans →
      v.spans.toList.filter (fun s => s.offset = a) = (v.spanAt? a).toList ∧
      ((∀ s ∈ v.spans, 0 < s.len.toNat) →
        (v.spans.toList.IsChain fun s t => s.stop ≤ t.offset.toNat) →
        v.spans.toList.filter (fun s => s.offset.toNat ≤ a.toNat ∧ a.toNat < s.stop) =
            (v.spanContaining? a).toList ∧
          v.spans.toList.filter (fun s => s.stop = a.toNat) = (v.spanEndingAt? a).toList)) ∧
    ∀ (c : ImageConfig) (g : Graph) (img : Image), (Image.ofGraph c g).result = .ok img →
      (∀ a, (img.view.spanContaining? a).isSome ↔ a.toNat < img.size) ∧ img.size < 2 ^ 32 := by
  refine ⟨fun v a hsorted => ⟨filter_spanAt? hsorted a, fun hnonempty hchain => ?_⟩,
    fun c g img himg => ⟨Image.isSome_spanContaining?_iff himg, Image.size_lt_of_ofGraph himg⟩⟩
  have hdisjoint := pairwise_of_consecutive hchain
  exact ⟨filter_spanContaining? hdisjoint a, filter_spanEndingAt? ⟨hnonempty, hdisjoint⟩ a⟩

/-- Address 5 lies in the gap between two spans: none contains it, and the first one ends there. The
image of the cat has 57 bytes, so that address 56 lies in a record and address 57 does not. -/
theorem gap_lies_in_no_span : ∃ v : View, v.spans = #[⟨.animal, ⟨0⟩, 5⟩, ⟨.inst, ⟨9⟩, 3⟩] ∧
    Increasing v.spans ∧ v.spanAt? ⟨9⟩ = some ⟨.inst, ⟨9⟩, 3⟩ ∧ v.spanContaining? ⟨5⟩ = none ∧
    v.spanEndingAt? ⟨5⟩ = some ⟨.animal, ⟨0⟩, 5⟩ ∧
    ∃ img, (Image.ofGraph {} Sample.cat).result = .ok img ∧
      (img.view.spanContaining? ⟨56⟩).isSome ∧ ¬ (img.view.spanContaining? ⟨57⟩).isSome := by
  obtain ⟨hview, himage⟩ := halving_agrees_with_scan
  have hsorted : Increasing #[⟨.animal, ⟨0⟩, 5⟩, ⟨.inst, ⟨9⟩, 3⟩] := by
    unfold Increasing
    decide
  obtain ⟨hat, -⟩ := hview ⟨#[], #[⟨.animal, ⟨0⟩, 5⟩, ⟨.inst, ⟨9⟩, 3⟩]⟩ ⟨9⟩ hsorted
  obtain ⟨-, hgap⟩ := hview ⟨#[], #[⟨.animal, ⟨0⟩, 5⟩, ⟨.inst, ⟨9⟩, 3⟩]⟩ ⟨5⟩ hsorted
  obtain ⟨haround, hending⟩ := hgap (by decide) (by decide)
  have hsize : (Image.ofGraph {} Sample.cat).result.toOption.map (·.size) = some 57 := by
    decide +kernel
  refine ⟨_, rfl, hsorted, Option.toList_eq_singleton_iff.mp hat.symm,
    Option.toList_eq_nil_iff.mp haround.symm, Option.toList_eq_singleton_iff.mp hending.symm, ?_⟩
  cases h : (Image.ofGraph {} Sample.cat).result with
  | error e =>
    rw [h] at hsize
    cases hsize
  | ok img =>
    rw [h] at hsize
    have hsize : img.size = 57 := Option.some.inj hsize
    obtain ⟨hinside, -⟩ := himage {} Sample.cat img h
    refine ⟨img, rfl, (hinside ⟨56⟩).mpr ?_, fun hsome => absurd ((hinside ⟨57⟩).mp hsome) ?_⟩
    · rw [hsize]
      decide
    · rw [hsize]
      decide

end View

end Menagerie
