import Menagerie.Graph.Sample
import Menagerie.Proofs.Settling

/-! # Every byte of an image

An image is the bytes of its layout's records end to end, with one word overwritten in each instance
that a world lists.

* `Layout.Sound.toList_bytes` -- the bytes of a layout are those of its records, in order;
* `Placed.Listed`, `Layout.InListedWord` -- the records that settling writes to, and the bytes;
* `Image.ofLayout_writes`, `Image.getElem?_of_writes` -- settling is a list of writes into listed
  instances, and **leaves every byte outside their world words alone**;
* `Image.build_is_exact` -- **every byte of an image, from the build alone**.
-/

namespace Menagerie

/-! ## 1. The bytes of a layout -/

theorem Placed.toList_append (b : Bytes) (ps : List Placed) :
    (append b ps).toList = b.toList ++ ps.flatMap (·.record.bytes.toList) := by
  induction ps generalizing b with
  | nil => simp [append]
  | cons p ps ih =>
    show (append (b ++ p.record.bytes) ps).toList = _
    rw [ih, Array.toList_append, List.flatMap_cons, List.append_assoc]

/-- **The bytes of a layout are those of its records, end to end.** -/
theorem Layout.Sound.toList_bytes {g : Graph} {l : Layout} (h : l.Sound g) :
    l.bytes.toList = l.records.toList.flatMap (·.record.bytes.toList) := by
  rw [h.bytes_eq, Placed.toList_append]
  rfl

/-! ## 2. What settling writes to -/

/-- The record of an instance that some world lists. -/
def Placed.Listed (g : Graph) (p : Placed) : Prop :=
  p.record.kind = .inst ∧ ∃ w ∈ g.worlds, w.Lists p.index

/-- A byte of the world word of an instance that some world lists. -/
def Layout.InListedWord (l : Layout) (g : Graph) (i : Nat) : Prop :=
  ∃ p ∈ l.records, p.Listed g ∧ p.offset.toNat + worldRefAt ≤ i ∧ i < p.offset.toNat + worldRefAt + 4

/-- Inside a record the listed world words are its own, if it has one. -/
theorem Layout.Sound.of_inListedWord {g : Graph} {l : Layout} (h : l.Sound g) {p : Placed}
    (hp : p ∈ l.records) {j : Nat} (hj : j < p.record.bytes.size)
    (hin : l.InListedWord g (p.offset.toNat + j)) :
    p.Listed g ∧ worldRefAt ≤ j ∧ j < worldRefAt + 4 := by
  obtain ⟨q, hq, hlisted, hlo, hhi⟩ := hin
  by_cases hpq : p = q
  · subst hpq
    exact ⟨hlisted, by omega, by omega⟩
  · have := h.worldWord_le hq hlisted.1
    have := h.apart hp hq hpq
    unfold Placed.stop at *
    omega

namespace Image

/-- A claim is an entry of a world's list. -/
theorem listed_of_mem_claims {g : Graph} {offsets : List Offset} {c : Claim} (h : c ∈ claims g offsets) :
    ∃ w ∈ g.worlds, c.member ∈ w.contains := by
  obtain ⟨x, hx, hclaim⟩ := List.mem_flatMap.mp h
  obtain ⟨r, hr, rfl⟩ := List.mem_map.mp hclaim
  exact ⟨x.1, Array.mem_toList_iff.mp (List.of_mem_zip hx).1, hr⟩

/-- **Settling is a list of writes**, one for each claim. -/
theorem ofLayout_writes {strict : Bool} {g : Graph} {l : Layout} {img : Image}
    (h : (ofLayout strict g l).result = .ok img) :
    ∃ ws, List.Forall₂ (Claim.Patches g l.instances) (claims g l.worldOffsets) ws ∧
      img.bytes = l.bytes.writes ws := by
  obtain ⟨s, hs, rfl⟩ := ofLayout_eq_ok_iff.mp h
  obtain ⟨ws, hws, hbytes, -⟩ := settled_writes hs
  exact ⟨ws, hws, hbytes⟩

/-- **A byte outside the world words of listed instances stays.** -/
theorem getElem?_of_writes {g : Graph} {l : Layout} (hl : l.Sound g) {ws : List Bytes.Write}
    (hws : List.Forall₂ (Claim.Patches g l.instances) (claims g l.worldOffsets) ws) {i : Nat}
    (hi : ¬ l.InListedWord g i) : (l.bytes.writes ws)[i]? = l.bytes[i]? := by
  refine Bytes.getElem?_writes_of_outside (fun w hw => ?_) (fun w hw hin => ?_)
  · obtain ⟨c, -, hc⟩ := forall₂_of_mem_right hws hw
    exact (hc.into hl).1.le_size hl
  · obtain ⟨c, hmem, hc⟩ := forall₂_of_mem_right hws hw
    obtain ⟨⟨p, hp, hk, hindex, hpos⟩, -⟩ := hc.into hl
    obtain ⟨world, hworld, hmember⟩ := listed_of_mem_claims hmem
    exact hi ⟨p, hp, ⟨hk, world, hworld, c.member, hmember, hindex.symm⟩, by omega, by omega⟩

/-! ## 3. The image -/

/-- **Every byte of an image is known.** It has as many bytes as its layout counted, and its spans are
those of the records. The world word of an instance that is listed holds the offset of the last world
that lists it, least significant byte first, and that of any other instance is unset. Every other byte
is the one that the records end to end have there; so each record stands at its offset as it was
encoded, that word excepted. -/
theorem build_is_exact {c : ImageConfig} {g : Graph} {img : Image} (hs : g.Sized)
    (h : (ofGraph c g).result = .ok img) :
    ∃ l, (Layout.ofGraph c g).result = .ok l ∧ img.bytes.size = l.total ∧
      img.spans.toList = (l.records.toList.map fun p => ⟨p.record.kind, p.offset, p.record.len⟩) ∧
      (∀ p ∈ l.records, p.record.kind = .inst → ∀ w, g.lastListing? p.index = some w →
        ∃ o, l.worlds.get? w.name = some o ∧ ∀ k, k < 4 →
          img.bytes[p.offset.toNat + worldRefAt + k]? = some (wordByte o.word k)) ∧
      (∀ p ∈ l.records, p.record.kind = .inst → g.lastListing? p.index = none →
        img.bytes.word? (p.offset.toNat + worldRefAt) = some 0xFFFFFFFF) ∧
      (∀ i, ¬ l.InListedWord g i →
        img.bytes[i]? = (l.records.toList.flatMap (·.record.bytes.toList))[i]?) ∧
      ∀ p ∈ l.records, ∀ j, j < p.record.bytes.size →
        ¬ (p.Listed g ∧ worldRefAt ≤ j ∧ j < worldRefAt + 4) →
        img.bytes[p.offset.toNat + j]? = p.record.bytes[j]? := by
  obtain ⟨l, hl, himg⟩ := Traced.result_bind_eq_ok_iff.mp h
  obtain ⟨hsound, hsize, -⟩ := Layout.sound_of_ofGraph hs hl
  have hb := built_of_ofLayout hsound himg
  obtain ⟨ws, hws, hbytes⟩ := ofLayout_writes himg
  have hframe : ∀ i, ¬ l.InListedWord g i → img.bytes[i]? = l.bytes[i]? := by
    intro i hi
    rw [hbytes]
    exact getElem?_of_writes hsound hws hi
  refine ⟨l, hl, hb.memory.size_eq.trans hsize, ?_, fun p hp hk w hw => ?_, fun p hp hk hw => ?_,
    fun i hi => ?_, fun p hp j hj hout => ?_⟩
  · rw [hb.spans, Layout.spans, Array.toList_map]
    rfl
  · obtain ⟨o, hword, hstart⟩ := hb.worldWord p hp hk
    rw [Graph.StartsIn, hw] at hstart
    exact ⟨o, hstart, fun k hk => Bytes.getElem?_of_word? hword hk⟩
  · obtain ⟨o, hword, hstart⟩ := hb.worldWord p hp hk
    rw [Graph.StartsIn, hw] at hstart
    rw [hword, hstart]
    rfl
  · rw [hframe i hi, ← hsound.toList_bytes, Array.getElem?_toList]
  · rw [hframe _ fun hin => hout (hsound.of_inListedWord hp hj hin), hsound.holds hp j hj]

/-- The shared cat holds the offset of the second world, and the cat that no world lists none. -/
theorem shared_cat_is_patched : Sample.sharedCat.Sized ∧
    ∃ img l, (ofGraph {} Sample.sharedCat).result = .ok img ∧
      (Layout.ofGraph {} Sample.sharedCat).result = .ok l ∧ img.bytes.size = l.total ∧
      (∀ p ∈ l.records, p.record.kind = .inst → p.index = 0 →
        ∃ o, l.worlds.get? "w2" = some o ∧ ∀ k, k < 4 →
          img.bytes[p.offset.toNat + worldRefAt + k]? = some (wordByte o.word k)) ∧
      ∀ p ∈ l.records, p.record.kind = .inst → p.index = 1 →
        img.bytes.word? (p.offset.toNat + worldRefAt) = some 0xFFFFFFFF := by
  have hsized : Sample.sharedCat.Sized :=
    Graph.sized_of_footprints (by decide) (by decide) (by decide)
  have hok : (ofGraph {} Sample.sharedCat).result.isOk = true := by decide +kernel
  have hlisted : Sample.sharedCat.lastListing? 0 = some ⟨"w2", [⟨0⟩, ⟨0⟩]⟩ := by decide
  have hnone : Sample.sharedCat.lastListing? 1 = none := by decide
  refine ⟨hsized, ?_⟩
  cases h : (ofGraph {} Sample.sharedCat).result with
  | error e =>
    rw [h] at hok
    cases hok
  | ok img =>
    obtain ⟨l, hl, hsize, -, hword, hunset, -, -⟩ := build_is_exact hsized h
    refine ⟨img, l, rfl, hl, hsize, fun p hp hk hi => ?_, fun p hp hk hi => ?_⟩
    · exact hword p hp hk _ (hi ▸ hlisted)
    · exact hunset p hp hk (hi ▸ hnone)

end Image

end Menagerie
