import Menagerie.Proofs.Fields

/-! # Fields of any buffer

A buffer need not have been written by a layout: it may be too short for its spans, and the header words
in it may be anything. What is read from it still lies inside the record:

* `View.bound?` -- where the header says that the fields of a record start, and the end of the record
  behind the last one;
* `View.Marks` -- the header marks a field by two bounds that are in order, inside the record and inside
  the buffer; **just such fields are read** (`View.field?_eq_some_iff`);
* `Bytes.flatMap_extract` -- stretches between bounds that follow each other make up one stretch;
* `View.fields_tile_record` -- **the fields of a record lie side by side**: together they are what stands
  from the first bound to the end of the record.
-/

namespace Menagerie

/-! ## 1. Stretches of a buffer -/

theorem le_of_steps {p : Nat → Nat} {n : Nat} (h : ∀ i < n, p i ≤ p (i + 1)) :
    p 0 ≤ p n := by
  induction n with
  | zero => exact Nat.le_refl _
  | succ n ih =>
    exact Nat.le_trans (ih fun i hi => h i (Nat.lt_succ_of_lt hi)) (h n (Nat.lt_succ_self n))

namespace Bytes

/-- Stretches between bounds in order, one after another, are one stretch. -/
theorem flatMap_extract (b : Bytes) {p : Nat → Nat} {n : Nat} (h : ∀ i < n, p i ≤ p (i + 1)) :
    (List.range n).flatMap (fun i => (b.extract (p i) (p (i + 1))).toList) =
      (b.extract (p 0) (p n)).toList := by
  induction n with
  | zero => simp
  | succ n ih =>
    have hn : ∀ i < n, p i ≤ p (i + 1) := fun i hi => h i (Nat.lt_succ_of_lt hi)
    rw [List.range_succ, List.flatMap_append, ih hn, List.flatMap_cons, List.flatMap_nil,
      List.append_nil, ← Array.toList_append, Array.extract_append_extract,
      Nat.min_eq_left (le_of_steps hn), Nat.max_eq_right (h n (Nat.lt_succ_self n))]

/-- Bytes that are those of three buffers read as their texts. -/
theorem toText_eq_append {b x y z : Bytes} (h : b.toList = x.toList ++ y.toList ++ z.toList) :
    toText b = toText x ++ toText y ++ toText z := by
  rw [toText, h, List.map_append, List.map_append, String.ofList_append, String.ofList_append]
  rfl

end Bytes

namespace View

/-! ## 2. Single fields -/

/-- Where field `i` of a record starts, relative to the record: its header word, which must have an
address of 32 bits. Behind the last field this is the length of the record. -/
def bound? (v : View) (s : Span) (i : Nat) : Option UInt32 :=
  if i < s.kind.slots then
    if s.offset.toNat + 4 * i < 2 ^ 32 then v.bytes.word? (s.offset.toNat + 4 * i) else none
  else
    some s.len

/-- The header marks field `i` of a record from one bound to the next. -/
structure Marks (v : View) (s : Span) (i : Nat) (first last : UInt32) : Prop where
  slot : i < s.kind.slots
  first_eq : v.bound? s i = some first
  last_eq : v.bound? s (i + 1) = some last
  ordered : first.toNat ≤ last.toNat
  inside : last.toNat ≤ s.len.toNat
  present : s.offset.toNat + last.toNat ≤ v.bytes.size

variable {v : View} {s : Span} {i : Nat} {f : Bytes}

theorem bound?_slots (v : View) (s : Span) : v.bound? s s.kind.slots = some s.len :=
  if_neg (Nat.lt_irrefl _)

theorem bound?_of_slot (hi : i < s.kind.slots) :
    v.bound? s i = (s.offset.add? (Bytes.slotAt i)).bind v.word? := by
  rw [bound?, if_pos hi]
  by_cases hlt : s.offset.toNat + 4 * i < 2 ^ 32
  · rw [if_pos hlt, Bytes.slotAt, Offset.add?_of_lt hlt, Option.bind_some, word?, Bytes.wordAt?,
      Offset.toNat_ofNat hlt]
  · have ha : s.offset.add? (Bytes.slotAt i) = none := if_neg hlt
    rw [if_neg hlt, ha, Option.bind_none]

theorem fieldEnd?_eq_bound? (v : View) (s : Span) (i : Nat) :
    v.fieldEnd? s s.offset i = v.bound? s (i + 1) := by
  unfold fieldEnd?
  split
  · rename_i hi
    exact (bound?_of_slot hi).symm
  · rename_i hi
    rw [bound?, if_neg hi]

/-- **A field is read exactly if the header marks it**, and it is then the stretch that is marked. -/
theorem field?_eq_some_iff (hs : v.spanAt? s.offset = some s) :
    v.field? s.offset i = some f ↔ ∃ first last, v.Marks s i first last ∧
      f = v.bytes.extract (s.offset.toNat + first.toNat) (s.offset.toNat + last.toNat) := by
  simp only [field?, Option.bind_eq_bind, hs, Option.bind_some, fieldEnd?_eq_bound?]
  refine ⟨fun h => ?_, fun h => ?_⟩
  · split at h
    · rename_i hi
      obtain ⟨header, ha, h⟩ := Option.bind_eq_some_iff.mp h
      obtain ⟨first, hfirst, h⟩ := Option.bind_eq_some_iff.mp h
      obtain ⟨last, hlast, h⟩ := Option.bind_eq_some_iff.mp h
      have hbound : v.bound? s i = some first := by
        rw [bound?_of_slot hi, ha, Option.bind_some, hfirst]
      split at h
      · rename_i hin
        obtain ⟨hle, hlen, hsize⟩ := hin
        exact ⟨first, last, ⟨hi, hbound, hlast, UInt32.le_iff_toNat_le.mp hle,
          UInt32.le_iff_toNat_le.mp hlen, hsize⟩, (Option.some.inj h).symm⟩
      · cases h
    · cases h
  · obtain ⟨first, last, hm, rfl⟩ := h
    have hbound := hm.first_eq
    rw [bound?_of_slot hm.slot] at hbound
    obtain ⟨header, ha, hfirst⟩ := Option.bind_eq_some_iff.mp hbound
    rw [if_pos hm.slot, ha, Option.bind_some, hfirst, Option.bind_some, hm.last_eq, Option.bind_some]
    exact if_pos ⟨UInt32.le_iff_toNat_le.mpr hm.ordered, UInt32.le_iff_toNat_le.mpr hm.inside,
      hm.present⟩

/-! ## 3. Whole records -/

/-- **All fields of a record together are one stretch**, from the first bound to the end of the
record. -/
theorem flatMap_fields (hs : v.spanAt? s.offset = some s) {f : Nat → Bytes}
    (h : ∀ i < s.kind.slots, v.field? s.offset i = some (f i)) :
    ∃ first, v.bound? s 0 = some first ∧ first.toNat ≤ s.len.toNat ∧ s.stop ≤ v.bytes.size ∧
      (List.range s.kind.slots).flatMap (fun i => (f i).toList) =
        (v.bytes.extract (s.offset.toNat + first.toNat) s.stop).toList := by
  obtain ⟨p, hp⟩ : ∃ p : Nat → Nat, ∀ i first, v.bound? s i = some first → p i = first.toNat :=
    ⟨fun i => ((v.bound? s i).getD 0).toNat,
      fun i first hi => congrArg UInt32.toNat (hi ▸ Option.getD_some)⟩
  have hend : p s.kind.slots = s.len.toNat := hp _ _ (bound?_slots v s)
  have hmarks : ∀ i < s.kind.slots, p i ≤ p (i + 1) ∧ s.offset.toNat + p (i + 1) ≤ v.bytes.size ∧
      f i = v.bytes.extract (s.offset.toNat + p i) (s.offset.toNat + p (i + 1)) := by
    intro i hi
    obtain ⟨first, last, hm, hf⟩ := (field?_eq_some_iff hs).mp (h i hi)
    rw [hp _ _ hm.first_eq, hp _ _ hm.last_eq]
    exact ⟨hm.ordered, hm.present, hf⟩
  have hsteps : ∀ i < s.kind.slots, p i ≤ p (i + 1) := fun i hi => (hmarks i hi).1
  have hfields : (List.range s.kind.slots).flatMap (fun i => (f i).toList) =
      (List.range s.kind.slots).flatMap fun i =>
        (v.bytes.extract (s.offset.toNat + p i) (s.offset.toNat + p (i + 1))).toList :=
    List.flatMap_congr fun i hi => by rw [(hmarks i (List.mem_range.mp hi)).2.2]
  obtain ⟨first, _, hm, -⟩ := (field?_eq_some_iff hs).mp (h 0 s.kind.slots_pos)
  have hfirst := hp _ _ hm.first_eq
  refine ⟨first, hm.first_eq, ?_, ?_, ?_⟩
  · rw [← hfirst, ← hend]
    exact le_of_steps hsteps
  · -- the last field ends where the record ends
    obtain ⟨n, hn⟩ : ∃ n, s.kind.slots = n + 1 :=
      ⟨_, (Nat.succ_pred_eq_of_pos s.kind.slots_pos).symm⟩
    rw [Span.stop, ← hend, hn]
    exact (hmarks n (by omega)).2.1
  · rw [hfields, Bytes.flatMap_extract (p := fun i => s.offset.toNat + p i) _
      fun i hi => Nat.add_le_add_left (hsteps i hi) _, hfirst, hend]
    rfl

/-- **An animal is read exactly if its record is one and all fields of it are read**; these are then its
texts. -/
theorem animal?_eq_some_iff (hs : v.spanAt? s.offset = some s) {a : Animal} :
    v.animal? s.offset = some a ↔ s.kind = .animal ∧ ∃ f : Nat → Bytes,
      (∀ i < s.kind.slots, v.field? s.offset i = some (f i)) ∧
      Bytes.toText (f Slot.animalGene) = a.gene ∧ Bytes.toText (f Slot.animalName) = a.name ∧
      Bytes.toText (f Slot.animalSound) = a.sound := by
  have hstarts : v.startsRecord s.offset .animal = true ↔ s.kind = .animal := by
    rw [startsRecord, hs, Option.any_some, beq_iff_eq]
  refine ⟨fun h => ?_, fun h => ?_⟩
  · unfold animal? at h
    obtain ⟨_, hguard, h⟩ := Option.bind_eq_some_iff.mp h
    obtain ⟨gene, hgene, h⟩ := Option.bind_eq_some_iff.mp h
    obtain ⟨name, hname, h⟩ := Option.bind_eq_some_iff.mp h
    obtain ⟨sound, hsound, h⟩ := Option.bind_eq_some_iff.mp h
    cases h
    have hkind : s.kind = .animal := hstarts.mp (startsRecord_of_guard hguard)
    obtain ⟨gene, hgene, htgene⟩ := Option.map_eq_some_iff.mp hgene
    obtain ⟨name, hname, htname⟩ := Option.map_eq_some_iff.mp hname
    obtain ⟨sound, hsound, htsound⟩ := Option.map_eq_some_iff.mp hsound
    refine ⟨hkind, fun i => [gene, name, sound].getD i #[], fun i hi => ?_, htgene, htname, htsound⟩
    rw [hkind] at hi
    have hi : i < 3 := hi
    have hcases : i = 0 ∨ i = 1 ∨ i = 2 := by omega
    rcases hcases with rfl | rfl | rfl
    · exact hgene
    · exact hname
    · exact hsound
  · obtain ⟨hkind, f, hf, hgene, hname, hsound⟩ := h
    have hslot : ∀ i < 3, v.text? s.offset i = some (Bytes.toText (f i)) := by
      intro i hi
      rw [text?, hf i (by rw [hkind]; exact hi), Option.map_some]
    exact animal?_eq_some (hstarts.mpr hkind) (hgene ▸ hslot _ (by decide))
      (hname ▸ hslot _ (by decide)) (hsound ▸ hslot _ (by decide))

/-- The texts of an animal are together the text of one stretch. -/
theorem toText_of_animal? (hs : v.spanAt? s.offset = some s) {a : Animal}
    (h : v.animal? s.offset = some a) :
    ∃ first, v.bound? s 0 = some first ∧ first.toNat ≤ s.len.toNat ∧ s.stop ≤ v.bytes.size ∧
      a.gene ++ a.name ++ a.sound =
        Bytes.toText (v.bytes.extract (s.offset.toNat + first.toNat) s.stop) := by
  obtain ⟨hkind, f, hf, hgene, hname, hsound⟩ := (animal?_eq_some_iff hs).mp h
  obtain ⟨first, hfirst, hle, hstop, hall⟩ := flatMap_fields hs hf
  refine ⟨first, hfirst, hle, hstop, ?_⟩
  have hthree : (v.bytes.extract (s.offset.toNat + first.toNat) s.stop).toList =
      (f Slot.animalGene).toList ++ (f Slot.animalName).toList ++ (f Slot.animalSound).toList := by
    rw [← hall, hkind]
    show (f 0).toList ++ ((f 1).toList ++ ((f 2).toList ++ [])) = _
    rw [List.append_nil, ← List.append_assoc]
    rfl
  rw [Bytes.toText_eq_append hthree, hgene, hname, hsound]

/-- **Reading never leaves the record, and fields never overlap**, whatever the buffer holds and however
long it is. A field is read exactly if its header word and the next one, or the end of the record for
the last field, are in order, inside the record and inside the buffer; it is then the stretch between
them. If all fields of a record can be read, they are one after another the stretch from the first
header word to the end of the record. An animal is read exactly if all fields of its record are, so
that its texts are together the text of that stretch. -/
theorem fields_tile_record {v : View} (hsorted : Increasing v.spans) {s : Span} (hs : s ∈ v.spans) :
    (∀ i f, v.field? s.offset i = some f ↔ ∃ first last, v.Marks s i first last ∧
      f = v.bytes.extract (s.offset.toNat + first.toNat) (s.offset.toNat + last.toNat)) ∧
    (∀ f : Nat → Bytes, (∀ i < s.kind.slots, v.field? s.offset i = some (f i)) →
      ∃ first, v.bound? s 0 = some first ∧ first.toNat ≤ s.len.toNat ∧ s.stop ≤ v.bytes.size ∧
        (List.range s.kind.slots).flatMap (fun i => (f i).toList) =
          (v.bytes.extract (s.offset.toNat + first.toNat) s.stop).toList) ∧
    (∀ a, v.animal? s.offset = some a ↔ s.kind = .animal ∧ ∃ f : Nat → Bytes,
      (∀ i < s.kind.slots, v.field? s.offset i = some (f i)) ∧
      Bytes.toText (f Slot.animalGene) = a.gene ∧ Bytes.toText (f Slot.animalName) = a.name ∧
      Bytes.toText (f Slot.animalSound) = a.sound) ∧
    ∀ a, v.animal? s.offset = some a →
      ∃ first, v.bound? s 0 = some first ∧ first.toNat ≤ s.len.toNat ∧ s.stop ≤ v.bytes.size ∧
        a.gene ++ a.name ++ a.sound =
          Bytes.toText (v.bytes.extract (s.offset.toNat + first.toNat) s.stop) := by
  have hfound : v.spanAt? s.offset = some s := (spanAt?_eq_some_iff hsorted).mpr ⟨hs, rfl⟩
  exact ⟨fun i f => field?_eq_some_iff hfound, fun f hf => flatMap_fields hfound hf,
    fun a => animal?_eq_some_iff hfound, fun a ha => toText_of_animal? hfound ha⟩

/-- The header words of this animal are 0, 4 and 4, so that they point into the header itself: the name
is empty, and gene and sound share the twelve bytes of the record. -/
theorem header_is_read_as_text : ∃ v : View, v.bytes = #[9, 0, 0, 0, 0, 4, 0, 0, 0, 4, 0, 0, 0] ∧
    v.spans = #[⟨.animal, ⟨1⟩, 12⟩] ∧ Increasing v.spans ∧ v.field? ⟨1⟩ 1 = some #[] ∧
    ∃ a, v.animal? ⟨1⟩ = some a ∧
      a.gene ++ a.name ++ a.sound = Bytes.toText #[0, 0, 0, 0, 4, 0, 0, 0, 4, 0, 0, 0] := by
  obtain ⟨v, hv⟩ : ∃ v : View,
    v = ⟨#[9, 0, 0, 0, 0, 4, 0, 0, 0, 4, 0, 0, 0], #[⟨.animal, ⟨1⟩, 12⟩]⟩ := ⟨_, rfl⟩
  have hsorted : Increasing v.spans := by
    rw [hv]
    exact List.pairwise_singleton _ _
  have hs : ⟨.animal, ⟨1⟩, 12⟩ ∈ v.spans := by
    rw [hv]
    exact Array.mem_singleton.mpr rfl
  obtain ⟨hfield, -, -, htexts⟩ := fields_tile_record hsorted hs
  have hname : v.Marks ⟨.animal, ⟨1⟩, 12⟩ 1 4 4 := by
    rw [hv]
    exact ⟨by decide, by decide, by decide, by decide, by decide, by decide⟩
  have hsome : (v.animal? ⟨1⟩).isSome = true := by
    rw [hv]
    decide +kernel
  obtain ⟨a, ha⟩ := Option.isSome_iff_exists.mp hsome
  obtain ⟨first, hfirst, -, -, htext⟩ := htexts a ha
  refine ⟨v, by rw [hv], by rw [hv], hsorted, (hfield 1 #[]).mpr ⟨4, 4, hname, ?_⟩, a, ha, ?_⟩
  · rw [hv]
    rfl
  have hword : v.bound? ⟨.animal, ⟨1⟩, 12⟩ 0 = some 0 := by
    rw [hv]
    decide
  cases hword.symm.trans hfirst
  rw [htext, hv]
  rfl

end View

end Menagerie
