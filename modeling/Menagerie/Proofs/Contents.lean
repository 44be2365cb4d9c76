import Menagerie.Proofs.Reading

/-! # What the records say

In every memory of a layout each record reads as the declaration it was made from, and an instance
as being in the world that its world word names:

* `View.Reads` -- a field reads as a text, by its slot and by its address alike;
* `Memory.animal_reads`, `Memory.inst_reads`, `Memory.world_reads` -- **the fields of each kind say
  what the declaration says**;
* `Memory.animal?_eq`, `Memory.inst?_eq`, `Memory.world?_eq` -- the same for whole records.
-/

namespace Menagerie

/-! ## 1. Single fields -/

/-- A field of a record reads as a text, both by its slot and by the address that the header gives
for it; the address does not lie beyond the end. -/
structure View.Reads (v : View) (base : Offset) (kind : RecordKind) (slot : Nat) (s : String) :
    Prop where
  text : v.text? base slot = some s
  address : ∃ a, v.bytes.fieldAddress? base slot = some a ∧ a.toNat ≤ v.bytes.size ∧
    v.textAt? a kind slot = some s

namespace Layout.Memory

variable {g : Graph} {l : Layout} {mem : Bytes} {p : Placed} {fields : List Bytes}

theorem reads (h : l.Sound g) (hm : l.Memory mem) (hp : p ∈ l.records) (hf : p.Made fields) {i : Nat}
    {s : String} (hfi : fields[i]? = some (Bytes.codes s)) (hs : Bytes.Fits s)
    (hout : p.record.kind = .inst → worldRefAt + 4 ≤ Record.start fields i) :
    (l.view mem).Reads p.offset p.record.kind i s := by
  have hi : i < p.record.kind.slots := hf.length ▸ (List.getElem?_eq_some_iff.mp hfi).1
  have hcut := extract_field h hm hp hf hfi hout
  refine ⟨?_, _, fieldAddress?_eq h hm hp hf hi, ?_, ?_⟩
  · refine View.text?_of_field? ?_ hs
    rw [field?_eq h hm hp hf hi, hcut]
  · have := hf.start_le (hf.length ▸ Nat.le_of_lt hi)
    have := h.stop_le hp
    rw [Offset.toNat_ofNat (field_lt h hp hf (Nat.le_of_lt hi)), hm.size_eq]
    unfold Placed.stop at *
    omega
  · rw [View.textAt?, fieldAt?_eq h hm hp hf hi, hcut, Option.map_some, Bytes.toText_codes hs]

theorem startsRecord_eq (h : l.Sound g) (hp : p ∈ l.records) :
    (l.view mem).startsRecord p.offset p.record.kind = true := by
  rw [View.startsRecord, spanAt?_eq h hp, Option.any_some, Placed.kind_span, beq_self_eq_true]

/-- **An address that starts a record of a kind is the offset of one.** -/
theorem of_startsRecord (h : l.Sound g) {a : Offset} {kind : RecordKind}
    (ha : (l.view mem).startsRecord a kind = true) :
    ∃ p ∈ l.records, p.offset = a ∧ p.record.kind = kind := by
  rw [View.startsRecord, Option.any_eq_true] at ha
  obtain ⟨s, hs, hk⟩ := ha
  obtain ⟨hmem, ho⟩ := (View.spanAt?_eq_some_iff (apart_spans h).increasing).mp hs
  obtain ⟨p, hp, rfl⟩ := Array.mem_map.mp hmem
  exact ⟨p, hp, ho, beq_iff_eq.mp hk⟩

/-! ## 2. Animals -/

theorem animal_reads (h : l.Sound g) (hm : l.Memory mem) (hp : p ∈ l.records)
    (hk : p.record.kind = .animal) :
    ∃ a, g.animals[p.index]? = some a ∧
      (l.view mem).Reads p.offset .animal Slot.animalGene a.gene ∧
      (l.view mem).Reads p.offset .animal Slot.animalName a.name ∧
      (l.view mem).Reads p.offset .animal Slot.animalSound a.sound := by
  obtain ⟨a, ha, ⟨hg, hn, hs⟩, hf⟩ := h.animal_fields hp hk
  have hout : ∀ {fs : List Bytes} {i : Nat}, p.record.kind = .inst →
      worldRefAt + 4 ≤ Record.start fs i := fun hi => absurd (hk.symm.trans hi) (by decide)
  rw [← hk]
  exact ⟨a, ha, reads h hm hp hf rfl hg hout, reads h hm hp hf rfl hn hout,
    reads h hm hp hf rfl hs hout⟩

/-- **An animal is read back.** -/
theorem animal?_eq (h : l.Sound g) (hm : l.Memory mem) (hp : p ∈ l.records)
    (hk : p.record.kind = .animal) :
    ∃ a, g.animals[p.index]? = some a ∧ (l.view mem).animal? p.offset = some a := by
  obtain ⟨a, ha, hg, hn, hs⟩ := animal_reads h hm hp hk
  exact ⟨a, ha, View.animal?_eq_some (hk ▸ startsRecord_eq h hp) hg.text hn.text hs.text⟩

/-! ## 3. Instances -/

/-- The world word of an instance is its first field. -/
theorem worldWord_field (h : l.Sound g) (hm : l.Memory mem) (hp : p ∈ l.records)
    (hk : p.record.kind = .inst) :
    mem.fieldAddress? p.offset Slot.instWorld = some (.ofNat (p.offset.toNat + worldRefAt)) ∧
      p.offset.toNat + worldRefAt + 4 ≤ mem.size ∧
      (l.view mem).field? p.offset Slot.instWorld =
        some (mem.extract (p.offset.toNat + worldRefAt) (p.offset.toNat + worldRefAt + 4)) := by
  obtain ⟨i, a, o, -, -, -, -, hf⟩ := h.inst_fields hp hk
  have hslot : Slot.instWorld < p.record.kind.slots := by rw [hk]; decide
  refine ⟨fieldAddress?_eq h hm hp hf hslot, ?_, ?_⟩
  · have := h.worldWord_le hp hk
    have := h.stop_le hp
    rw [hm.size_eq]
    omega
  · rw [Nat.add_assoc, ← Record.start_after_world]
    exact field?_eq h hm hp hf hslot

/-- The other two fields of an instance: its name, and a reference to its species. -/
theorem inst_reads (h : l.Sound g) (hm : l.Memory mem) (hp : p ∈ l.records)
    (hk : p.record.kind = .inst) :
    ∃ i a o, g.instances[p.index]? = some i ∧ g.animal? i.species = some a ∧
      l.animals.get? a.name = some o ∧
      (l.view mem).Reads p.offset .inst Slot.instName i.name ∧
      (l.view mem).field? p.offset Slot.instSpecies = some (Record.ofWord o.word) ∧
      ∃ x, mem.fieldAddress? p.offset Slot.instSpecies = some x ∧ mem.wordAt? x = some o.word := by
  obtain ⟨i, a, o, hi, ha, ho, hn, hf⟩ := h.inst_fields hp hk
  have hout : ∀ {j : Nat}, 1 ≤ j → p.record.kind = .inst → worldRefAt + 4 ≤ Record.start
      [Record.ofWord Offset.unset.word, Bytes.codes i.name, Record.ofWord o.word] j :=
    fun hj _ => Record.start_after_world _ _ _ ▸ Record.start_mono hj
  have hname := reads h hm hp hf (i := Slot.instName) rfl hn (hout (by decide))
  rw [hk] at hname
  have hslot : Slot.instSpecies < p.record.kind.slots := by rw [hk]; decide
  have hcut := extract_field h hm hp hf (i := Slot.instSpecies) rfl (hout (by decide))
  refine ⟨i, a, o, hi, ha, ho, hname, ?_, _, fieldAddress?_eq h hm hp hf hslot, ?_⟩
  · rw [field?_eq h hm hp hf hslot, hcut]
  · rw [Bytes.wordAt?, Offset.toNat_ofNat (field_lt h hp hf (Nat.le_of_lt hslot)),
      ← Bytes.word?_extract]
    have hspecies : [Record.ofWord Offset.unset.word, Bytes.codes i.name,
        Record.ofWord o.word][Slot.instSpecies]? = some (Record.ofWord o.word) := rfl
    have hsucc := Record.start_succ hspecies
    rw [hsucc, Record.size_ofWord, ← Nat.add_assoc] at hcut
    rw [hcut]
    exact Bytes.word?_pushWord #[] o.word

/-- **An instance is read back**, with the world that its world word names. -/
theorem inst?_eq (h : l.Sound g) (hm : l.Memory mem) (hp : p ∈ l.records)
    (hk : p.record.kind = .inst) {w : UInt32}
    (hw : mem.word? (p.offset.toNat + worldRefAt) = some w) :
    ∃ i a o, g.instances[p.index]? = some i ∧ g.animal? i.species = some a ∧
      l.animals.get? a.name = some o ∧ (l.view mem).inst? p.offset = some ⟨i.name, o, ⟨w⟩⟩ := by
  obtain ⟨i, a, o, hi, ha, ho, hname, hspecies, -⟩ := inst_reads h hm hp hk
  refine ⟨i, a, o, hi, ha, ho, ?_⟩
  obtain ⟨-, hle, hworld⟩ := worldWord_field h hm hp hk
  have hsize : (mem.extract (p.offset.toNat + worldRefAt)
      (p.offset.toNat + worldRefAt + 4)).size = 4 := by
    rw [Array.size_extract]
    omega
  have href : (l.view mem).reference? p.offset Slot.instWorld = some ⟨w⟩ := by
    simp only [View.reference?, Option.bind_eq_bind, hworld, Option.bind_some]
    rw [if_pos hsize, Bytes.word?_extract, hw, Option.map_some]
  exact View.inst?_eq_some (hk ▸ startsRecord_eq h hp) hname.text
    (View.reference?_of_field? hspecies) href

/-! ## 4. Worlds -/

theorem world_reads (h : l.Sound g) (hm : l.Memory mem) (hp : p ∈ l.records)
    (hk : p.record.kind = .world) :
    ∃ w, ∃ os : List Offset, g.worlds[p.index]? = some w ∧
      List.Forall₂ (fun m o => Record.memberOffset g l.instances w.name m = .ok o) w.contains os ∧
      (l.view mem).Reads p.offset .world Slot.worldName w.name ∧
      (l.view mem).field? p.offset Slot.worldContains = some (Bytes.ofWords (os.map (·.word))) := by
  obtain ⟨w, os, hw, hn, hos, hf⟩ := h.world_fields hp hk
  have hout : ∀ {fs : List Bytes} {i : Nat}, p.record.kind = .inst →
      worldRefAt + 4 ≤ Record.start fs i := fun hi => absurd (hk.symm.trans hi) (by decide)
  have hslot : Slot.worldContains < p.record.kind.slots := by rw [hk]; decide
  have hname := reads h hm hp hf (i := Slot.worldName) rfl hn hout
  rw [hk] at hname
  refine ⟨w, os, hw, hos, hname, ?_⟩
  rw [field?_eq h hm hp hf hslot, extract_field h hm hp hf rfl hout]

/-- **A world is read back**, with the offsets of the instances it lists. -/
theorem world?_eq (h : l.Sound g) (hm : l.Memory mem) (hp : p ∈ l.records)
    (hk : p.record.kind = .world) :
    ∃ w, ∃ os : List Offset, g.worlds[p.index]? = some w ∧
      List.Forall₂ (fun m o => Record.memberOffset g l.instances w.name m = .ok o) w.contains os ∧
      (l.view mem).world? p.offset = some ⟨w.name, os⟩ := by
  obtain ⟨w, os, hw, hos, hname, hlist⟩ := world_reads h hm hp hk
  exact ⟨w, os, hw, hos, View.world?_eq_some (hk ▸ startsRecord_eq h hp) hname.text hlist⟩

end Layout.Memory

end Menagerie
