import Menagerie.Proofs.Encoding
import Menagerie.Proofs.SpanSearch

/-! # Reading the fields of a record

A view reads a record with nothing but its span and its header. `View.Laid` says what this takes: the
span is found at its address, it lies inside the buffer, and the header words are the starts of a
list of fields. It does not say what the fields hold, so it survives every change of the fields.

* `Laid.fieldAddress?_eq`, `Laid.field?_eq` -- **a field is found by its record and slot**, and it ends
  where the next one starts;
* `Laid.field?_of_holds`, `Laid.text?_eq` -- it reads as the bytes that stand there;
* `animal?_eq_some`, `inst?_eq_some`, `world?_eq_some` -- a whole record is read when its fields are.
-/

namespace Menagerie

theorem Offset.add?_of_lt {o : Offset} {rel : Nat} (h : o.toNat + rel < 2 ^ 32) :
    o.add? rel = some (ofNat (o.toNat + rel)) := by
  rw [add?_eq_some_iff, toNat_ofNat h]

/-- Four bytes cut out of a buffer are the word that stands there. -/
theorem Bytes.word?_extract (b : Bytes) (pos : Nat) :
    word? (b.extract pos (pos + 4)) 0 = b.word? pos := by
  refine word?_congr fun j hj => ?_
  rw [Array.getElem?_extract, Nat.zero_add]
  by_cases hlt : pos + j < b.size
  · rw [if_pos (by omega)]
  · rw [if_neg (by omega), Array.getElem?_eq_none (by omega)]

namespace View

/-! ## 1. Single fields -/

/-- A record with fields of these lengths lies where its span says, and its header can be read. -/
structure Laid (v : View) (s : Span) (fields : List Bytes) : Prop where
  found : v.spanAt? s.offset = some s
  length : fields.length = s.kind.slots
  header : ∀ i < s.kind.slots,
    v.bytes.word? (s.offset.toNat + 4 * i) = some (UInt32.ofNat (Record.start fields i))
  len_eq : s.len.toNat = Record.start fields fields.length
  inside : s.stop ≤ v.bytes.size
  bounded : s.stop < 2 ^ 32

namespace Laid

variable {v : View} {s : Span} {fields : List Bytes} {i : Nat}

theorem start_le (h : v.Laid s fields) (hi : i ≤ s.kind.slots) :
    Record.start fields i ≤ s.len.toNat :=
  h.len_eq ▸ Record.start_mono (h.length ▸ hi)

theorem field_lt (h : v.Laid s fields) (hi : i ≤ s.kind.slots) :
    s.offset.toNat + Record.start fields i < 2 ^ 32 :=
  Nat.lt_of_le_of_lt (Nat.add_le_add_left (h.start_le hi) _) h.bounded

theorem toNat_start (h : v.Laid s fields) (hi : i ≤ s.kind.slots) :
    (UInt32.ofNat (Record.start fields i)).toNat = Record.start fields i :=
  UInt32.toNat_ofNat_of_lt (Nat.lt_of_le_of_lt (Nat.le_add_left _ _) (h.field_lt hi))

/-- The address of a header slot, and the word there. -/
theorem slot_word (h : v.Laid s fields) (hi : i < s.kind.slots) :
    ∃ a, s.offset.add? (Bytes.slotAt i) = some a ∧
      v.word? a = some (UInt32.ofNat (Record.start fields i)) := by
  have hlt : s.offset.toNat + Bytes.slotAt i < 2 ^ 32 := by
    have := h.field_lt (Nat.le_of_lt hi)
    have := Record.header_le_start fields i
    have := h.length
    unfold Bytes.slotAt
    omega
  refine ⟨_, Offset.add?_of_lt hlt, ?_⟩
  rw [View.word?, Bytes.wordAt?, Offset.toNat_ofNat hlt]
  exact h.header i hi

/-- **The address computed from a header word is that of the field.** -/
theorem fieldAddress?_eq (h : v.Laid s fields) (hi : i < s.kind.slots) :
    v.bytes.fieldAddress? s.offset i = some (.ofNat (s.offset.toNat + Record.start fields i)) := by
  obtain ⟨a, ha, hw⟩ := h.slot_word hi
  rw [View.word?] at hw
  simp only [Bytes.fieldAddress?, Option.bind_eq_bind, ha, hw, Option.bind_some]
  rw [h.toNat_start (Nat.le_of_lt hi), Offset.add?_of_lt (h.field_lt (Nat.le_of_lt hi))]

/-- The end of a field, relative to its record, is the start of the next one. -/
theorem fieldEnd?_eq (h : v.Laid s fields) (hi : i < s.kind.slots) :
    v.fieldEnd? s s.offset i = some (UInt32.ofNat (Record.start fields (i + 1))) := by
  rw [View.fieldEnd?]
  by_cases hlast : i + 1 < s.kind.slots
  · obtain ⟨a, ha, hw⟩ := h.slot_word hlast
    rw [if_pos hlast]
    simp only [Option.bind_eq_bind, ha, Option.bind_some]
    exact hw
  · have hend : i + 1 = fields.length := by
      rw [h.length]
      omega
    rw [if_neg hlast, hend, ← h.len_eq, UInt32.ofNat_toNat]

/-- **A field is found by its record and slot.** -/
theorem field?_eq (h : v.Laid s fields) (hi : i < s.kind.slots) :
    v.field? s.offset i = some (v.bytes.extract (s.offset.toNat + Record.start fields i)
      (s.offset.toNat + Record.start fields (i + 1))) := by
  obtain ⟨a, ha, hw⟩ := h.slot_word hi
  have hfirst := h.toNat_start (Nat.le_of_lt hi)
  have hlast := h.toNat_start (Nat.succ_le_of_lt hi)
  have hle := h.start_le (Nat.succ_le_of_lt hi)
  have hin : UInt32.ofNat (Record.start fields i) ≤ UInt32.ofNat (Record.start fields (i + 1)) ∧
      UInt32.ofNat (Record.start fields (i + 1)) ≤ s.len ∧
      s.offset.toNat + (UInt32.ofNat (Record.start fields (i + 1))).toNat ≤ v.bytes.size := by
    rw [UInt32.le_iff_toNat_le, UInt32.le_iff_toNat_le, hfirst, hlast]
    exact ⟨Record.start_mono (Nat.le_succ i), hle,
      Nat.le_trans (Nat.add_le_add_left hle _) h.inside⟩
  simp only [View.field?, Option.bind_eq_bind, h.found, Option.bind_some]
  rw [if_pos hi, ha, Option.bind_some, hw, Option.bind_some, h.fieldEnd?_eq hi, Option.bind_some,
    if_pos hin, hfirst, hlast]

/-- **A field reads as the bytes that stand at its start.** -/
theorem field?_of_holds (h : v.Laid s fields) {f : Bytes} (hf : fields[i]? = some f)
    (hh : Bytes.Holds v.bytes f (s.offset.toNat + Record.start fields i)) :
    v.field? s.offset i = some f := by
  have hi : i < s.kind.slots := h.length ▸ (List.getElem?_eq_some_iff.mp hf).1
  rw [h.field?_eq hi, Record.start_succ hf, ← Nat.add_assoc, hh.extract_eq]

theorem startsRecord_eq (h : v.Laid s fields) : v.startsRecord s.offset s.kind = true := by
  rw [View.startsRecord, h.found, Option.any_some, beq_self_eq_true]

end Laid

/-! ## 2. Texts, references and whole records -/

variable {v : View} {base : Offset} {slot : Nat}

theorem text?_of_field? {t : String} (h : v.field? base slot = some (Bytes.codes t))
    (ht : Bytes.Fits t) : v.text? base slot = some t := by
  rw [View.text?, h, Option.map_some, Bytes.toText_codes ht]

theorem reference?_of_field? {w : UInt32} (h : v.field? base slot = some (Record.ofWord w)) :
    v.reference? base slot = some ⟨w⟩ := by
  have hword : (Record.ofWord w).word? 0 = some w := Bytes.word?_pushWord #[] w
  simp only [View.reference?, Option.bind_eq_bind, h, Option.bind_some]
  rw [if_pos (Record.size_ofWord w), hword, Option.map_some]

theorem guard_startsRecord {kind : RecordKind} (h : v.startsRecord base kind = true) :
    (guard (v.startsRecord base kind = true) : Option Unit) = some () :=
  if_pos h

theorem startsRecord_of_guard {kind : RecordKind} {u : Unit}
    (h : (guard (v.startsRecord base kind = true) : Option Unit) = some u) :
    v.startsRecord base kind = true := by
  by_contra hno
  rw [guard, if_neg hno] at h
  cases h

theorem animal?_eq_some {a : Animal} (hstart : v.startsRecord base .animal = true)
    (hgene : v.text? base Slot.animalGene = some a.gene)
    (hname : v.text? base Slot.animalName = some a.name)
    (hsound : v.text? base Slot.animalSound = some a.sound) : v.animal? base = some a := by
  rw [View.animal?, guard_startsRecord hstart]
  simp [hgene, hname, hsound]

theorem inst?_eq_some {name : String} {species world : Offset}
    (hstart : v.startsRecord base .inst = true) (hname : v.text? base Slot.instName = some name)
    (hspecies : v.reference? base Slot.instSpecies = some species)
    (hworld : v.reference? base Slot.instWorld = some world) :
    v.inst? base = some ⟨name, species, world⟩ := by
  rw [View.inst?, guard_startsRecord hstart]
  simp [hname, hspecies, hworld]

theorem world?_eq_some {name : String} {os : List Offset}
    (hstart : v.startsRecord base .world = true) (hname : v.text? base Slot.worldName = some name)
    (hlist : v.field? base Slot.worldContains = some (Bytes.ofWords (os.map (·.word)))) :
    v.world? base = some ⟨name, os⟩ := by
  have hwords : (Bytes.words (Bytes.ofWords (os.map (·.word)))).map Offset.mk = os := by
    rw [Bytes.words_ofWords, List.map_map]
    exact List.map_id' os
  rw [View.world?, guard_startsRecord hstart]
  simp only [hlist, hname, Option.pure_def, Option.bind_eq_bind, Option.bind_some, hwords]

end View

end Menagerie
