import Menagerie.Graph.Sample
import Menagerie.Proofs.Fields
import Menagerie.Proofs.Tiling

/-! # A record by itself

A declaration is encoded with the help of a directory, and any directory will do: its offsets need
not be those of a layout, nor lie apart, nor be offsets of records at all. `Record.alone` views the
record made this way without the rest of an image, from address 0 on.

* `Record.Headed` -- the header, as it can be read off the first words of the record;
  **every record with one field for each slot is headed** (`headed_ofFields`);
* `Record.field?_alone` -- **every field is read back**, whatever it holds;
* `Record.lone_records_read_back` -- **a declaration is encoded exactly when its texts fit and its
  references lead to names the directory has, and its record alone says what it was made from**.
-/

namespace Menagerie

/-! ## 1. References into a directory -/

/-- A directory has this offset for the species of an instance. -/
def Graph.SpeciesAt (g : Graph) (animals : Directory) (i : Instance) (o : Offset) : Prop :=
  ∃ a, g.animal? i.species = some a ∧ animals.get? a.name = some o

/-- A directory has this offset for an instance that a world lists. -/
def Graph.MemberAt (g : Graph) (instances : Directory) (m : Ref .inst) (o : Offset) : Prop :=
  ∃ i, g.inst? m = some i ∧ instances.get? i.name = some o

theorem Graph.speciesAt_unique {g : Graph} {animals : Directory} {i : Instance} {o p : Offset}
    (ho : g.SpeciesAt animals i o) (hp : g.SpeciesAt animals i p) : o = p := by
  obtain ⟨a, ha, ho⟩ := ho
  obtain ⟨b, hb, hp⟩ := hp
  cases ha.symm.trans hb
  exact Option.some.inj (ho.symm.trans hp)

theorem Graph.memberAt_unique {g : Graph} {instances : Directory} :
    Relator.RightUnique (g.MemberAt instances) := by
  intro m o p ho hp
  obtain ⟨i, hi, ho⟩ := ho
  obtain ⟨j, hj, hp⟩ := hp
  cases hi.symm.trans hj
  exact Option.some.inj (ho.symm.trans hp)

namespace Record

/-! ## 2. Records alone -/

/-- A record by itself, from address 0 on. -/
def alone (r : Record) : View := ⟨r.bytes, #[⟨r.kind, ⟨0⟩, r.len⟩]⟩

section

variable {kind : RecordKind} {fields : List Bytes} (hl : fields.length = kind.slots)
  (hs : (ofFields kind fields).bytes.size < 2 ^ 32)

include hl hs

theorem laid_alone :
    (ofFields kind fields).alone.Laid ⟨kind, ⟨0⟩, (ofFields kind fields).len⟩ fields := by
  have hone : Increasing (ofFields kind fields).alone.spans := List.pairwise_singleton _ _
  have hstop : (⟨kind, ⟨0⟩, (ofFields kind fields).len⟩ : Span).stop =
      (ofFields kind fields).bytes.size := by
    rw [Span.stop, toNat_len hs]
    exact Nat.zero_add _
  exact
    { found := (View.spanAt?_eq_some_iff hone).mpr ⟨Array.mem_singleton.mpr rfl, rfl⟩
      length := hl
      header := fun i hi => by
        rw [← word?_header kind (hl.symm ▸ hi)]
        exact congrArg _ (Nat.zero_add _)
      len_eq := (toNat_len hs).trans (size_ofFields kind fields)
      inside := Nat.le_of_eq hstop
      bounded := hstop.symm ▸ hs }

/-- **Every field of a record alone is read back.** -/
theorem field?_alone {i : Nat} {f : Bytes} (hf : fields[i]? = some f) :
    (ofFields kind fields).alone.field? ⟨0⟩ i = some f := by
  refine (laid_alone hl hs).field?_of_holds hf ?_
  have hzero : (⟨0⟩ : Offset).toNat + start fields i = start fields i := Nat.zero_add _
  rw [hzero]
  exact holds_field kind hf

theorem startsRecord_alone : (ofFields kind fields).alone.startsRecord ⟨0⟩ kind = true :=
  (laid_alone hl hs).startsRecord_eq

theorem text?_alone {i : Nat} {t : String} (ht : Bytes.Fits t)
    (hf : fields[i]? = some (Bytes.codes t)) :
    (ofFields kind fields).alone.text? ⟨0⟩ i = some t :=
  View.text?_of_field? (field?_alone hl hs hf) ht

theorem reference?_alone {i : Nat} {o : Offset} (hf : fields[i]? = some (ofWord o.word)) :
    (ofFields kind fields).alone.reference? ⟨0⟩ i = some o :=
  View.reference?_of_field? (field?_alone hl hs hf)

end

/-! ## 3. Headers -/

/-- The first words of a record are its header: the start of each field, beginning right behind the
header, never decreasing and never beyond the end of the record. -/
structure Headed (r : Record) (kind : RecordKind) : Prop where
  kind_eq : r.kind = kind
  read : (List.range kind.slots).map (fun k => r.bytes.word? (4 * k)) = r.header.map some
  ascending : r.header.Pairwise (· ≤ ·)
  first : r.header.head? = some (UInt32.ofNat (4 * kind.slots))
  within : ∀ w ∈ r.header, w.toNat ≤ r.bytes.size

theorem header_ofFields (kind : RecordKind) (fields : List Bytes) :
    (ofFields kind fields).header =
      (List.range fields.length).map fun k => UInt32.ofNat (start fields k) := by
  apply List.ext_getElem?
  intro k
  by_cases hk : k < fields.length
  · rw [getElem?_header kind hk, List.getElem?_map, List.getElem?_range hk, Option.map_some]
  · rw [List.getElem?_eq_none, List.getElem?_eq_none]
    · simpa using hk
    · simpa [ofFields] using hk

/-- **A record with one field for each slot is headed.** -/
theorem headed_ofFields {kind : RecordKind} {fields : List Bytes} (hl : fields.length = kind.slots)
    (hs : (ofFields kind fields).bytes.size < 2 ^ 32) : (ofFields kind fields).Headed kind := by
  -- no start is too large for a header word, since the record is not
  have hword : ∀ k ∈ List.range fields.length,
      (UInt32.ofNat (start fields k)).toNat = start fields k := fun k hk =>
    (laid_alone hl hs).toNat_start (hl ▸ Nat.le_of_lt (List.mem_range.mp hk))
  refine ⟨rfl, ?_, ?_, ?_, ?_⟩
  · rw [header_ofFields, List.map_map, hl]
    refine List.map_congr_left fun k hk => ?_
    exact word?_header kind (hl.symm ▸ List.mem_range.mp hk)
  · rw [header_ofFields, List.pairwise_map]
    refine List.pairwise_lt_range.imp_of_mem fun {j k} hj hk hjk => ?_
    rw [UInt32.le_iff_toNat_le, hword j hj, hword k hk]
    exact start_mono (Nat.le_of_lt hjk)
  · rw [List.head?_eq_getElem?, getElem?_header kind (hl ▸ kind.slots_pos), ← hl]
    simp [start]
  · intro w hw
    rw [header_ofFields, List.mem_map] at hw
    obtain ⟨k, hk, rfl⟩ := hw
    rw [hword k hk, size_ofFields]
    exact start_mono (Nat.le_of_lt (List.mem_range.mp hk))

/-! ## 4. The three kinds -/

variable {g : Graph} {r : Record}

theorem exists_ofAnimal_iff {a : Animal} :
    (∃ r, ofAnimal a = .ok r) ↔ Bytes.Fits a.gene ∧ Bytes.Fits a.name ∧ Bytes.Fits a.sound := by
  simp only [ofAnimal_eq_ok_iff, exists_and_left, exists_eq, and_true]

theorem animal?_alone {a : Animal} (h : ofAnimal a = .ok r) (hs : r.bytes.size < 2 ^ 32) :
    r.Headed .animal ∧ r.alone.animal? ⟨0⟩ = some a := by
  obtain ⟨⟨hg, hn, hv⟩, rfl⟩ := ofAnimal_eq_ok_iff.mp h
  exact ⟨headed_ofFields rfl hs, View.animal?_eq_some (startsRecord_alone rfl hs)
    (text?_alone rfl hs hg rfl) (text?_alone rfl hs hn rfl) (text?_alone rfl hs hv rfl)⟩

theorem exists_ofInst_iff {animals : Directory} {i : Instance} :
    (∃ r, ofInst g animals i = .ok r) ↔ Bytes.Fits i.name ∧ ∃ o, g.SpeciesAt animals i o := by
  refine ⟨fun h => ?_, fun h => ?_⟩
  · obtain ⟨r, h⟩ := h
    obtain ⟨a, o, ha, ho, hn, -⟩ := ofInst_eq_ok_iff.mp h
    exact ⟨hn, o, a, ha, ho⟩
  · obtain ⟨hn, o, a, ha, ho⟩ := h
    exact ⟨_, ofInst_eq_ok_iff.mpr ⟨a, o, ha, ho, hn, rfl⟩⟩

theorem inst?_alone {animals : Directory} {i : Instance} (h : ofInst g animals i = .ok r)
    (hs : r.bytes.size < 2 ^ 32) :
    r.Headed .inst ∧ ∃ o, g.SpeciesAt animals i o ∧
      r.alone.inst? ⟨0⟩ = some ⟨i.name, o, .unset⟩ := by
  obtain ⟨a, o, ha, ho, hn, rfl⟩ := ofInst_eq_ok_iff.mp h
  exact ⟨headed_ofFields rfl hs, o, ⟨a, ha, ho⟩, View.inst?_eq_some (startsRecord_alone rfl hs)
    (text?_alone rfl hs hn rfl) (reference?_alone rfl hs rfl) (reference?_alone rfl hs rfl)⟩

theorem exists_ofWorld_iff {instances : Directory} {w : World} :
    (∃ r, ofWorld g instances w = .ok r) ↔
      Bytes.Fits w.name ∧ ∀ m ∈ w.contains, ∃ o, g.MemberAt instances m o := by
  refine ⟨fun h => ?_, fun h => ?_⟩
  · obtain ⟨r, h⟩ := h
    obtain ⟨os, hos, hn, -⟩ := ofWorld_eq_ok_iff.mp h
    refine ⟨hn, fun m hm => ?_⟩
    obtain ⟨o, -, ho⟩ := forall₂_of_mem_left hos hm
    exact ⟨o, memberOffset_eq_ok_iff.mp ho⟩
  · obtain ⟨hn, hm⟩ := h
    obtain ⟨os, hos⟩ := exists_forall₂ hm
    have hos' : List.Forall₂ (fun m o => memberOffset g instances w.name m = .ok o) w.contains os :=
      hos.imp fun _ _ => memberOffset_eq_ok_iff.mpr
    exact ⟨_, ofWorld_eq_ok_iff.mpr ⟨os, hos', hn, rfl⟩⟩

theorem world?_alone {instances : Directory} {w : World} (h : ofWorld g instances w = .ok r)
    (hs : r.bytes.size < 2 ^ 32) :
    r.Headed .world ∧ ∃ os, List.Forall₂ (g.MemberAt instances) w.contains os ∧
      r.alone.world? ⟨0⟩ = some ⟨w.name, os⟩ := by
  obtain ⟨os, hos, hn, rfl⟩ := ofWorld_eq_ok_iff.mp h
  exact ⟨headed_ofFields rfl hs, os, hos.imp fun _ _ => memberOffset_eq_ok_iff.mp,
    View.world?_eq_some (startsRecord_alone rfl hs) (text?_alone rfl hs hn rfl)
      (field?_alone rfl hs rfl)⟩

/-- **A declaration is encoded exactly when its texts fit and its references lead to names that the
directory has.** The record alone then reads as the declaration, with the offsets that the directory
has for the names, in the order of the references. -/
theorem lone_records_read_back (g : Graph) :
    (∀ a : Animal,
      ((∃ r, ofAnimal a = .ok r) ↔
        Bytes.Fits a.gene ∧ Bytes.Fits a.name ∧ Bytes.Fits a.sound) ∧
      ∀ r, ofAnimal a = .ok r → r.bytes.size < 2 ^ 32 →
        r.Headed .animal ∧ r.alone.animal? ⟨0⟩ = some a) ∧
    (∀ (animals : Directory) (i : Instance),
      ((∃ r, ofInst g animals i = .ok r) ↔
        Bytes.Fits i.name ∧ ∃ o, g.SpeciesAt animals i o) ∧
      ∀ r, ofInst g animals i = .ok r → r.bytes.size < 2 ^ 32 →
        r.Headed .inst ∧ ∃ o, g.SpeciesAt animals i o ∧
          r.alone.inst? ⟨0⟩ = some ⟨i.name, o, .unset⟩) ∧
    (∀ (instances : Directory) (w : World),
      ((∃ r, ofWorld g instances w = .ok r) ↔
        Bytes.Fits w.name ∧ ∀ m ∈ w.contains, ∃ o, g.MemberAt instances m o) ∧
      ∀ r, ofWorld g instances w = .ok r → r.bytes.size < 2 ^ 32 →
        r.Headed .world ∧ ∃ os, List.Forall₂ (g.MemberAt instances) w.contains os ∧
          r.alone.world? ⟨0⟩ = some ⟨w.name, os⟩) :=
  ⟨fun _ => ⟨exists_ofAnimal_iff, fun _ => animal?_alone⟩,
    fun _ _ => ⟨exists_ofInst_iff, fun _ => inst?_alone⟩,
    fun _ _ => ⟨exists_ofWorld_iff, fun _ => world?_alone⟩⟩

/-- The second of two cats cannot be encoded itself, but an instance of it can: the directory has an
offset for its name, although one at which no record can start. A world may list an instance twice. -/
theorem lone_records_of_twinCats :
    (¬ ∃ r, ofAnimal ⟨"cat", "", "☃"⟩ = .ok r) ∧
    (∃ r, ofInst Sample.twinCats (.ofList .animal [("cat", .unset)]) ⟨"", ⟨1⟩⟩ = .ok r ∧
      r.bytes.size < 2 ^ 32 ∧ r.Headed .inst ∧
      r.alone.inst? ⟨0⟩ = some ⟨"", .unset, .unset⟩) ∧
    ∃ r, ofWorld Sample.twinCats (.ofList .inst [("i1", ⟨7⟩)]) ⟨"w", [⟨0⟩, ⟨0⟩]⟩ = .ok r ∧
      r.bytes.size < 2 ^ 32 ∧ r.Headed .world ∧
      r.alone.world? ⟨0⟩ = some ⟨"w", [⟨7⟩, ⟨7⟩]⟩ := by
  obtain ⟨hanimal, hinst, hworld⟩ := lone_records_read_back Sample.twinCats
  have hcat : Sample.twinCats.SpeciesAt (.ofList .animal [("cat", .unset)]) ⟨"", ⟨1⟩⟩ .unset :=
    ⟨_, rfl, by decide +kernel⟩
  have hi1 : Sample.twinCats.MemberAt (.ofList .inst [("i1", ⟨7⟩)]) ⟨0⟩ ⟨7⟩ :=
    ⟨_, rfl, by decide +kernel⟩
  have hlist : List.Forall₂ (Sample.twinCats.MemberAt (.ofList .inst [("i1", ⟨7⟩)]))
      [⟨0⟩, ⟨0⟩] [⟨7⟩, ⟨7⟩] := .cons hi1 (.cons hi1 .nil)
  refine ⟨fun h => absurd ((hanimal _).1.mp h) (by decide), ?_, ?_⟩
  · obtain ⟨r, hr⟩ := (hinst _ _).1.mpr ⟨by decide, _, hcat⟩
    have hsize : r.bytes.size < 2 ^ 32 := size_of_ofInst hr ▸ by decide
    obtain ⟨hhead, o, ho, hread⟩ := (hinst _ _).2 r hr hsize
    cases Graph.speciesAt_unique ho hcat
    exact ⟨r, hr, hsize, hhead, hread⟩
  · obtain ⟨r, hr⟩ := (hworld (.ofList .inst [("i1", ⟨7⟩)]) ⟨"w", [⟨0⟩, ⟨0⟩]⟩).1.mpr
      ⟨by decide, fun _ hm => (forall₂_of_mem_left hlist hm).imp fun _ ho => ho.2⟩
    have hsize : r.bytes.size < 2 ^ 32 := size_of_ofWorld hr ▸ by decide
    obtain ⟨hhead, os, hos, hread⟩ := (hworld _ _).2 r hr hsize
    cases List.right_unique_forall₂' Graph.memberAt_unique hos hlist
    exact ⟨r, hr, hsize, hhead, hread⟩

end Record

end Menagerie
