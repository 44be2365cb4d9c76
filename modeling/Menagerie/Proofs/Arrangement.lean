import Menagerie.Graph.Sample
import Menagerie.Proofs.Placement

/-! # Where the records of a layout lie

* `Graph.order` -- the declarations in the order in which their records are laid out;
* `Layout.Rows.order_eq`, `Layout.Rows.filter_kind` -- **the records come in that order, and those of
  one kind are its row**;
* `Directory.Lists.nth?_eq_some` -- a directory answers a position as it answers the name there;
* `Layout.records_tile_image` -- **the records of a finished layout tile the image**: in order, end to
  end from 0 to the total, each found under its name and under its number, and all of them below the
  limit.
-/

namespace Menagerie

/-- The kind and the number of each declaration, in the order in which records are laid out. -/
def Graph.order (g : Graph) : List (RecordKind × Nat) :=
  RecordKind.passes.flatMap fun k => (List.range (g.names k).length).map fun n => (k, n)

theorem Graph.recordCount_eq (g : Graph) : g.recordCount = g.order.length := by
  simp [recordCount, order, RecordKind.passes, names, Nat.add_assoc]

/-- The entry at a position is the name declared there, with the offset of its record. -/
theorem Directory.Lists.nth?_eq_some {d : Directory} {names : List String} {ps : List Placed}
    (h : d.Lists names ps) {n : Nat} {name : String} {p : Placed} (hn : names[n]? = some name)
    (hp : ps[n]? = some p) : d.nth? n = some (name, p.offset) := by
  rw [Directory.nth?_eq, h.entries, List.getElem?_zip_eq_some, List.getElem?_map, hp]
  exact ⟨hn, rfl⟩

namespace Placed

/-- Records with bytes fill more than nothing. -/
theorem Tiles.eq_nil_iff {a b : Nat} {ps : List Placed} (h : Tiles a ps b)
    (hpos : ∀ p ∈ ps, 0 < p.record.bytes.size) : a = b ↔ ps = [] := by
  cases ps with
  | nil => exact ⟨fun _ => rfl, fun _ => h⟩
  | cons p ps =>
    have hp := hpos p List.mem_cons_self
    have hle := h.2.le
    have hoff := h.1
    unfold stop at hle
    refine ⟨fun hab => ?_, fun hnil => ?_⟩
    · omega
    · cases hnil

end Placed

namespace Layout

section Rows

variable {g : Graph} {l : Layout} {as is ws : List Record}

/-- **A row numbers the declarations of its kind.** -/
theorem Rows.row_order (h : l.Rows g as is ws) (k : RecordKind) :
    ((rowOf as is ws k).map fun p => (p.record.kind, p.index)) =
      (List.range (g.names k).length).map fun n => (k, n) := by
  have hlen := (h.lists k).length
  apply List.ext_getElem?
  intro n
  rw [List.getElem?_map, List.getElem?_map]
  cases hp : (rowOf as is ws k)[n]? with
  | none =>
    have hn := List.getElem?_eq_none_iff.mp hp
    rw [List.getElem?_eq_none (by rw [List.length_range]; omega)]
    rfl
  | some p =>
    obtain ⟨he, hi⟩ := h.of_getElem? hp
    have hn := (List.getElem?_eq_some_iff.mp hp).1
    rw [List.getElem?_range (by omega), Option.map_some, Option.map_some, he.kind_eq, hi]

/-- **Records come in the order of the declarations**, kind after kind. -/
theorem Rows.order_eq (h : l.Rows g as is ws) :
    (l.records.toList.map fun p => (p.record.kind, p.index)) = g.order := by
  rw [h.records, List.map_append, List.map_append, h.row_order, h.row_order, h.row_order, Graph.order,
    RecordKind.passes, List.flatMap_cons, List.flatMap_cons, List.flatMap_cons, List.flatMap_nil,
    List.append_nil, List.append_assoc]

theorem Rows.nth?_eq_some (h : l.Rows g as is ws) {p : Placed} (hp : p ∈ l.records) {name : String}
    (hn : g.name? p.record.kind p.index = some name) :
    (l.directory p.record.kind).nth? p.index = some (name, p.offset) := by
  rw [← Graph.getElem?_names] at hn
  exact (h.lists p.record.kind).nth?_eq_some hn (h.getElem?_row hp)

end Rows

/-- **The records of a finished layout tile the image.** All animals come first, then all instances,
then all worlds, each kind in the order of declaration, each record the encoding of its declaration.
They lie end to end from 0 to the total, which is 0 only for a graph without records. The directory of
a kind lists its names in order, with the offsets of its records, and leads to each of them by its
name and by its number. The total does not exceed the limit, so all lengths and addresses are kept as
they are, and no record lies at the mark `unset`. -/
theorem records_tile_image {c : ImageConfig} {g : Graph} {l : Layout} (hs : g.Sized)
    (h : (ofGraph c g).result = .ok l) :
    (l.records.toList.map fun p => (p.record.kind, p.index)) = g.order ∧
    (∀ p ∈ l.records, Encodes g l p.record.kind p.index p.record) ∧
    Placed.Tiles 0 l.records.toList l.total ∧ (l.total = 0 ↔ g.recordCount = 0) ∧
    (∀ k, (l.directory k).toList =
      (g.names k).zip ((l.records.toList.filter (·.record.kind = k)).map (·.offset))) ∧
    (∀ p ∈ l.records, ∃ name, g.name? p.record.kind p.index = some name ∧
      (l.directory p.record.kind).get? name = some p.offset ∧
      (l.directory p.record.kind).nth? p.index = some (name, p.offset)) ∧
    l.total ≤ c.limit ∧
    ∀ p ∈ l.records, p.record.len.toNat = p.record.bytes.size ∧ p.stop < 2 ^ 32 ∧
      p.offset ≠ .unset := by
  obtain ⟨⟨as, is, ws, hrows⟩, -⟩ := ofGraph_rows h
  obtain ⟨hsound, hsize, hlimit⟩ := sound_of_ofGraph hs h
  have htiles : Placed.Tiles 0 l.records.toList l.total := hsize ▸ hsound.tiles
  have hpos : ∀ p ∈ l.records.toList, 0 < p.record.bytes.size :=
    fun p hp => hsound.size_pos (Array.mem_toList_iff.mp hp)
  refine ⟨hrows.order_eq, hsound.encodes, htiles, ?_, fun k => ?_, fun p hp => ?_, hlimit,
    fun p hp => ⟨Record.toNat_len (hsound.small p hp), ?_, hsound.offset_ne_unset hp⟩⟩
  · rw [eq_comm, htiles.eq_nil_iff hpos, g.recordCount_eq, ← hrows.order_eq, List.length_map,
      List.length_eq_zero_iff]
  · rw [hrows.filter_kind, (hrows.lists k).entries]
  · obtain ⟨name, hn⟩ := (hsound.encodes p hp).exists_name
    exact ⟨name, hn, (hsound.named _ name p.offset).mpr ⟨p, hp, rfl, rfl, hn⟩,
      hrows.nth?_eq_some hp hn⟩
  · have := hsound.stop_le hp
    have := hsound.bounded
    omega

/-- The zoo fills a limit of 240 bytes to the last one. -/
theorem zoo_tiles_240 : Sample.zoo.Sized ∧
    ∃ l, (ofGraph { maxBytes := 240 } Sample.zoo).result = .ok l ∧
      (l.records.toList.map fun p => (p.record.kind, p.index)) =
        [(.animal, 0), (.animal, 1), (.animal, 2), (.inst, 0), (.inst, 1), (.inst, 2), (.inst, 3),
          (.inst, 4), (.world, 0), (.world, 1), (.world, 2)] ∧
      Placed.Tiles 0 l.records.toList l.total ∧ 0 < l.total ∧ l.total ≤ 240 := by
  have hsized : Sample.zoo.Sized := Graph.sized_of_footprints (by decide) (by decide) (by decide)
  have hok : (ofGraph { maxBytes := 240 } Sample.zoo).result.isOk = true := by decide +kernel
  have horder : Sample.zoo.order = [(.animal, 0), (.animal, 1), (.animal, 2), (.inst, 0), (.inst, 1),
    (.inst, 2), (.inst, 3), (.inst, 4), (.world, 0), (.world, 1), (.world, 2)] := by decide
  refine ⟨hsized, ?_⟩
  cases h : (ofGraph { maxBytes := 240 } Sample.zoo).result with
  | error e =>
    rw [h] at hok
    cases hok
  | ok l =>
    obtain ⟨hrecords, -, htiles, hzero, -, -, hlimit, -⟩ := records_tile_image hsized h
    have hpos : l.total ≠ 0 := fun h0 => absurd (hzero.mp h0) (by decide)
    exact ⟨l, rfl, hrecords.trans horder, htiles, Nat.pos_of_ne_zero hpos, hlimit⟩

end Layout

end Menagerie
