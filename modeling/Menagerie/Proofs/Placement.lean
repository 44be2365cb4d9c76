import Menagerie.Proofs.Faults
import Menagerie.Proofs.Tiling

/-! # What a finished layout says about its graph

* `Graph.Sized` -- every record of the graph is shorter than `2 ^ 32` bytes, so that its length can
  be kept in a word;
* `Layout.Rows` -- a layout is three rows of records, with the names of each kind beside its row
  (`ofGraph_rows`);
* `Layout.Encodes` -- the record that a declaration is encoded to;
* `Layout.Sound` -- what the rest of the theory uses: **records do not overlap, each is the encoding
  of its declaration, and the directories lead from names to records and back**
  (`sound_of_ofGraph`).
-/

namespace Menagerie

/-- **Every record of the graph is shorter than `2 ^ 32` bytes**, whatever the offsets in it. -/
structure Graph.Sized (g : Graph) : Prop where
  animals : ∀ a ∈ g.animals, ∀ r, Record.ofAnimal a = .ok r → r.bytes.size < 2 ^ 32
  instances : ∀ i ∈ g.instances, ∀ d r, Record.ofInst g d i = .ok r → r.bytes.size < 2 ^ 32
  worlds : ∀ w ∈ g.worlds, ∀ d r, Record.ofWorld g d w = .ok r → r.bytes.size < 2 ^ 32

theorem Graph.sized_of_footprints {g : Graph} (ha : ∀ a ∈ g.animals, a.footprint < 2 ^ 32)
    (hi : ∀ i ∈ g.instances, i.footprint < 2 ^ 32) (hw : ∀ w ∈ g.worlds, w.footprint < 2 ^ 32) :
    g.Sized := by
  refine ⟨fun a h r hr => ?_, fun i h d r hr => ?_, fun w h d r hr => ?_⟩
  · rw [Record.size_of_ofAnimal hr]
    exact ha a h
  · rw [Record.size_of_ofInst hr]
    exact hi i h
  · rw [Record.size_of_ofWorld hr]
    exact hw w h

/-- A directory lists names with the offsets of a row of records. -/
structure Directory.Lists (d : Directory) (names : List String) (ps : List Placed) : Prop where
  length : names.length = ps.length
  entries : d.toList = names.zip (ps.map (·.offset))

namespace Directory.Lists

variable {d : Directory} {names : List String} {ps : List Placed}

theorem keys (h : d.Lists names ps) : d.keys = names := by
  rw [Directory.keys, h.entries, List.map_fst_zip (by simp [h.length])]

theorem nodup (h : d.Lists names ps) : names.Nodup := h.keys ▸ d.nodup_keys

/-- **A name leads to the record at its position, and nothing else leads anywhere.** -/
theorem get?_eq_some_iff (h : d.Lists names ps) {name : String} {o : Offset} :
    d.get? name = some o ↔
      ∃ (n : Nat) (p : Placed), names[n]? = some name ∧ ps[n]? = some p ∧ p.offset = o := by
  rw [Directory.get?_eq_some_iff, h.entries, List.mem_iff_getElem?]
  simp only [List.getElem?_zip_eq_some, List.getElem?_map, Option.map_eq_some_iff]
  constructor
  · rintro ⟨n, hn, p, hp, rfl⟩
    exact ⟨n, p, hn, hp, rfl⟩
  · rintro ⟨n, p, hn, hp, rfl⟩
    exact ⟨n, hn, p, hp, rfl⟩

end Directory.Lists

namespace Layout

/-! ## 1. Three rows -/

theorem pass_row {α : Type} {limit next : Nat} {kind : RecordKind} {name : α → String}
    {encode : α → Except CompileError Record} {items : List α} {records : Array Placed} {p : Progress}
    (hn : next ≤ limit) (h : (pass limit kind name encode items records next).result = .ok p) :
    ∃ rs, List.Forall₂ (fun x r => encode x = .ok r) items rs ∧
      p.names.Lists (items.map name) (Placed.row 0 next rs) ∧
      p.records.toList = records.toList ++ Placed.row 0 next rs ∧
      p.next = next + Placed.total rs ∧ p.next ≤ limit := by
  rw [pass_eq] at h
  obtain ⟨rs, hrs, hadd, hl⟩ := foldl_adds hn h
  have hlen : (items.map name).length = rs.length := by rw [List.length_map, hrs.length_eq]
  exact ⟨rs, hrs, ⟨by rw [hlen, Placed.length_row], hadd.names⟩, hadd.records, hadd.next, hl⟩

theorem pass_succeeds {α : Type} {limit next : Nat} (kind : RecordKind) {name : α → String}
    {encode : α → Except CompileError Record} {items : List α} {rs : List Record}
    (records : Array Placed) (hr : List.Forall₂ (fun x r => encode x = .ok r) items rs)
    (hn : (items.map name).Nodup) (hl : next + Placed.total rs ≤ limit) :
    ∃ p, (pass limit kind name encode items records next).result = .ok p := by
  rw [pass_eq]
  exact foldl_succeeds hr hn hl

/-- The directory of a kind. -/
def directory (l : Layout) : RecordKind → Directory
  | .animal => l.animals
  | .inst => l.instances
  | .world => l.worlds

/-- The row of a kind, given the records of all three: animals, then instances, then worlds. -/
def rowOf (as is ws : List Record) : RecordKind → List Placed
  | .animal => Placed.row 0 0 as
  | .inst => Placed.row 0 (Placed.total as) is
  | .world => Placed.row 0 (Placed.total as + Placed.total is) ws

/-- The three rows of records that a layout of a graph is made of. -/
structure Rows (g : Graph) (l : Layout) (as is ws : List Record) : Prop where
  animals : List.Forall₂ (fun a r => Record.ofAnimal a = .ok r) g.animals.toList as
  instances : List.Forall₂ (fun i r => Record.ofInst g l.animals i = .ok r) g.instances.toList is
  worlds : List.Forall₂ (fun w r => Record.ofWorld g l.instances w = .ok r) g.worlds.toList ws
  lists : ∀ k, (l.directory k).Lists (g.names k) (rowOf as is ws k)
  records : l.records.toList = rowOf as is ws .animal ++ rowOf as is ws .inst ++ rowOf as is ws .world
  total : l.total = Placed.total as + Placed.total is + Placed.total ws

/-- **A finished layout is three rows of records**, and fits below the limit. -/
theorem ofGraph_rows {c : ImageConfig} {g : Graph} {l : Layout} (h : (ofGraph c g).result = .ok l) :
    (∃ as is ws, l.Rows g as is ws) ∧ l.total ≤ c.limit := by
  simp only [ofGraph, Traced.result_bind_eq_ok_iff] at h
  obtain ⟨a, ha, i, hi, w, hw, h⟩ := h
  cases h
  obtain ⟨as, has, hal, har, han, hac⟩ := pass_row (Nat.zero_le _) ha
  obtain ⟨is, his, hil, hir, hin, hic⟩ := pass_row hac hi
  obtain ⟨ws, hws, hwl, hwr, hwn, hwc⟩ := pass_row hic hw
  rw [Nat.zero_add] at han
  rw [han] at hil hir hin
  rw [hin] at hwl hwr hwn
  refine ⟨⟨as, is, ws, has, his, hws, fun k => ?_, ?_, hwn⟩, hwc⟩
  · cases k with
    | animal => exact hal
    | inst => exact hil
    | world => exact hwl
  · show w.records.toList = _
    rw [hwr, hir, har]
    rfl

theorem total_lt_of_ofGraph {c : ImageConfig} {g : Graph} {l : Layout}
    (h : (ofGraph c g).result = .ok l) : l.total < 2 ^ 32 := by
  have hl := (ofGraph_rows h).2
  have hlimit : c.limit ≤ 2 ^ 32 - 1 := Nat.min_le_right _ _
  omega

/-! ## 2. Declarations and their records -/

/-- The record that the declaration of a kind at a position is encoded to, given the places of the
records it refers to. -/
inductive Encodes (g : Graph) (l : Layout) : RecordKind → Nat → Record → Prop where
  | animal {n : Nat} {a : Animal} {r : Record} (ha : g.animals[n]? = some a)
      (hr : Record.ofAnimal a = .ok r) : Encodes g l .animal n r
  | inst {n : Nat} {i : Instance} {r : Record} (hi : g.instances[n]? = some i)
      (hr : Record.ofInst g l.animals i = .ok r) : Encodes g l .inst n r
  | world {n : Nat} {w : World} {r : Record} (hw : g.worlds[n]? = some w)
      (hr : Record.ofWorld g l.instances w = .ok r) : Encodes g l .world n r

namespace Encodes

variable {g : Graph} {l : Layout} {k : RecordKind} {n : Nat} {r : Record}

/-- An encoded declaration has one field for each slot of its kind. -/
theorem fields (h : Encodes g l k n r) :
    ∃ fields, r = Record.ofFields k fields ∧ fields.length = k.slots := by
  cases h with
  | animal ha hr =>
    obtain ⟨-, rfl⟩ := Record.ofAnimal_eq_ok_iff.mp hr
    exact ⟨_, rfl, rfl⟩
  | inst hi hr =>
    obtain ⟨a, o, -, -, -, rfl⟩ := Record.ofInst_eq_ok_iff.mp hr
    exact ⟨_, rfl, rfl⟩
  | world hw hr =>
    obtain ⟨os, -, -, rfl⟩ := Record.ofWorld_eq_ok_iff.mp hr
    exact ⟨_, rfl, rfl⟩

theorem kind_eq (h : Encodes g l k n r) : r.kind = k := by
  obtain ⟨fields, rfl, -⟩ := h.fields
  rfl

theorem exists_name (h : Encodes g l k n r) : ∃ name, g.name? k n = some name := by
  cases h with
  | animal ha hr => exact ⟨_, Graph.name?_animal ha⟩
  | inst hi hr => exact ⟨_, Graph.name?_inst hi⟩
  | world hw hr => exact ⟨_, Graph.name?_world hw⟩

theorem small (hs : g.Sized) (h : Encodes g l k n r) : r.bytes.size < 2 ^ 32 := by
  cases h with
  | animal ha hr => exact hs.animals _ (Array.mem_of_getElem? ha) r hr
  | inst hi hr => exact hs.instances _ (Array.mem_of_getElem? hi) _ r hr
  | world hw hr => exact hs.worlds _ (Array.mem_of_getElem? hw) _ r hr

end Encodes

/-! ## 3. Sound layouts -/

/-- What holds of a finished layout of a graph. -/
structure Sound (g : Graph) (l : Layout) : Prop where
  /-- The records follow each other without gaps and fill the bytes. -/
  tiles : Placed.Tiles 0 l.records.toList l.bytes.size
  /-- Every address up to the end is an offset, and none is the mark `unset`. -/
  bounded : l.bytes.size < 2 ^ 32
  small : ∀ p ∈ l.records, p.record.bytes.size < 2 ^ 32
  encodes : ∀ p ∈ l.records, Encodes g l p.record.kind p.index p.record
  /-- Every declaration has a record. -/
  placed : ∀ k n name, g.name? k n = some name → ∃ p ∈ l.records, p.record.kind = k ∧ p.index = n
  /-- A name leads to the record of the declaration it belongs to, and nowhere else. -/
  named : ∀ k name o, (l.directory k).get? name = some o ↔
    ∃ p ∈ l.records, p.record.kind = k ∧ p.offset = o ∧ g.name? k p.index = some name
  /-- The names of a kind are entered in the order of declaration. -/
  names : ∀ k, (l.directory k).keys = g.names k
  /-- The worlds are entered with the offsets of their records. -/
  worlds : l.worldOffsets = l.worlds.toList.map (·.2)

section Rows

variable {g : Graph} {l : Layout} {as is ws : List Record}

theorem Rows.mem_records (h : l.Rows g as is ws) {p : Placed} :
    p ∈ l.records ↔ ∃ k, p ∈ rowOf as is ws k := by
  rw [← Array.mem_toList_iff, h.records, List.mem_append, List.mem_append]
  constructor
  · rintro ((hp | hp) | hp)
    · exact ⟨_, hp⟩
    · exact ⟨_, hp⟩
    · exact ⟨_, hp⟩
  · rintro ⟨k, hp⟩
    cases k with
    | animal => exact .inl (.inl hp)
    | inst => exact .inl (.inr hp)
    | world => exact .inr hp

/-- **A row holds the encodings of the declarations of its kind**, each at its own position. -/
theorem Rows.of_getElem? (h : l.Rows g as is ws) {k : RecordKind} {n : Nat} {p : Placed}
    (hp : (rowOf as is ws k)[n]? = some p) : Encodes g l k n p.record ∧ p.index = n := by
  cases k with
  | animal =>
    obtain ⟨hr, hi⟩ := Placed.of_getElem?_row hp
    obtain ⟨a, ha, he⟩ := forall₂_getElem?_right h.animals hr
    exact ⟨.animal (by simpa using ha) he, hi.trans (Nat.zero_add n)⟩
  | inst =>
    obtain ⟨hr, hi⟩ := Placed.of_getElem?_row hp
    obtain ⟨i, hi', he⟩ := forall₂_getElem?_right h.instances hr
    exact ⟨.inst (by simpa using hi') he, hi.trans (Nat.zero_add n)⟩
  | world =>
    obtain ⟨hr, hi⟩ := Placed.of_getElem?_row hp
    obtain ⟨w, hw, he⟩ := forall₂_getElem?_right h.worlds hr
    exact ⟨.world (by simpa using hw) he, hi.trans (Nat.zero_add n)⟩

theorem Rows.kind_of_mem (h : l.Rows g as is ws) {k : RecordKind} {p : Placed}
    (hp : p ∈ rowOf as is ws k) : p.record.kind = k := by
  obtain ⟨n, hn⟩ := List.mem_iff_getElem?.mp hp
  exact (h.of_getElem? hn).1.kind_eq

/-- **The records of a kind are its row.** -/
theorem Rows.filter_kind (h : l.Rows g as is ws) (k : RecordKind) :
    l.records.toList.filter (·.record.kind = k) = rowOf as is ws k := by
  have hrow : ∀ k', (rowOf as is ws k').filter (·.record.kind = k) =
      if k' = k then rowOf as is ws k' else [] := by
    intro k'
    by_cases hk : k' = k
    · rw [if_pos hk, List.filter_eq_self]
      intro p hp
      rw [h.kind_of_mem hp, hk, decide_eq_true rfl]
    · rw [if_neg hk, List.filter_eq_nil_iff]
      intro p hp
      rw [h.kind_of_mem hp, decide_eq_true_eq]
      exact hk
  rw [h.records, List.filter_append, List.filter_append, hrow, hrow, hrow]
  cases k <;> simp

/-- **The worlds are entered with the offsets of their records**, in order. -/
theorem Rows.worldOffsets_eq (h : l.Rows g as is ws) : l.worldOffsets = l.worlds.toList.map (·.2) := by
  have hlists : l.worlds.Lists (g.names .world) (rowOf as is ws .world) := h.lists .world
  rw [worldOffsets, h.filter_kind, hlists.entries,
    List.map_snd_zip (by rw [List.length_map, hlists.length])]

/-- A record lies in the row of its kind, at its own position. -/
theorem Rows.getElem?_row (h : l.Rows g as is ws) {p : Placed} (hp : p ∈ l.records) :
    (rowOf as is ws p.record.kind)[p.index]? = some p := by
  obtain ⟨k, hp⟩ := h.mem_records.mp hp
  obtain ⟨n, hn⟩ := List.mem_iff_getElem?.mp hp
  obtain ⟨he, hi⟩ := h.of_getElem? hn
  rw [he.kind_eq, hi, hn]

theorem Rows.encodes (h : l.Rows g as is ws) {p : Placed} (hp : p ∈ l.records) :
    Encodes g l p.record.kind p.index p.record :=
  (h.of_getElem? (h.getElem?_row hp)).1

/-- **A name leads to the record of the declaration it belongs to.** -/
theorem Rows.get?_eq_some_iff (h : l.Rows g as is ws) {k : RecordKind} {name : String} {o : Offset} :
    (l.directory k).get? name = some o ↔
      ∃ p ∈ l.records, p.record.kind = k ∧ p.offset = o ∧ g.name? k p.index = some name := by
  rw [(h.lists k).get?_eq_some_iff]
  simp only [Graph.getElem?_names]
  constructor
  · rintro ⟨n, p, hn, hp, ho⟩
    obtain ⟨he, hi⟩ := h.of_getElem? hp
    exact ⟨p, h.mem_records.mpr ⟨k, List.mem_of_getElem? hp⟩, he.kind_eq, ho, by rw [hi, hn]⟩
  · rintro ⟨p, hp, rfl, ho, hn⟩
    exact ⟨p.index, p, hn, h.getElem?_row hp, ho⟩

/-- Every declaration has a record. -/
theorem Rows.exists_record (h : l.Rows g as is ws) {k : RecordKind} {n : Nat} {name : String}
    (hn : g.name? k n = some name) : ∃ p ∈ l.records, p.record.kind = k ∧ p.index = n := by
  rw [← Graph.getElem?_names] at hn
  have hlt := (List.getElem?_eq_some_iff.mp hn).1
  rw [(h.lists k).length] at hlt
  have hp := List.getElem?_eq_getElem hlt
  obtain ⟨he, hi⟩ := h.of_getElem? hp
  exact ⟨_, h.mem_records.mpr ⟨k, List.mem_of_getElem? hp⟩, he.kind_eq, hi⟩

/-- **The spans of a layout lie end to end**, from 0 to its total. -/
theorem Rows.tiles_spans (h : l.Rows g as is ws) (hl : l.total < 2 ^ 32) :
    Span.Tiles 0 (l.records.toList.map Placed.span) l.total := by
  rw [h.total] at hl ⊢
  have ha : Span.Tiles 0 ((rowOf as is ws .animal).map Placed.span) (0 + Placed.total as) :=
    Placed.tiles_spans_row (by omega)
  rw [Nat.zero_add] at ha
  have hi : Span.Tiles (Placed.total as) ((rowOf as is ws .inst).map Placed.span)
      (Placed.total as + Placed.total is) := Placed.tiles_spans_row (by omega)
  have hw : Span.Tiles (Placed.total as + Placed.total is) ((rowOf as is ws .world).map Placed.span)
      (Placed.total as + Placed.total is + Placed.total ws) := Placed.tiles_spans_row hl
  rw [h.records, List.map_append, List.map_append]
  exact (ha.append hi).append hw

theorem Rows.tiles (hs : g.Sized) (h : l.Rows g as is ws) (hl : l.total < 2 ^ 32) :
    Placed.Tiles 0 l.records.toList l.total := by
  refine Placed.tiles_of_spans (fun p hp => ?_) (h.tiles_spans hl)
  exact (h.encodes (Array.mem_toList_iff.mp hp)).small hs

end Rows

theorem bytes_eq_copy (l : Layout) :
    l.bytes = Placed.copy (Array.replicate l.total 0) l.records.toList := by
  rw [bytes, Placed.copy, Array.foldl_toList]

/-- Copying changes no length, so there are as many bytes as the layout counted. -/
@[simp] theorem size_bytes (l : Layout) : l.bytes.size = l.total := by
  rw [bytes_eq_copy, Placed.size_copy, Array.size_replicate]

/-- **The bytes of records that fill the image are the records end to end.** -/
theorem bytes_eq_append {l : Layout} (h : Placed.Tiles 0 l.records.toList l.total) :
    l.bytes = Placed.append #[] l.records.toList := by
  have hzeros : (#[] : Bytes) ++ (List.replicate l.total 0).toArray = Array.replicate l.total 0 := by
    rw [Array.empty_append, List.toArray_replicate]
  rw [bytes_eq_copy, ← hzeros]
  refine Placed.copy_eq_append ?_
  rw [List.length_replicate, Array.size_empty, Nat.zero_add]
  exact h

/-- **A finished layout is sound**, and its bytes are as many as it counted. -/
theorem sound_of_ofGraph {c : ImageConfig} {g : Graph} {l : Layout} (hs : g.Sized)
    (h : (ofGraph c g).result = .ok l) : l.Sound g ∧ l.bytes.size = l.total ∧ l.total ≤ c.limit := by
  obtain ⟨⟨as, is, ws, hr⟩, hl⟩ := ofGraph_rows h
  have hlt := total_lt_of_ofGraph h
  have ht := hr.tiles hs hlt
  have hsize := l.size_bytes
  exact ⟨⟨hsize ▸ ht, hsize ▸ hlt, fun p hp => (hr.encodes hp).small hs, fun p hp => hr.encodes hp,
    fun k n name => hr.exists_record, fun k name o => hr.get?_eq_some_iff, fun k => (hr.lists k).keys,
    hr.worldOffsets_eq⟩, hsize, hl⟩

/-! ## 4. What follows at once -/

namespace Sound

variable {g : Graph} {l : Layout}

/-- **The bytes of the layout are its records end to end.** -/
theorem bytes_eq (h : l.Sound g) : l.bytes = Placed.append #[] l.records.toList :=
  bytes_eq_append (l.size_bytes ▸ h.tiles)

/-- **Each record stands at its offset.** -/
theorem holds (h : l.Sound g) {p : Placed} (hp : p ∈ l.records) :
    Bytes.Holds l.bytes p.record.bytes p.offset.toNat := by
  have ht : Placed.Tiles (#[] : Bytes).size l.records.toList l.bytes.size := h.tiles
  rw [h.bytes_eq]
  exact Placed.holds_append ht (Array.mem_toList_iff.mpr hp)

theorem stop_le (h : l.Sound g) {p : Placed} (hp : p ∈ l.records) : p.stop ≤ l.bytes.size :=
  (h.tiles.bounds (Array.mem_toList_iff.mpr hp)).2

/-- The header of a record and its fields: as many words as the kind has slots, and at least two. -/
theorem header_le (h : l.Sound g) {p : Placed} (hp : p ∈ l.records) :
    4 * p.record.kind.slots ≤ p.record.bytes.size := by
  obtain ⟨fields, hr, hf⟩ := (h.encodes p hp).fields
  have hsize := Record.size_ofFields p.record.kind fields
  rw [← hr] at hsize
  have := Record.header_le_start fields fields.length
  omega

theorem size_pos (h : l.Sound g) {p : Placed} (hp : p ∈ l.records) : 0 < p.record.bytes.size := by
  have := h.header_le hp
  cases hk : p.record.kind <;> rw [hk] at this <;> simp only [RecordKind.slots] at this <;> omega

/-- The offset of a record is never the mark `unset`, which lies beyond every record. -/
theorem offset_ne_unset (h : l.Sound g) {p : Placed} (hp : p ∈ l.records) : p.offset ≠ .unset := by
  intro hu
  have hoff : p.offset.toNat = 2 ^ 32 - 1 := congrArg Offset.toNat hu
  have := h.size_pos hp
  have := h.stop_le hp
  have := h.bounded
  unfold Placed.stop at *
  omega

/-- **Two different records do not overlap.** -/
theorem apart (h : l.Sound g) {p q : Placed} (hp : p ∈ l.records) (hq : q ∈ l.records) (hne : p ≠ q) :
    p.stop ≤ q.offset.toNat ∨ q.stop ≤ p.offset.toNat := by
  have hd := h.tiles.disjoint
  exact List.Pairwise.forall_of_forall_of_flip
    (R := fun p q : Placed => p ≠ q → p.stop ≤ q.offset.toNat ∨ q.stop ≤ p.offset.toNat)
    (fun x _ hx => absurd rfl hx) (hd.imp fun hpq _ => .inl hpq) (hd.imp fun hpq _ => .inr hpq)
    (Array.mem_toList_iff.mpr hp) (Array.mem_toList_iff.mpr hq) hne

theorem eq_of_offset_eq (h : l.Sound g) {p q : Placed} (hp : p ∈ l.records) (hq : q ∈ l.records)
    (ho : p.offset = q.offset) : p = q := by
  by_contra hne
  have := h.size_pos hp
  have := h.size_pos hq
  have := h.apart hp hq hne
  unfold Placed.stop at this
  rw [ho] at this
  omega

/-- **Declarations of one kind have different names.** -/
theorem distinct (h : l.Sound g) {k : RecordKind} {m n : Nat} {name : String}
    (hm : g.name? k m = some name) (hn : g.name? k n = some name) : m = n := by
  rw [← Graph.getElem?_names] at hm hn
  have hlt := (List.getElem?_eq_some_iff.mp hm).1
  have hnodup : (g.names k).Nodup := h.names k ▸ (l.directory k).nodup_keys
  exact (List.getElem?_inj hlt hnodup).mp (hm.trans hn.symm)

/-- A declaration has one record only. -/
theorem eq_of_index_eq (h : l.Sound g) {p q : Placed} (hp : p ∈ l.records) (hq : q ∈ l.records)
    (hk : p.record.kind = q.record.kind) (hi : p.index = q.index) : p = q := by
  obtain ⟨name, hn⟩ := (h.encodes p hp).exists_name
  have hpo := (h.named _ name p.offset).mpr ⟨p, hp, rfl, rfl, hn⟩
  have hqo := (h.named _ name q.offset).mpr ⟨q, hq, hk.symm, rfl, hi ▸ hn⟩
  rw [hpo] at hqo
  exact h.eq_of_offset_eq hp hq (Option.some.inj hqo)

theorem stop_span (h : l.Sound g) {p : Placed} (hp : p ∈ l.records) : p.span.stop = p.stop :=
  Placed.stop_span (h.small p hp)

end Sound

end Layout

end Menagerie
