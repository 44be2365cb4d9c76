import Menagerie.Proofs.Narrating

/-! # Exactly which graphs are compiled

The checks of a compilation are spread over encoding, naming, the running size, settling, the pages,
the transfers and the walks. Together they accept exactly the graphs one would expect:

* `Graph.Encodable`, `Graph.footprint` -- texts of characters with a byte, and the bytes that the
  records take;
* `Layout.ofGraph_succeeds_iff`, `Image.ofGraph_succeeds_iff` -- which graphs have a layout and an
  image;
* `Graph.finalWorld?_isSome_iff` -- which instances are in a world in the end;
* `Compiler.compile_succeeds_iff` -- **a graph is compiled exactly when it is well formed and
  encodable, fits the image and the pages, and has all its instances in a world**; the image then has
  `Graph.footprint` bytes.
-/

namespace Menagerie

/-! ## 1. Sizes -/

namespace Graph

/-- **The bytes that all records of a graph take.** -/
def footprint (g : Graph) : Nat :=
  (g.animals.toList.map Animal.footprint).sum + (g.instances.toList.map Instance.footprint).sum +
    (g.worlds.toList.map World.footprint).sum

/-- Every text of the graph is made of characters with a byte. -/
structure Encodable (g : Graph) : Prop where
  animals : ∀ a ∈ g.animals, Bytes.Fits a.gene ∧ Bytes.Fits a.name ∧ Bytes.Fits a.sound
  instances : ∀ i ∈ g.instances, Bytes.Fits i.name
  worlds : ∀ w ∈ g.worlds, Bytes.Fits w.name

namespace Sized

variable {g : Graph} {r : Record}

theorem len_animal (hs : g.Sized) {a : Animal} (ha : a ∈ g.animals) (h : Record.ofAnimal a = .ok r) :
    r.len.toNat = a.footprint := by
  rw [Record.toNat_len (hs.animals a ha r h), Record.size_of_ofAnimal h]

theorem len_inst (hs : g.Sized) {i : Instance} (hi : i ∈ g.instances) {d : Directory}
    (h : Record.ofInst g d i = .ok r) : r.len.toNat = i.footprint := by
  rw [Record.toNat_len (hs.instances i hi d r h), Record.size_of_ofInst h]

theorem len_world (hs : g.Sized) {w : World} (hw : w ∈ g.worlds) {d : Directory}
    (h : Record.ofWorld g d w = .ok r) : r.len.toNat = w.footprint := by
  rw [Record.toNat_len (hs.worlds w hw d r h), Record.size_of_ofWorld h]

end Sized

end Graph

/-! ## 2. Records that can be encoded -/

namespace Record

variable {g : Graph} {d : Directory}

theorem ofInst_succeeds (hd : d.keys = g.names .animal) {i : Instance}
    (hspecies : ∃ a, g.animal? i.species = some a) (hi : Bytes.Fits i.name) :
    ∃ r, ofInst g d i = .ok r := by
  obtain ⟨a, ha⟩ := hspecies
  have hmem : a.name ∈ d.keys := by
    rw [hd]
    exact List.mem_map.mpr ⟨a, Array.mem_toList_iff.mpr (Array.mem_of_getElem? ha), rfl⟩
  obtain ⟨o, ho⟩ := Directory.exists_get? hmem
  exact ⟨_, ofInst_eq_ok_iff.mpr ⟨a, o, ha, ho, hi, rfl⟩⟩

theorem memberOffset_succeeds (hd : d.keys = g.names .inst) {r : Ref .inst}
    (hr : ∃ i, g.inst? r = some i) (world : String) : ∃ o, memberOffset g d world r = .ok o := by
  obtain ⟨i, hi⟩ := hr
  have hmem : i.name ∈ d.keys := by
    rw [hd]
    exact List.mem_map.mpr ⟨i, Array.mem_toList_iff.mpr (Array.mem_of_getElem? hi), rfl⟩
  obtain ⟨o, ho⟩ := Directory.exists_get? hmem
  exact ⟨o, memberOffset_eq_ok_iff.mpr ⟨i, hi, ho⟩⟩

theorem ofWorld_succeeds (hd : d.keys = g.names .inst) {w : World}
    (hmembers : ∀ r ∈ w.contains, ∃ i, g.inst? r = some i) (hw : Bytes.Fits w.name) :
    ∃ r, ofWorld g d w = .ok r := by
  obtain ⟨os, hos⟩ := exists_forall₂ fun r hr => memberOffset_succeeds hd (hmembers r hr) w.name
  exact ⟨_, ofWorld_eq_ok_iff.mpr ⟨os, hos, hw, rfl⟩⟩

end Record

/-! ## 3. Layouts -/

namespace Layout

section Sizes

variable {α : Type} {encode : α → Except CompileError Record} {items : List α} {f : α → Nat}

/-- The size of a row is the sum of the sizes of its records. -/
theorem total_eq_sum (hf : ∀ x ∈ items, ∀ r, encode x = .ok r → r.len.toNat = f x) {rs : List Record}
    (h : List.Forall₂ (fun x r => encode x = .ok r) items rs) :
    Placed.total rs = (items.map f).sum := by
  induction h with
  | nil => rfl
  | @cons x r items rs hx _ ih =>
    obtain ⟨hfx, hfs⟩ := List.forall_mem_cons.mp hf
    rw [Placed.total_cons, hfx r hx, ih hfs, List.map_cons, List.sum_cons]

/-- **A pass succeeds if everything can be encoded, no name comes twice and the sizes add up to no
more than the limit**; it then moves on by the sum of the sizes. -/
theorem pass_of_sizes {limit next : Nat} (kind : RecordKind) {name : α → String}
    (records : Array Placed) (hr : ∀ x ∈ items, ∃ r, encode x = .ok r)
    (hf : ∀ x ∈ items, ∀ r, encode x = .ok r → r.len.toNat = f x)
    (hn : (items.map name).Nodup) (hl : next + (items.map f).sum ≤ limit) :
    ∃ p, (pass limit kind name encode items records next).result = .ok p ∧
      p.next = next + (items.map f).sum ∧ p.names.keys = items.map name := by
  obtain ⟨rs, hrs⟩ := exists_forall₂ hr
  obtain ⟨p, hp⟩ := pass_succeeds kind records hrs hn (total_eq_sum hf hrs ▸ hl)
  obtain ⟨rs', hrs', hlists, -, hnext, -⟩ := pass_row (by omega) hp
  exact ⟨p, hp, by rw [hnext, total_eq_sum hf hrs'], hlists.keys⟩

end Sizes

variable {g : Graph} {l : Layout} {as is ws : List Record}

/-- **A finished layout takes the bytes that its records take.** -/
theorem Rows.total_eq_footprint (hs : g.Sized) (h : l.Rows g as is ws) : l.total = g.footprint := by
  have ha : Placed.total as = (g.animals.toList.map Animal.footprint).sum :=
    total_eq_sum (fun a ha r hr => hs.len_animal (Array.mem_toList_iff.mp ha) hr) h.animals
  have hi : Placed.total is = (g.instances.toList.map Instance.footprint).sum :=
    total_eq_sum (fun i hi r hr => hs.len_inst (Array.mem_toList_iff.mp hi) hr) h.instances
  have hw : Placed.total ws = (g.worlds.toList.map World.footprint).sum :=
    total_eq_sum (fun w hw r hr => hs.len_world (Array.mem_toList_iff.mp hw) hr) h.worlds
  rw [h.total, Graph.footprint, ha, hi, hw]

/-- A finished layout shows that its graph can be encoded, with all references in range. -/
theorem Rows.encodable (h : l.Rows g as is ws) : g.Encodable ∧
    (∀ i ∈ g.instances, ∃ a, g.animal? i.species = some a) ∧
    (∀ r ∈ g.members, ∃ i, g.inst? r = some i) := by
  refine ⟨⟨fun a ha => ?_, fun i hi => ?_, fun w hw => ?_⟩, fun i hi => ?_, fun r hr => ?_⟩
  · obtain ⟨r, -, hr⟩ := forall₂_of_mem_left h.animals (Array.mem_toList_iff.mpr ha)
    exact (Record.ofAnimal_eq_ok_iff.mp hr).1
  · obtain ⟨r, -, hr⟩ := forall₂_of_mem_left h.instances (Array.mem_toList_iff.mpr hi)
    obtain ⟨a, o, -, -, hname, -⟩ := Record.ofInst_eq_ok_iff.mp hr
    exact hname
  · obtain ⟨r, -, hr⟩ := forall₂_of_mem_left h.worlds (Array.mem_toList_iff.mpr hw)
    obtain ⟨os, -, hname, -⟩ := Record.ofWorld_eq_ok_iff.mp hr
    exact hname
  · obtain ⟨r, -, hr⟩ := forall₂_of_mem_left h.instances (Array.mem_toList_iff.mpr hi)
    obtain ⟨a, o, ha, -, -, -⟩ := Record.ofInst_eq_ok_iff.mp hr
    exact ⟨a, ha⟩
  · obtain ⟨w, hw, hr⟩ := List.mem_flatMap.mp hr
    obtain ⟨rec, -, hrec⟩ := forall₂_of_mem_left h.worlds hw
    obtain ⟨os, hos, -, -⟩ := Record.ofWorld_eq_ok_iff.mp hrec
    obtain ⟨o, -, ho⟩ := forall₂_of_mem_left hos hr
    obtain ⟨i, hi, -⟩ := Record.memberOffset_eq_ok_iff.mp ho
    exact ⟨i, hi⟩

/-- **Which graphs have a layout.** -/
theorem ofGraph_succeeds_iff {c : ImageConfig} (hs : g.Sized) :
    (∃ l, (ofGraph c g).result = .ok l) ↔ (∀ k, (g.names k).Nodup) ∧ g.Encodable ∧
      (∀ i ∈ g.instances, ∃ a, g.animal? i.species = some a) ∧
      (∀ r ∈ g.members, ∃ i, g.inst? r = some i) ∧ g.footprint ≤ c.limit := by
  constructor
  · intro ⟨l, hl⟩
    obtain ⟨⟨as, is, ws, hrows⟩, hlimit⟩ := ofGraph_rows hl
    obtain ⟨henc, hspecies, hmembers⟩ := hrows.encodable
    rw [hrows.total_eq_footprint hs] at hlimit
    exact ⟨fun k => (hrows.lists k).nodup, henc, hspecies, hmembers, hlimit⟩
  · intro ⟨hnames, henc, hspecies, hmembers, hlimit⟩
    unfold Graph.footprint at hlimit
    obtain ⟨a, ha, han, hak⟩ := pass_of_sizes (f := Animal.footprint) .animal #[]
      (fun x hx => ⟨_, Record.ofAnimal_eq_ok_iff.mpr
        ⟨henc.animals x (Array.mem_toList_iff.mp hx), rfl⟩⟩)
      (fun x hx r hr => hs.len_animal (Array.mem_toList_iff.mp hx) hr) (hnames .animal)
      (show 0 + (g.animals.toList.map Animal.footprint).sum ≤ c.limit by omega)
    obtain ⟨i, hi, hin, hik⟩ := pass_of_sizes (f := Instance.footprint) .inst a.records
      (fun x hx => Record.ofInst_succeeds hak (hspecies x (Array.mem_toList_iff.mp hx))
        (henc.instances x (Array.mem_toList_iff.mp hx)))
      (fun x hx r hr => hs.len_inst (Array.mem_toList_iff.mp hx) hr) (hnames .inst)
      (show a.next + (g.instances.toList.map Instance.footprint).sum ≤ c.limit by omega)
    obtain ⟨w, hw, -, -⟩ := pass_of_sizes (f := World.footprint) .world i.records
      (fun x hx => Record.ofWorld_succeeds hik
        (fun r hr => hmembers r (List.mem_flatMap.mpr ⟨x, hx, hr⟩))
        (henc.worlds x (Array.mem_toList_iff.mp hx)))
      (fun x hx r hr => hs.len_world (Array.mem_toList_iff.mp hx) hr) (hnames .world)
      (show i.next + (g.worlds.toList.map World.footprint).sum ≤ c.limit by omega)
    simp only [ofGraph, Traced.result_bind_eq_ok_iff]
    exact ⟨_, a, ha, i, hi, w, hw, rfl⟩

end Layout

/-! ## 4. Images -/

namespace Image

variable {g : Graph} {l : Layout}

/-- **The claims are the entries of the worlds' lists**, in the same order. -/
theorem map_claims (hl : l.Sound g) :
    (claims g l.worldOffsets).map (fun c => (c.world, c.member)) =
      g.listings.map fun l => (l.world, l.member) := by
  have hlen : g.worlds.toList.length ≤ l.worldOffsets.length := by
    have hkeys := congrArg List.length (hl.names .world)
    rw [Directory.keys, Graph.names, List.length_map, List.length_map] at hkeys
    rw [hl.worlds, List.length_map]
    exact Nat.le_of_eq hkeys.symm
  have hfst : (g.worlds.toList.zip l.worldOffsets).map Prod.fst = g.worlds.toList :=
    List.map_fst_zip hlen
  rw [claims, Graph.listings, List.map_flatMap, List.map_flatMap]
  conv => rhs; rw [← hfst, List.flatMap_map]
  refine congrArg (List.flatMap · _) (funext fun x => ?_)
  rw [List.map_map, List.map_map]
  conv => lhs; rw [← List.zipIdx_map_fst 0 x.1.contains, List.map_map]
  rfl

theorem map_member_claims (hl : l.Sound g) : (claims g l.worldOffsets).map (·.member) = g.members := by
  have h := congrArg (List.map Prod.snd) (map_claims hl)
  rw [List.map_map, List.map_map] at h
  exact h.trans (Graph.map_member_listings g)

theorem ofLayout_succeeds_iff {strict : Bool} (hl : l.Sound g)
    (hmembers : ∀ r ∈ g.members, ∃ i, g.inst? r = some i) :
    (∃ img, (ofLayout strict g l).result = .ok img) ↔ (strict = true → g.members.Nodup) := by
  have hclaims := map_member_claims hl
  constructor
  · intro ⟨img, h⟩ hs
    obtain ⟨s, hsettle, -⟩ := ofLayout_eq_ok_iff.mp h
    obtain ⟨ws, hws, -, hfresh⟩ := settled_writes hsettle
    exact hclaims ▸ (nodup_owners_iff hl hws).mp (hfresh hs).1
  · intro hnodup
    have hpatch : ∀ c ∈ claims g l.worldOffsets, ∃ w, Claim.Patches g l.instances c w := by
      intro c hc
      have hmem : c.member ∈ g.members := hclaims ▸ List.mem_map.mpr ⟨c, hc, rfl⟩
      obtain ⟨o, ho⟩ := Record.memberOffset_succeeds (hl.names .inst) (hmembers _ hmem) c.world
      exact ⟨_, o, ho, rfl⟩
    obtain ⟨ws, hws⟩ := exists_forall₂ hpatch
    have hin : ∀ w ∈ ws, w.pos + 4 ≤ l.bytes.size := by
      intro w hw
      obtain ⟨c, -, hc⟩ := forall₂_of_mem_right hws hw
      exact (hc.into hl).1.le_size hl
    obtain ⟨s, hsettle⟩ := @settling_succeeds strict g l.instances _ ws ⟨l.bytes, ∅⟩ hws hin
      fun hs => fresh_empty.mpr ((nodup_owners_iff hl hws).mpr (hclaims ▸ hnodup hs))
    exact ⟨_, ofLayout_eq_ok_iff.mpr ⟨s, hsettle, rfl⟩⟩

/-- **Which graphs have an image.** -/
theorem ofGraph_succeeds_iff {c : ImageConfig} (hs : g.Sized) :
    (∃ img, (ofGraph c g).result = .ok img) ↔ (∀ k, (g.names k).Nodup) ∧ g.Encodable ∧
      (∀ i ∈ g.instances, ∃ a, g.animal? i.species = some a) ∧
      (∀ r ∈ g.members, ∃ i, g.inst? r = some i) ∧ g.footprint ≤ c.limit ∧
      (c.strict = true → g.members.Nodup) := by
  constructor
  · intro hok
    obtain ⟨img, h⟩ := hok
    simp only [ofGraph, Traced.result_bind_eq_ok_iff] at h
    obtain ⟨l, hl, himg⟩ := h
    obtain ⟨hnames, henc, hspecies, hmembers, hlimit⟩ := (Layout.ofGraph_succeeds_iff hs).mp ⟨l, hl⟩
    have hsound := (Layout.sound_of_ofGraph hs hl).1
    exact ⟨hnames, henc, hspecies, hmembers, hlimit,
      (ofLayout_succeeds_iff hsound hmembers).mp ⟨img, himg⟩⟩
  · intro hgraph
    obtain ⟨hnames, henc, hspecies, hmembers, hlimit, hnodup⟩ := hgraph
    obtain ⟨l, hl⟩ := (Layout.ofGraph_succeeds_iff hs).mpr ⟨hnames, henc, hspecies, hmembers, hlimit⟩
    have hsound := (Layout.sound_of_ofGraph hs hl).1
    obtain ⟨img, himg⟩ := (ofLayout_succeeds_iff hsound hmembers).mpr hnodup
    exact ⟨img, Traced.result_bind_eq_ok_iff.mpr ⟨l, hl, himg⟩⟩

/-- An image has as many bytes as its records take. -/
theorem size_of_ofGraph {c : ImageConfig} {img : Image} (hs : g.Sized)
    (h : (ofGraph c g).result = .ok img) : img.size = g.footprint := by
  obtain ⟨l, hl, hb⟩ := built_of_ofGraph hs h
  obtain ⟨⟨as, is, ws, hrows⟩, -⟩ := Layout.ofGraph_rows hl
  rw [size, hb.memory.size_eq, (Layout.sound_of_ofGraph hs hl).2.1, hrows.total_eq_footprint hs]

end Image

/-! ## 5. Programs -/

/-- **Which instances are in a world in the end**: those that a world lists or a transfer moves. -/
theorem Graph.finalWorld?_isSome_iff {g : Graph}
    (hd : ∀ t ∈ g.transfers, ∃ w, g.world? t.destination = some w) {n : Nat} :
    (∃ w, g.finalWorld? n = some w) ↔
      (∃ w ∈ g.worlds, w.Lists n) ∨ ∃ t ∈ g.transfers, t.subject.index = n := by
  unfold finalWorld?
  cases ht : g.lastTransfer? n with
  | some t =>
    obtain ⟨hmem, hsub⟩ := of_lastTransfer? ht
    constructor
    · intro _
      exact .inr ⟨t, hmem, hsub⟩
    · intro _
      exact hd t hmem
  | none =>
    constructor
    · intro ⟨w, hw⟩
      exact .inl ⟨w, of_lastListing? hw⟩
    · intro h
      rcases h with ⟨w, hw, hn⟩ | ⟨t, hmem, hsub⟩
      · cases hl : g.lastListing? n with
        | some w' => exact ⟨w', rfl⟩
        | none => exact absurd hn (lastListing?_eq_none_iff.mp hl w hw)
      · exact absurd hsub (lastTransfer?_eq_none_iff.mp ht t hmem)

namespace Image.Built

variable {g : Graph} {l : Layout} {img : Image}

/-- A transfer whose two references are in range has a store. -/
theorem store_exists (hb : img.Built g l) {t : Transfer} (position : Nat)
    (hi : ∃ i, g.inst? t.subject = some i) (hw : ∃ w, g.world? t.destination = some w) :
    ∃ s, Store.ofTransfer g img t position = .ok s := by
  obtain ⟨i, hi⟩ := hi
  obtain ⟨w, hw⟩ := hw
  obtain ⟨p, hp, hk, -, hinst⟩ := hb.lookup (Graph.name?_inst hi)
  obtain ⟨q, -, -, -, hworld⟩ := hb.lookup (Graph.name?_world hw)
  have hlt : p.offset.toNat + worldRefAt < 2 ^ 32 := by
    have := hb.sound.worldWord_le hp hk
    have := hb.sound.stop_le hp
    have := hb.sound.bounded
    omega
  exact ⟨⟨i.name, w.name, _, q.offset⟩, Store.ofTransfer_eq_ok_iff.mpr
    ⟨i, w, p.offset, hi, hw, hinst, hworld, Offset.add?_of_lt hlt, rfl, rfl⟩⟩

theorem stores_exist (hb : img.Built g l)
    (h : ∀ t ∈ g.transfers, (∃ i, g.inst? t.subject = some i) ∧
      ∃ w, g.world? t.destination = some w) :
    ∃ stores, List.Forall₂ (fun t s => Store.ofTransfer g img t.1 t.2 = .ok s)
      g.transfers.toList.zipIdx stores := by
  refine exists_forall₂ fun t ht => ?_
  have hmem : t.1 ∈ g.transfers := Array.mem_toList_iff.mp
    (List.mem_of_getElem? (List.mem_zipIdx_iff_getElem?.mp ht))
  exact hb.store_exists t.2 (h _ hmem).1 (h _ hmem).2

variable {stores : List Store}

/-- An instance that is in a world in the end has a narration. -/
theorem narration_exists (hb : img.Built g l)
    (h : List.Forall₂ (fun t s => Store.ofTransfer g img t.1 t.2 = .ok s)
      g.transfers.toList.zipIdx stores) {n : Nat} {i : Instance}
    (hi : g.instances[n]? = some i) (hw : ∃ w, g.finalWorld? n = some w) :
    ∃ x : Offset × Narrated, img.instances.get? i.name = some x.1 ∧
      Narrated.resolve ⟨img.bytes.writes (stores.map Store.write), img.spans⟩ i.name x.1 =
        .ok x.2 := by
  obtain ⟨w, hw⟩ := hw
  obtain ⟨p, hp, hk, rfl, hget⟩ := hb.lookup (Graph.name?_inst hi)
  obtain ⟨o, hword, hend⟩ := hb.worldWord_after h hp hk
  rw [Graph.EndsIn, hw] at hend
  obtain ⟨q, hq, hqk, rfl, -⟩ := (hb.sound.named .world w.name o).mp hend
  have hmem := hb.memory.writes hb.sound (hb.stores_into h)
  obtain ⟨x, y, a, args, hwalk⟩ := hmem.exists_walk hb.sound hp hk hq hqk hword
  rw [hb.spans]
  exact ⟨(p.offset, ⟨i.name, args⟩), hget,
    Narrated.resolve_eq_ok_iff.mpr ⟨rfl, x, q.offset, y, a, hwalk⟩⟩

theorem narrations_exist (hb : img.Built g l)
    (h : List.Forall₂ (fun t s => Store.ofTransfer g img t.1 t.2 = .ok s)
      g.transfers.toList.zipIdx stores)
    (hw : ∀ n, n < g.instances.size → ∃ w, g.finalWorld? n = some w) :
    ∃ found : List (Offset × Narrated), List.Forall₂ (fun i x =>
      img.instances.get? i.name = some x.1 ∧
      Narrated.resolve ⟨img.bytes.writes (stores.map Store.write), img.spans⟩ i.name x.1 = .ok x.2)
      g.instances.toList found := by
  refine exists_forall₂ fun i hi => ?_
  obtain ⟨n, hn⟩ := List.mem_iff_getElem?.mp hi
  rw [Array.getElem?_toList] at hn
  exact hb.narration_exists h hn (hw n (Array.getElem?_eq_some_iff.mp hn).1)

end Image.Built

/-- **Which graphs have a program over their own image.** -/
theorem Program.emit_succeeds_iff {g : Graph} {l : Layout} {img : Image} (hb : img.Built g l)
    {c : EmitConfig} : (∃ p, (emit c img g).result = .ok p) ↔ c.pagesFor img.size ≤ c.maxPages ∧
      (∀ t ∈ g.transfers, (∃ i, g.inst? t.subject = some i) ∧ ∃ w, g.world? t.destination = some w) ∧
      (∀ n, n < g.instances.size → ∃ w, g.finalWorld? n = some w) := by
  constructor
  · intro ⟨p, hp⟩
    obtain ⟨hpages, -, mem, found, he⟩ := emit_eq_ok_iff.mp hp
    refine ⟨hpages, fun t ht => ?_, fun n hn => ?_⟩
    · rw [← Array.mem_toList_iff, ← List.zipIdx_map_fst 0 g.transfers.toList] at ht
      obtain ⟨x, hx, rfl⟩ := List.mem_map.mp ht
      obtain ⟨s, -, hs⟩ := forall₂_of_mem_left he.stores hx
      obtain ⟨i, w, -, hi, hw, -⟩ := Store.ofTransfer_eq_ok_iff.mp hs
      exact ⟨⟨i, hi⟩, w, hw⟩
    · have hi := Array.getElem?_eq_getElem hn
      have hi' : g.instances.toList[n]? = some g.instances[n] := by rw [Array.getElem?_toList, hi]
      obtain ⟨x, hx, -⟩ := forall₂_getElem?_left he.resolved hi'
      obtain ⟨a, w, -, hw, -⟩ := he.decode_found hb hi hx
      exact ⟨w, hw⟩
  · intro ⟨hpages, htransfers, hworlds⟩
    obtain ⟨stores, hstores⟩ := hb.stores_exist htransfers
    have hinto := hb.stores_into hstores
    obtain ⟨found, hfound⟩ := hb.narrations_exist hstores hworlds
    refine ⟨⟨img, stores, found.map (·.2), assemble stores (found.map (·.1)), _⟩,
      emit_eq_ok_iff.mpr ⟨hpages, rfl, _, found, rfl, hstores, fun s hs => ?_, rfl, hfound, rfl, rfl⟩⟩
    obtain ⟨n, hn⟩ := hinto s.write (List.mem_map.mpr ⟨s, hs, rfl⟩)
    exact hb.memory.size_eq ▸ hn.le_size hb.sound

/-! ## 6. Compilations -/

namespace Compiler

/-- **Which graphs are compiled**: those without fault, as far as the configuration asks, with texts
that have bytes, with records and pages that fit, and with every instance in some world. The bytes
of the image and the pages of the program are then determined. -/
theorem compile_succeeds_iff {c : Compiler} {g : Graph} (hs : g.Sized) :
    ((∃ p, (c.compile g).result = .ok p) ↔
      ((∀ v ∈ g.violations, v.Placement) ∧ (c.image.strict = true → g.violations = [])) ∧
      g.Encodable ∧
      g.footprint ≤ min c.image.maxBytes (2 ^ 32 - 1) ∧
      max ((g.footprint + 65535) / 65536) c.emit.initialPages ≤ c.emit.maxPages ∧
      ∀ n, n < g.instances.size → (∃ w ∈ g.worlds, w.Lists n) ∨
        ∃ t ∈ g.transfers, t.subject.index = n) ∧
    ∀ p, (c.compile g).result = .ok p → p.image.size = g.footprint ∧
      p.pages = ⟨max ((g.footprint + 65535) / 65536) c.emit.initialPages, c.emit.maxPages⟩ := by
  refine ⟨⟨fun ⟨p, hp⟩ => ?_, fun ⟨hfaults, henc, hlimit, hpages, hlisted⟩ => ?_⟩, fun p hp => ?_⟩
  · obtain ⟨img, himg, hemit⟩ := compile_eq_ok_iff.mp hp
    obtain ⟨l, -, hb⟩ := Image.built_of_ofGraph hs himg
    obtain ⟨hnames, henc, hspecies, hmembers, hlimit, honce⟩ :=
      (Image.ofGraph_succeeds_iff hs).mp ⟨img, himg⟩
    obtain ⟨hpages, htransfers, hworlds⟩ := (Program.emit_succeeds_iff hb).mp ⟨p, hemit⟩
    rw [Image.size_of_ofGraph hs himg] at hpages
    have hwf : g.WellFormed c.image.strict := ⟨hnames, hspecies, hmembers,
      fun t ht => (htransfers t ht).1, fun t ht => (htransfers t ht).2, honce⟩
    exact ⟨Graph.wellFormed_iff.mp hwf, henc, hlimit, hpages,
      fun n hn => (Graph.finalWorld?_isSome_iff hwf.destinations).mp (hworlds n hn)⟩
  · have hwf : g.WellFormed c.image.strict := Graph.wellFormed_iff.mpr hfaults
    obtain ⟨img, himg⟩ := (Image.ofGraph_succeeds_iff hs).mpr
      ⟨hwf.names, henc, hwf.species, hwf.members, hlimit, hwf.listedOnce⟩
    obtain ⟨l, -, hb⟩ := Image.built_of_ofGraph hs himg
    rw [← Image.size_of_ofGraph hs himg] at hpages
    obtain ⟨p, hemit⟩ := (Program.emit_succeeds_iff hb).mpr ⟨hpages,
      fun t ht => ⟨hwf.subjects t ht, hwf.destinations t ht⟩,
      fun n hn => (Graph.finalWorld?_isSome_iff hwf.destinations).mpr (hlisted n hn)⟩
    exact ⟨p, compile_eq_ok_iff.mpr ⟨img, himg, hemit⟩⟩
  · obtain ⟨img, himg, hemit⟩ := compile_eq_ok_iff.mp hp
    obtain ⟨-, hpages, mem, found, he⟩ := Program.emit_eq_ok_iff.mp hemit
    rw [Image.size_of_ofGraph hs himg] at hpages
    exact ⟨by rw [he.image, Image.size_of_ofGraph hs himg], hpages⟩

/-- The moving cat takes 67 bytes: it is compiled under a limit of 67, and not under one of 66. -/
theorem moving_cat_fits : Sample.movingCat.Sized ∧
    (∃ p, (compile { image := { maxBytes := 67 } } Sample.movingCat).result = .ok p ∧
      p.image.size = 67 ∧ p.pages = ⟨1, 256⟩) ∧
    ¬ ∃ p, (compile { image := { maxBytes := 66 } } Sample.movingCat).result = .ok p := by
  have hsized : Sample.movingCat.Sized :=
    Graph.sized_of_footprints (by decide) (by decide) (by decide)
  have hnone : Sample.movingCat.violations = [] := by decide +kernel
  have hsize : Sample.movingCat.footprint = 67 := by decide
  refine ⟨hsized, ?_, fun hp => ?_⟩
  · have hfits : ∃ p, (compile { image := { maxBytes := 67 } } Sample.movingCat).result = .ok p :=
      (compile_succeeds_iff hsized).1.mpr ⟨⟨by simp [hnone], fun _ => hnone⟩,
        ⟨by decide, by decide, by decide⟩, by decide, by decide, by decide⟩
    obtain ⟨p, hp⟩ := hfits
    obtain ⟨hbytes, hpages⟩ := (compile_succeeds_iff hsized).2 p hp
    rw [hsize] at hbytes hpages
    exact ⟨p, hp, hbytes, hpages⟩
  · obtain ⟨-, -, hlimit, -, -⟩ := (compile_succeeds_iff hsized).1.mp hp
    rw [hsize] at hlimit
    exact absurd hlimit (by decide)

end Compiler

end Menagerie
