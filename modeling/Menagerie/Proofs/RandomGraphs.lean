import Menagerie.Proofs.Draws
import Menagerie.Proofs.Shortage

/-! # Random graphs compile

What a recipe draws is fit for every compiler, whatever the source hands out within its ranges:

* `Recipe.mem_residents`, `Recipe.nodup_residents` -- a world lists those whose home it is, each once;
* `Recipe.Yields.existsUnique_place` -- **each instance stands at one place in one list**;
* `Recipe.Yields.ready` -- **a drawn graph wants nothing but room**;
* `Recipe.Yields.footprint_le` -- the bytes that a drawn graph takes at most;
* `Recipe.drawn_graph_wants_only_room` -- **a compiler, strict or not, compiles a drawn graph or overflows**;
* `Recipe.profiles_compile` -- **the two fixed recipes compile from every state of the source**, with the
  default limits.
-/

namespace Menagerie

/-- A sum over a list whose terms are bounded. -/
theorem sum_map_le {α : Type} {xs : List α} {f : α → Nat} {bound : Nat} (h : ∀ x ∈ xs, f x ≤ bound) :
    (xs.map f).sum ≤ xs.length * bound := by
  have hsum := List.sum_le_card_nsmul (xs.map f) bound (List.forall_mem_map.mpr h)
  rwa [List.length_map, Nat.nsmul_eq_mul] at hsum

/-- A layout has room for the fields of all instances, whatever else is in it. -/
theorem Layout.instances_le_total {c : ImageConfig} {g : Graph} {l : Layout}
    (hs : ∀ i ∈ g.instances, i.footprint < 2 ^ 32) (h : (ofGraph c g).result = .ok l) :
    20 * g.instances.size ≤ l.total := by
  obtain ⟨⟨as, is, ws, hrows⟩, -⟩ := ofGraph_rows h
  have htotal : Placed.total is = (g.instances.toList.map Instance.footprint).sum := by
    refine total_eq_sum (fun i hi r hr => ?_) hrows.instances
    have hsize := Record.size_of_ofInst hr
    rw [Record.toNat_len (hsize ▸ hs i (Array.mem_toList_iff.mp hi)), hsize]
  have hleast := List.card_nsmul_le_sum (g.instances.toList.map Instance.footprint) 20
    (List.forall_mem_map.mpr fun i _ => Nat.le_add_right 20 i.name.length)
  rw [List.length_map, Array.length_toList, Nat.nsmul_eq_mul] at hleast
  rw [hrows.total]
  omega

namespace Recipe

variable {r : Recipe} {g : Graph}

/-! ## 1. Homes -/

section Residents

variable {homes : List Nat} {world : Nat} (hlen : homes.length < 2 ^ 32)

include hlen

/-- What makes an entry of a world's list: the home at the position it refers to. -/
theorem resident_iff {x : Nat × Nat} (hx : x ∈ homes.zipIdx) {m : Ref .inst} :
    (if x.1 = world then some (Ref.ofNat x.2) else none) = some m ↔ x = (world, m.index) := by
  have hlt : x.2 < 2 ^ 32 :=
    Nat.lt_trans (List.getElem?_eq_some_iff.mp (List.mem_zipIdx_iff_getElem?.mp hx)).1 hlen
  rw [Option.ite_none_right_eq_some, Option.some.injEq, ← Ref.index_inj, Ref.index_ofNat hlt,
    Prod.ext_iff]

/-- **A world lists those whose home it is.** -/
theorem mem_residents {m : Ref .inst} :
    m ∈ residents homes world ↔ homes[m.index]? = some world := by
  rw [residents, List.mem_filterMap]
  refine ⟨fun h => ?_, fun h => ?_⟩
  · obtain ⟨x, hx, hsome⟩ := h
    rw [(resident_iff hlen hx).mp hsome] at hx
    exact List.mem_zipIdx_iff_getElem?.mp hx
  · have hx : (world, m.index) ∈ homes.zipIdx := List.mem_zipIdx_iff_getElem?.mpr h
    exact ⟨_, hx, (resident_iff hlen hx).mpr rfl⟩

theorem nodup_residents : (residents homes world).Nodup := by
  have hzip : homes.zipIdx.Nodup := by
    refine List.Nodup.of_map Prod.snd ?_
    rw [List.zipIdx_map_snd]
    exact List.nodup_range'
  refine List.pairwise_filterMap.mpr (hzip.imp_of_mem fun hx hy hne m hm m' hm' he => hne ?_)
  rw [(resident_iff hlen hx).mp hm, (resident_iff hlen hy).mp hm', he]

end Residents

namespace Yields

theorem size_worlds (h : r.Yields g) : g.worlds.size = r.provided r.worlds := by
  obtain ⟨homes, -, hworlds⟩ := h.worlds
  exact hworlds.length_eq

/-- **Every instance has a home**, and a world lists those whose home it is, each once. -/
theorem homes (h : r.Yields g) : ∃ homes : List Nat,
    Series r.instances (fun _ home => home < r.provided r.worlds) homes ∧
    ∀ (k : Nat) (w : World), g.worlds[k]? = some w →
      w.contains.Nodup ∧ ∀ m : Ref .inst, m ∈ w.contains ↔ homes[m.index]? = some k := by
  obtain ⟨homes, hhomes, hworlds⟩ := h.worlds
  have hlen : homes.length < 2 ^ 32 := hhomes.length_eq ▸ h.inWords.instances
  refine ⟨homes, hhomes, fun k w hk => ?_⟩
  rw [← Array.getElem?_toList] at hk
  rw [(hworlds.entry k w hk).2]
  exact ⟨nodup_residents hlen, fun m => mem_residents hlen⟩

/-- **Each instance stands at one place in one list.** -/
theorem existsUnique_place (h : r.Yields g) {n : Nat} (hn : n < r.instances) :
    ∃! place : Nat × Nat, ∃ w m, g.worlds[place.1]? = some w ∧ w.contains[place.2]? = some m ∧
      m.index = n := by
  obtain ⟨homes, hhomes, hlists⟩ := h.homes
  obtain ⟨k, hk⟩ := hhomes.exists_getElem? hn
  obtain ⟨w, hw⟩ : ∃ w, g.worlds[k]? = some w :=
    ⟨_, Array.getElem?_eq_getElem (h.size_worlds ▸ hhomes.entry n k hk)⟩
  have hindex : (Ref.ofNat n : Ref .inst).index = n :=
    Ref.index_ofNat (Nat.lt_trans hn h.inWords.instances)
  obtain ⟨hnodup, hmem⟩ := hlists k w hw
  obtain ⟨j, hj⟩ := List.mem_iff_getElem?.mp ((hmem (.ofNat n)).mpr (hindex.symm ▸ hk))
  refine ⟨(k, j), ⟨w, _, hw, hj, hindex⟩, ?_⟩
  rintro ⟨k', j'⟩ ⟨w', m, hw', hj', rfl⟩
  -- the list is that of the home, and no list has an instance twice
  have hhome := ((hlists k' w' hw').2 m).mp (List.mem_of_getElem? hj')
  obtain rfl : k = k' := Option.some.inj (hk.symm.trans hhome)
  obtain rfl : w = w' := Option.some.inj (hw.symm.trans hw')
  rw [Ref.ofNat_index] at hj
  obtain ⟨hlt, -⟩ := List.getElem?_eq_some_iff.mp hj
  have hsame : j = j' := (List.getElem?_inj hlt hnodup).mp (hj.trans hj'.symm)
  rw [hsame]

theorem nodup_members (h : r.Yields g) : g.members.Nodup := by
  obtain ⟨homes, -, hlists⟩ := h.homes
  refine List.nodup_flatMap.mpr ⟨fun w hw => ?_, ?_⟩
  · obtain ⟨k, hk⟩ := Array.mem_iff_getElem?.mp (Array.mem_toList_iff.mp hw)
    exact (hlists k w hk).1
  -- an instance that two worlds list would have two homes
  refine List.pairwise_iff_getElem.mpr fun i j hi hj hij m hmi hmj => ?_
  have hwi : g.worlds[i]? = some g.worlds.toList[i] := by
    rw [← Array.getElem?_toList, List.getElem?_eq_getElem hi]
  have hwj : g.worlds[j]? = some g.worlds.toList[j] := by
    rw [← Array.getElem?_toList, List.getElem?_eq_getElem hj]
  have hhome := (((hlists i _ hwi).2 m).mp hmi).symm.trans (((hlists j _ hwj).2 m).mp hmj)
  exact absurd (Option.some.inj hhome) (Nat.ne_of_lt hij)

theorem index_lt_of_mem (h : r.Yields g) {m : Ref .inst} (hm : m ∈ g.members) :
    m.index < r.instances := by
  obtain ⟨homes, hhomes, hlists⟩ := h.homes
  obtain ⟨w, hw, hm⟩ := List.mem_flatMap.mp hm
  obtain ⟨k, hk⟩ := Array.mem_iff_getElem?.mp (Array.mem_toList_iff.mp hw)
  exact hhomes.lt_of_getElem? (((hlists k w hk).2 m).mp hm)

/-- The lists of all worlds are no longer than there are instances. -/
theorem length_members_le (h : r.Yields g) : g.members.length ≤ r.instances := by
  have hsub : g.members.map Ref.index ⊆ List.range r.instances := by
    intro n hn
    obtain ⟨m, hm, rfl⟩ := List.mem_map.mp hn
    exact List.mem_range.mpr (h.index_lt_of_mem hm)
  have hle := (List.subperm_of_subset (h.nodup_members.map Ref.index_injective) hsub).length_le
  rwa [List.length_map, List.length_range] at hle

theorem length_contains_le (h : r.Yields g) {w : World} (hw : w ∈ g.worlds) :
    w.contains.length ≤ r.instances := by
  have hlist : w.contains.length ≤ g.members.length := by
    rw [Graph.members, List.length_flatMap]
    exact List.le_sum_of_mem (List.mem_map.mpr ⟨w, Array.mem_toList_iff.mpr hw, rfl⟩)
  exact Nat.le_trans hlist h.length_members_le

/-! ## 2. Drawn graphs are ready -/

theorem size_animals (h : r.Yields g) : g.animals.size = r.provided r.animals := h.animals.length_eq

theorem size_instances (h : r.Yields g) : g.instances.size = r.instances := h.instances.length_eq

theorem wellFormed (h : r.Yields g) : g.WellFormed true := by
  obtain ⟨homes, -, hworlds⟩ := h.worlds
  refine ⟨fun k => ?_, fun i hi => ?_, fun m hm => ?_, fun t ht => ?_, fun t ht => ?_,
    fun _ => h.nodup_members⟩
  · cases k with
    | animal => exact nodup_of_nameAt (h.animals.map (·.name) fun _ _ ha => ha.1)
    | inst => exact nodup_of_nameAt (h.instances.map (·.name) fun _ _ hi => hi.1)
    | world => exact nodup_of_nameAt (hworlds.map (·.name) fun _ _ hw => hw.1)
  · obtain ⟨n, -, -, hspecies⟩ := h.instances.of_mem (Array.mem_toList_iff.mpr hi)
    exact ⟨_, Array.getElem?_eq_getElem (h.size_animals ▸ hspecies)⟩
  · exact ⟨_, Array.getElem?_eq_getElem (h.size_instances ▸ h.index_lt_of_mem hm)⟩
  · obtain ⟨n, -, hsubject, -⟩ := h.transfers.of_mem (Array.mem_toList_iff.mpr ht)
    exact ⟨_, Array.getElem?_eq_getElem (h.size_instances ▸ hsubject)⟩
  · obtain ⟨n, -, -, hdestination⟩ := h.transfers.of_mem (Array.mem_toList_iff.mpr ht)
    exact ⟨_, Array.getElem?_eq_getElem (h.size_worlds ▸ hdestination)⟩

theorem encodable (h : r.Yields g) : g.Encodable := by
  obtain ⟨homes, -, hworlds⟩ := h.worlds
  refine ⟨fun a ha => ?_, fun i hi => ?_, fun w hw => ?_⟩
  · obtain ⟨n, -, hname, hgene, hsound⟩ := h.animals.of_mem (Array.mem_toList_iff.mpr ha)
    exact ⟨hgene.fits, hname.fits (by decide), hsound.fits⟩
  · obtain ⟨n, -, hname, -⟩ := h.instances.of_mem (Array.mem_toList_iff.mpr hi)
    exact hname.fits (by decide)
  · obtain ⟨n, -, hname, -⟩ := hworlds.of_mem (Array.mem_toList_iff.mpr hw)
    exact hname.fits (by decide)

/-- **A drawn graph wants nothing but room.** -/
theorem ready (h : r.Yields g) : g.Ready := by
  refine ⟨h.wellFormed, h.encodable, fun n hn => ?_⟩
  obtain ⟨place, ⟨w, m, hw, hm, hindex⟩, -⟩ := h.existsUnique_place (h.size_instances ▸ hn)
  exact ⟨w, Array.mem_of_getElem? hw, m, List.mem_of_getElem? hm, hindex⟩

/-! ## 3. Sizes -/

section Digits

variable {digits : Nat}

theorem footprint_animal_le (h : r.Yields g) (hd : 0 < digits)
    (hle : r.provided r.animals ≤ 10 ^ digits) {a : Animal} (ha : a ∈ g.animals) :
    a.footprint ≤ 14 + digits + 3 * r.maxText := by
  obtain ⟨n, hn, hname, hgene, hsound⟩ := h.animals.of_mem (Array.mem_toList_iff.mpr ha)
  have hlen := hname.length_le hd (Nat.lt_of_lt_of_le hn hle)
  have hletter : "a".length = 1 := rfl
  have := hgene.length_le
  have := hsound.length_le
  rw [Animal.footprint]
  omega

theorem footprint_inst_le (h : r.Yields g) (hd : 0 < digits) (hle : r.instances ≤ 10 ^ digits)
    {i : Instance} (hi : i ∈ g.instances) : i.footprint ≤ 22 + digits + r.maxText := by
  obtain ⟨n, hn, hname, -⟩ := h.instances.of_mem (Array.mem_toList_iff.mpr hi)
  have hlen := hname.length_le hd (Nat.lt_of_lt_of_le hn hle)
  have hletter : "i".length = 1 := rfl
  rw [Instance.footprint]
  omega

/-- A world without its list. -/
theorem name_world_le (h : r.Yields g) (hd : 0 < digits) (hle : r.provided r.worlds ≤ 10 ^ digits)
    {w : World} (hw : w ∈ g.worlds) : 8 + w.name.length ≤ 10 + digits + r.maxText := by
  obtain ⟨homes, -, hworlds⟩ := h.worlds
  obtain ⟨n, hn, hname, -⟩ := hworlds.of_mem (Array.mem_toList_iff.mpr hw)
  have hlen := hname.length_le hd (Nat.lt_of_lt_of_le hn hle)
  have hletter : "w".length = 1 := rfl
  omega

theorem sum_footprint_worlds (g : Graph) : (g.worlds.toList.map World.footprint).sum =
    (g.worlds.toList.map fun w => 8 + w.name.length).sum + 4 * g.members.length := by
  rw [Graph.members, List.length_flatMap]
  induction g.worlds.toList with
  | nil => rfl
  | cons w ws ih =>
    simp only [List.map_cons, List.sum_cons, ih, World.footprint]
    omega

/-- **The bytes that a drawn graph takes at most**, if its positions have so many digits. -/
theorem footprint_le (h : r.Yields g) (hd : 0 < digits) (ha : r.provided r.animals ≤ 10 ^ digits)
    (hi : r.instances ≤ 10 ^ digits) (hw : r.provided r.worlds ≤ 10 ^ digits) :
    g.footprint ≤ r.provided r.animals * (14 + digits + 3 * r.maxText) +
      r.instances * (22 + digits + r.maxText) +
      (r.provided r.worlds * (10 + digits + r.maxText) + 4 * r.instances) := by
  have hanimals := sum_map_le (f := Animal.footprint) fun a hmem =>
    h.footprint_animal_le hd ha (Array.mem_toList_iff.mp hmem)
  have hinsts := sum_map_le (f := Instance.footprint) fun i hmem =>
    h.footprint_inst_le hd hi (Array.mem_toList_iff.mp hmem)
  have hworlds := sum_map_le (f := fun w : World => 8 + w.name.length) fun w hmem =>
    h.name_world_le hd hw (Array.mem_toList_iff.mp hmem)
  have hmembers := h.length_members_le
  rw [Array.length_toList, h.size_animals] at hanimals
  rw [Array.length_toList, h.size_instances] at hinsts
  rw [Array.length_toList, h.size_worlds] at hworlds
  rw [Graph.footprint, sum_footprint_worlds]
  omega

end Digits

/-- **If texts are short, whatever has a layout has records below `2 ^ 32` bytes.** A layout has room for
all instances, and no list is longer than these. -/
theorem sized_of_layout (h : r.Yields g) (htext : 3 * r.maxText + 24 < 2 ^ 32)
    {c : ImageConfig} {l : Layout} (hl : (Layout.ofGraph c g).result = .ok l) : g.Sized := by
  -- a position below `2 ^ 32` has at most ten digits
  have hten : 2 ^ 32 ≤ 10 ^ 10 := by decide
  have hanimal : ∀ a ∈ g.animals, a.footprint < 2 ^ 32 := by
    intro a ha
    have := h.footprint_animal_le (by decide) (Nat.le_trans (provided_le h.inWords.animals) hten) ha
    omega
  have hinst : ∀ i ∈ g.instances, i.footprint < 2 ^ 32 := by
    intro i hi
    have := h.footprint_inst_le (by decide) (Nat.le_trans (Nat.le_of_lt h.inWords.instances) hten) hi
    omega
  refine Graph.sized_of_footprints hanimal hinst fun w hw => ?_
  have hname := h.name_world_le (by decide) (Nat.le_trans (provided_le h.inWords.worlds) hten) hw
  have hlist := h.length_contains_le hw
  have htotal := Layout.total_lt_of_ofGraph hl
  have hroom := Layout.instances_le_total hinst hl
  rw [h.size_instances] at hroom
  rw [World.footprint]
  omega

end Yields

/-! ## 4. Compilations -/

section Source

variable {σ : Type} {src : Source σ}

/-- **A compiler compiles a drawn graph or overflows**, whatever its configuration. The graph has no fault;
each instance stands at one place in one list; every character has a byte; and there are as many
declarations as the recipe asks for, but at least one animal and one world where there are instances,
and no transfer where there are none. Lengths are words, so no layout may hold a record of `2 ^ 32` bytes:
texts are too short for one, or there is none, or there is no layout. -/
theorem drawn_graph_wants_only_room (hsrc : src.InRange) (hr : r.InWords) {s : σ}
    (hg : (r.draw src s).1 = g) :
    g.violations = [] ∧
    (∀ n, n < r.instances → ∃! place : Nat × Nat, ∃ w m, g.worlds[place.1]? = some w ∧
      w.contains[place.2]? = some m ∧ m.index = n) ∧
    (∀ kind name field text, g.Text kind name field text → ∀ ch ∈ text.toList, ch.toNat ≤ 0xFF) ∧
    g.animals.size = (if 0 < r.instances then max r.animals 1 else r.animals) ∧
    g.instances.size = r.instances ∧
    g.worlds.size = (if 0 < r.instances then max r.worlds 1 else r.worlds) ∧
    g.transfers.size = (if 0 < r.instances then r.transfers else 0) ∧
    ∀ c : Compiler, (3 * r.maxText + 24 < 2 ^ 32 ∨ g.Sized ∨
        ∃ e, (Layout.ofGraph c.image g).result = .error e) →
      (∃ p, (c.compile g).result = .ok p) ∨
        ∃ required limit, (c.compile g).result = .error (.overflow required limit) := by
  have h : r.Yields g := hg ▸ draw_yields hsrc hr s
  have hready := h.ready
  refine ⟨(Graph.wellFormed_iff.mp hready.wellFormed).2 rfl, fun n hn => h.existsUnique_place hn,
    fun kind name field text ht ch hch => ?_, h.size_animals, h.size_instances, h.size_worlds,
    h.transfers.length_eq, fun c hc => hready.compiles_or_overflows fun l hl => ?_⟩
  · exact Bytes.fits_iff.mp (Bytes.firstWide?_eq_none_iff.mp (hready.firstWide?_eq_none ht)) ch hch
  · rcases hc with htext | hs | ⟨e, he⟩
    · exact h.sized_of_layout htext hl
    · exact hs
    · rw [hl] at he
      cases he

/-- A recipe compiles with the default limits if the longest graph that it can yield does. -/
theorem compiles_below (hsrc : src.InRange) (hr : r.InWords) (s : σ) (strict : Bool) {digits bound : Nat}
    (hd : 0 < digits) (ha : r.provided r.animals ≤ 10 ^ digits) (hi : r.instances ≤ 10 ^ digits)
    (hw : r.provided r.worlds ≤ 10 ^ digits)
    (hsum : r.provided r.animals * (14 + digits + 3 * r.maxText) +
      r.instances * (22 + digits + r.maxText) +
      (r.provided r.worlds * (10 + digits + r.maxText) + 4 * r.instances) < bound)
    (hbound : bound ≤ 256 * pageSize) :
    ∃ p, (Compiler.compile { image := { strict := strict } } (r.draw src s).1).result = .ok p ∧
      p.image.size < bound := by
  have h : r.Yields (r.draw src s).1 := draw_yields hsrc hr s
  have hlt := Nat.lt_of_le_of_lt (h.footprint_le hd ha hi hw) hsum
  obtain ⟨p, hp, hsize⟩ := h.ready.compile_of_pages strict (Nat.le_of_lt (Nat.lt_of_lt_of_le hlt hbound))
  exact ⟨p, hp, hsize ▸ hlt⟩

/-- **The two fixed recipes compile with the default limits**, strictly or not, from every state of every
source that stays in its ranges. -/
theorem profiles_compile (hsrc : src.InRange) (s : σ) (strict : Bool) :
    (∃ p, (Compiler.compile { image := { strict := strict } } (reference.draw src s).1).result = .ok p ∧
      p.image.size < 2 ^ 18) ∧
    ∃ p, (Compiler.compile { image := { strict := strict } } (stress.draw src s).1).result = .ok p ∧
      p.image.size < 2 ^ 21 := by
  have hreference : reference.InWords := ⟨by decide, by decide, by decide, by decide, by decide⟩
  have hstress : stress.InWords := ⟨by decide, by decide, by decide, by decide, by decide⟩
  -- positions of up to 2000 instances have four digits, those of up to 20000 have five
  exact ⟨compiles_below hsrc hreference s strict (show 0 < 4 by decide) (by decide) (by decide)
      (by decide) (by decide) (by decide),
    compiles_below hsrc hstress s strict (show 0 < 5 by decide) (by decide) (by decide) (by decide)
      (by decide) (by decide)⟩

/-- The graphs of one seed. -/
theorem seed_42_compiles : ChaCha.source.InRange ∧
    (∃ p, (Compiler.compile {} (reference.graph 42)).result = .ok p ∧ p.image.size < 2 ^ 18) ∧
    ∃ p, (Compiler.compile { image := { strict := true } } (stress.graph 42)).result = .ok p ∧
      p.image.size < 2 ^ 21 := by
  rw [graph, graph]
  exact ⟨ChaCha.source_inRange,
    (profiles_compile ChaCha.source_inRange (ChaCha.Stream.ofSeed 42) false).1,
    (profiles_compile ChaCha.source_inRange (ChaCha.Stream.ofSeed 42) true).2⟩

end Source

end Recipe

end Menagerie
