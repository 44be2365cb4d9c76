import Menagerie.Graph.Sample
import Menagerie.Proofs.Execution
import Menagerie.Proofs.Patching

/-! # What a program leaves behind

A run writes into the world words of the instances that move, and nowhere else.

* `Bytes.writes_again` -- **writes that do not overlap change nothing when they are made again**, although
  the words in between differ from the first time;
* `Program.lastStore?`, `Program.InStoredWord` -- the store that decides about an instance, and the bytes
  that stores write to;
* `Program.Emitted.worldWord_stored`, `Program.Emitted.frame` -- the memory that the stores leave, word by
  word and byte by byte;
* `Machine.afterRuns` -- a machine that runs a body several times;
* `Program.rerun_changes_nothing` -- **the final memory is known, and every further run is the first run
  over again**.
-/

namespace Menagerie

/-! ## 1. Writes made again -/

namespace Bytes

theorem exists_lastWrite? {ws : List Write} {w : Write} (h : w ∈ ws) :
    ∃ v, lastWrite? ws w.pos = some v := by
  have hfind : (ws.reverse.find? (·.pos == w.pos)).isSome = true :=
    List.find?_isSome.mpr ⟨w, List.mem_reverse.mpr h, beq_self_eq_true w.pos⟩
  obtain ⟨w', hw'⟩ := Option.isSome_iff_exists.mp hfind
  exact ⟨w'.word, by rw [lastWrite?, hw', Option.map_some]⟩

/-- **Writes that hit each other exactly or not at all change nothing when they are made again.** -/
theorem writes_again {b : Bytes} {ws : List Write} (hb : ∀ w ∈ ws, w.pos + 4 ≤ b.size)
    (hclean : ∀ w ∈ ws, ∀ v ∈ ws, v.Clean w.pos) : (b.writes ws).writes ws = b.writes ws := by
  have hb' : ∀ w ∈ ws, w.pos + 4 ≤ (b.writes ws).size := by
    intro w hw
    rw [size_writes]
    exact hb w hw
  refine Array.ext_getElem? fun i => ?_
  by_cases hi : ∃ w ∈ ws, w.pos ≤ i ∧ i < w.pos + 4
  · -- a byte of a word written: both times it is the last word written there
    obtain ⟨w, hw, hlo, hhi⟩ := hi
    obtain ⟨v, hv⟩ := exists_lastWrite? hw
    have hfirst : (b.writes ws).word? w.pos = some v := by
      rw [word?_writes hb (hclean w hw), hv, Option.some_or]
    have hagain : ((b.writes ws).writes ws).word? w.pos = some v := by
      rw [word?_writes hb' (hclean w hw), hv, Option.some_or]
    have hk : i - w.pos < 4 := by omega
    have hfirst := getElem?_of_word? hfirst hk
    have hagain := getElem?_of_word? hagain hk
    rw [Nat.add_sub_cancel' hlo] at hfirst hagain
    rw [hfirst, hagain]
  · have hout : ∀ w ∈ ws, ¬ (w.pos ≤ i ∧ i < w.pos + 4) := fun w hw h => hi ⟨w, hw, h⟩
    exact getElem?_writes_of_outside hb' hout

end Bytes

/-! ## 2. The memory after the stores -/

namespace Program

/-- The last store for the instance of a name. -/
def lastStore? (p : Program) (name : String) : Option Store :=
  p.stores.reverse.find? (·.inst == name)

/-- A byte of the world word of an instance that a store is for. -/
def InStoredWord (p : Program) (i : Nat) : Prop :=
  ∃ s ∈ p.stores, ∃ o, p.image.instances.get? s.inst = some o ∧
    o.toNat + worldRefAt ≤ i ∧ i < o.toNat + worldRefAt + 4

theorem exists_lastStore? {p : Program} {name : String} (h : name ∈ p.stores.map (·.inst)) :
    ∃ s ∈ p.stores, p.lastStore? name = some s ∧ s.inst = name := by
  obtain ⟨s, hs, hname⟩ := List.mem_map.mp h
  have hfind : (p.stores.reverse.find? (·.inst == name)).isSome = true :=
    List.find?_isSome.mpr ⟨s, List.mem_reverse.mpr hs, beq_iff_eq.mpr hname⟩
  obtain ⟨s', hs'⟩ := Option.isSome_iff_exists.mp hfind
  have hmatch : (s'.inst == name) = true := List.find?_some (p := fun s : Store => s.inst == name) hs'
  exact ⟨s', List.mem_reverse.mp (List.mem_of_find?_eq_some hs'), hs', beq_iff_eq.mp hmatch⟩

namespace Emitted

variable {g₀ g : Graph} {l : Layout} {img : Image} {mem : Bytes} {found : List (Offset × Narrated)}
  {p : Program}

/-- **A store is for an instance and a world of the image**: it writes the offset of the one into the
record of the other. -/
theorem of_mem_stores (h : p.Emitted img g mem found) {s : Store} (hs : s ∈ p.stores) :
    ∃ o, img.instances.get? s.inst = some o ∧ img.worlds.get? s.world = some s.value ∧
      s.target.toNat = o.toNat + worldRefAt := by
  obtain ⟨t, -, ht⟩ := forall₂_of_mem_right h.stores hs
  obtain ⟨i, w, o, -, -, ho, hw, ha, hi, hn⟩ := Store.ofTransfer_eq_ok_iff.mp ht
  exact ⟨o, hi ▸ ho, hn ▸ hw, (Offset.add?_eq_some_iff.mp ha).symm⟩

/-- Two names that an image knows are one exactly if their offsets are. -/
theorem name_eq_iff (hb : img.Built g₀ l) {name name' : String} {o o' : Offset}
    (ho : img.instances.get? name = some o) (ho' : img.instances.get? name' = some o') :
    o.toNat = o'.toNat ↔ name = name' := by
  obtain ⟨q, hq, -, rfl, hn⟩ := hb.record_of_get? (k := .inst) ho
  obtain ⟨q', hq', -, rfl, hn'⟩ := hb.record_of_get? (k := .inst) ho'
  refine ⟨fun he => ?_, fun he => ?_⟩
  · rw [hb.sound.eq_of_offset_eq hq hq' (Offset.ext_toNat he), hn'] at hn
    exact (Option.some.inj hn).symm
  · rw [he, ho'] at ho
    rw [Option.some.inj ho]

theorem writes_inside (h : p.Emitted img g mem found) :
    ∀ w ∈ p.stores.map Store.write, w.pos + 4 ≤ img.bytes.size := by
  intro w hw
  obtain ⟨s, hs, rfl⟩ := List.mem_map.mp hw
  exact h.inside s hs

theorem writes_clean (hb : img.Built g₀ l) (h : p.Emitted img g mem found) :
    ∀ w ∈ p.stores.map Store.write, ∀ v ∈ p.stores.map Store.write, v.Clean w.pos := by
  intro w hw v hv
  obtain ⟨n, q, hq, hk, -, hpos⟩ := hb.stores_into h.stores w hw
  obtain ⟨m, hm⟩ := hb.stores_into h.stores v hv
  rw [hpos]
  exact hm.clean hb.sound hq hk

/-- **The world word of an instance holds what the last store for it wrote.** -/
theorem worldWord_stored (hb : img.Built g₀ l) (h : p.Emitted img g mem found) {name : String}
    {o : Offset} (ho : img.instances.get? name = some o) {s : Store} (hs : p.lastStore? name = some s) :
    mem.word? (o.toNat + worldRefAt) = some s.value.word := by
  have hpos : ∀ s ∈ p.stores, (s.inst = name ↔ s.target.toNat = o.toNat + worldRefAt) := by
    intro s hs
    obtain ⟨o', ho', -, htarget⟩ := h.of_mem_stores hs
    rw [← name_eq_iff hb ho' ho, htarget, Nat.add_right_cancel_iff]
  have hpairs : List.Forall₂ (fun s w => s ∈ p.stores ∧ w = s.write) p.stores
      (p.stores.map Store.write) := by
    rw [List.forall₂_map_right_iff, List.forall₂_same]
    exact fun s hs => ⟨hs, rfl⟩
  have hlast : (p.lastStore? name).map (·.value.word) =
      Bytes.lastWrite? (p.stores.map Store.write) (o.toNat + worldRefAt) := by
    refine find?_map_of_forall₂ (List.forall₂_reverse_iff.mpr hpairs) fun s w hsw => ?_
    obtain ⟨hmem, rfl⟩ := hsw
    refine ⟨?_, rfl⟩
    rw [Bool.eq_iff_iff, beq_iff_eq, beq_iff_eq]
    exact hpos s hmem
  have hin : s ∈ p.stores := List.mem_reverse.mp (List.mem_of_find?_eq_some hs)
  have hname : s.inst = name :=
    beq_iff_eq.mp (List.find?_some (p := fun s : Store => s.inst == name) hs)
  have hclean := h.writes_clean hb s.write (List.mem_map.mpr ⟨s, hin, rfl⟩)
  rw [show s.write.pos = o.toNat + worldRefAt from (hpos s hin).mp hname] at hclean
  rw [h.memory, Bytes.word?_writes h.writes_inside hclean, ← hlast, hs, Option.map_some, Option.some_or]

/-- **All other bytes are those of the image.** -/
theorem frame (h : p.Emitted img g mem found) {i : Nat} (hi : ¬ p.InStoredWord i) :
    mem[i]? = img.bytes[i]? := by
  rw [h.memory]
  refine Bytes.getElem?_writes_of_outside h.writes_inside fun w hw hin => hi ?_
  obtain ⟨s, hs, rfl⟩ := List.mem_map.mp hw
  obtain ⟨o, ho, -, htarget⟩ := h.of_mem_stores hs
  rw [show s.write.pos = o.toNat + worldRefAt from htarget] at hin
  exact ⟨s, hs, o, h.image ▸ ho, hin⟩

/-- **One run, over the image or over what an earlier run left.** -/
theorem run_from (hb : img.Built g₀ l) (h : p.Emitted img g mem found) {start : Bytes}
    (hsize : start.size = img.bytes.size) (hmem : start.writes (p.stores.map Store.write) = mem) :
    Machine.run ⟨start, img.spans⟩ p.body =
      (⟨.ok 0, found.map fun x => ⟨x.2.args.map (·.word), mem⟩, mem⟩, ⟨mem, img.spans⟩) := by
  show (Run.ofBody start p.body, Machine.mk (Run.ofBody start p.body).memory img.spans) = _
  rw [h.ofBody hb (Nat.le_of_eq hsize.symm) hmem (h.eval_found hb)]

end Emitted

end Program

/-! ## 3. Running again -/

/-- The machine after some runs of a body. -/
def Machine.afterRuns (m : Machine) (body : List Instruction) : Nat → Machine
  | 0 => m
  | n + 1 => ((m.afterRuns body n).run body).2

namespace Program

/-- **Every run of a program is the first one over again.** What carries the induction is that the stores
make the same memory of the image and of what a run leaves. -/
theorem Emitted.all_runs {g₀ g : Graph} {l : Layout} {img : Image} {mem : Bytes}
    {found : List (Offset × Narrated)} {p : Program} (hb : img.Built g₀ l)
    (h : p.Emitted img g mem found) (n : Nat) :
    ((Machine.ofImage img).afterRuns p.body n).run p.body =
      (⟨.ok 0, found.map fun x => ⟨x.2.args.map (·.word), mem⟩, mem⟩, ⟨mem, img.spans⟩) := by
  induction n with
  | zero => exact h.run_from hb rfl h.memory.symm
  | succ n ih =>
    have hsize : mem.size = img.bytes.size := by rw [h.memory, Bytes.size_writes]
    have hagain : mem.writes (p.stores.map Store.write) = mem := by
      rw [h.memory, Bytes.writes_again h.writes_inside (h.writes_clean hb)]
    rw [Machine.afterRuns, ih]
    exact h.run_from hb hsize hagain

/-- **The memory a program leaves is known, and running it again changes nothing.** The program may be
for another graph than the image. After a run the memory is as large as the image; the world word of
each instance that a store is for holds the offset of the world of the last such store, least significant
byte first; every other byte is the image's. Every further run, however many there were before, is
this same run: it returns 0, makes the same calls over the same memory, so that they are read as the
same texts, and leaves the same machine. -/
theorem rerun_changes_nothing {ic : ImageConfig} {ec : EmitConfig} {g₀ g : Graph} {img : Image}
    {p : Program} (hs : g₀.Sized) (himg : (Image.ofGraph ic g₀).result = .ok img)
    (hp : (emit ec img g).result = .ok p) :
    ∃ r m, (Machine.ofImage img).run p.body = (r, m) ∧ r.outcome = .ok 0 ∧
      m.spans = img.spans ∧ m.memory.size = img.bytes.size ∧
      (∀ name ∈ p.stores.map (·.inst), ∃ s o w, p.lastStore? name = some s ∧
        img.instances.get? name = some o ∧ img.worlds.get? s.world = some w ∧
        ∀ k, k < 4 → m.memory[o.toNat + worldRefAt + k]? = some (wordByte w.word k)) ∧
      (∀ i, ¬ p.InStoredWord i → m.memory[i]? = img.bytes[i]?) ∧
      ∀ n, ((Machine.ofImage img).afterRuns p.body n).run p.body = (r, m) := by
  obtain ⟨l, -, hb⟩ := Image.built_of_ofGraph hs himg
  obtain ⟨-, -, mem, found, he⟩ := emit_eq_ok_iff.mp hp
  refine ⟨_, _, he.all_runs hb 0, rfl, rfl, ?_, fun name hname => ?_, fun i hi => he.frame hi,
    he.all_runs hb⟩
  · show mem.size = img.bytes.size
    rw [he.memory, Bytes.size_writes]
  · obtain ⟨s, hs, hlast, hinst⟩ := exists_lastStore? hname
    obtain ⟨o, ho, hw, -⟩ := he.of_mem_stores hs
    rw [hinst] at ho
    exact ⟨s, o, s.value, hlast, ho, hw,
      fun k hk => Bytes.getElem?_of_word? (he.worldWord_stored hb ho hlast) hk⟩

/-- A cat that moves to the second world and back: the run leaves the offset of the first world in its
record, and so does the next one, which moves it over and back once more. -/
theorem cat_returns_twice : ∃ img p r m, (Image.ofGraph {} Sample.movingCat).result = .ok img ∧
    (emit {} img { Sample.movingCat with transfers := #[⟨⟨0⟩, ⟨1⟩⟩, ⟨⟨0⟩, ⟨0⟩⟩] }).result = .ok p ∧
    p.stores.map (·.inst) = ["i1", "i1"] ∧
    (Machine.ofImage img).run p.body = (r, m) ∧ r.outcome = .ok 0 ∧ m.run p.body = (r, m) ∧
    ∃ o w, img.instances.get? "i1" = some o ∧ img.worlds.get? "w1" = some w ∧
      ∀ k, k < 4 → m.memory[o.toNat + worldRefAt + k]? = some (wordByte w.word k) := by
  have hfacts : (Image.ofGraph {} Sample.movingCat >>= fun img =>
      emit {} img { Sample.movingCat with transfers := #[⟨⟨0⟩, ⟨1⟩⟩, ⟨⟨0⟩, ⟨0⟩⟩] }).result.toOption.map
      (fun p => (p.stores.map (·.inst), (p.lastStore? "i1").map (·.world))) =
        some (["i1", "i1"], some "w1") := by decide +kernel
  have hsized : Sample.movingCat.Sized :=
    Graph.sized_of_footprints (by decide) (by decide) (by decide)
  cases h : (Image.ofGraph {} Sample.movingCat >>= fun img =>
      emit {} img { Sample.movingCat with transfers := #[⟨⟨0⟩, ⟨1⟩⟩, ⟨⟨0⟩, ⟨0⟩⟩] }).result with
  | error e =>
    rw [h] at hfacts
    cases hfacts
  | ok p =>
    rw [h] at hfacts
    obtain ⟨hstores, hlast⟩ := Prod.mk.inj (Option.some.inj hfacts)
    obtain ⟨img, himg, hp⟩ := Traced.result_bind_eq_ok_iff.mp h
    obtain ⟨r, m, hr, hout, -, -, hwords, -, hruns⟩ := rerun_changes_nothing hsized himg hp
    have hagain := hruns 1
    rw [Machine.afterRuns, Machine.afterRuns, hr] at hagain
    obtain ⟨s, o, w, hs, ho, hw, hbytes⟩ := hwords "i1" (hstores ▸ List.mem_cons_self)
    rw [hs] at hlast
    have hworld : s.world = "w1" := Option.some.inj hlast
    rw [hworld] at hw
    exact ⟨img, p, r, m, himg, hp, hstores, hr, hout, hagain, o, w, ho, hw, hbytes⟩

end Program

end Menagerie
