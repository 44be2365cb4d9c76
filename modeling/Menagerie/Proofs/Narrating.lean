import Menagerie.Compiler
import Menagerie.Proofs.Execution

/-! # What a compiled program narrates

* `Graph.lastTransfer?`, `Graph.finalWorld?` -- where an instance is in the end: at the destination of
  its last transfer, or else in the last world that lists it;
* `Program.Emitted.worldWord` -- **after the stores the world word of an instance names its final
  world**: the last transfer wins over all others, and over all listings;
* `Compiler.program_narrates_graph` -- **a compiled program tells, for each instance in order, the
  final world, the species and the name of the instance**.
-/

namespace Menagerie

/-! ## 1. Where an instance is in the end -/

namespace Graph

/-- The last transfer of the instance at a position. -/
def lastTransfer? (g : Graph) (n : Nat) : Option Transfer :=
  g.transfers.toList.reverse.find? (·.subject.index == n)

theorem of_lastTransfer? {g : Graph} {n : Nat} {t : Transfer} (h : g.lastTransfer? n = some t) :
    t ∈ g.transfers ∧ t.subject.index = n := by
  have ht : (t.subject.index == n) = true :=
    List.find?_some (p := fun t : Transfer => t.subject.index == n) h
  exact ⟨Array.mem_toList_iff.mp (List.mem_reverse.mp (List.mem_of_find?_eq_some h)),
    beq_iff_eq.mp ht⟩

theorem lastTransfer?_eq_none_iff {g : Graph} {n : Nat} :
    g.lastTransfer? n = none ↔ ∀ t ∈ g.transfers, t.subject.index ≠ n := by
  rw [lastTransfer?, List.find?_eq_none]
  simp only [List.mem_reverse, Array.mem_toList_iff, beq_iff_eq, ne_eq]

/-- **The world that the instance at a position is in at the end**: the destination of its last transfer,
and without a transfer the last world that lists it. -/
def finalWorld? (g : Graph) (n : Nat) : Option World :=
  match g.lastTransfer? n with
  | some t => g.world? t.destination
  | none => g.lastListing? n

/-- The offset that a directory has for the world a reference names. -/
def worldOffset (g : Graph) (worlds : Directory) (r : Ref .world) : Offset :=
  ((g.world? r).bind fun w => worlds.get? w.name).getD .unset

/-- Where the transfers leave the instance at a position: in its final world, or nowhere. -/
def EndsIn (g : Graph) (worlds : Directory) (n : Nat) (o : Offset) : Prop :=
  match g.finalWorld? n with
  | some w => worlds.get? w.name = some o
  | none => o = .unset

end Graph

theorem Graph.mem_of_finalWorld? {g : Graph} {n : Nat} {w : World}
    (h : g.finalWorld? n = some w) : w ∈ g.worlds := by
  unfold finalWorld? at h
  split at h
  · exact Array.mem_of_getElem? h
  · exact (of_lastListing? h).1

/-- A world found by its name is the world whose record lies there. -/
theorem Layout.Sound.world_unique {g : Graph} {l : Layout} (h : l.Sound g) {w w' : World} {q : Placed}
    (hw : w ∈ g.worlds) (hget : l.worlds.get? w.name = some q.offset) (hq : q ∈ l.records)
    (hw' : g.worlds[q.index]? = some w') : w' = w := by
  obtain ⟨m, hm⟩ := Array.mem_iff_getElem?.mp hw
  obtain ⟨r, hr, -, hro, hn⟩ := (h.named .world w.name q.offset).mp hget
  rw [h.eq_of_offset_eq hr hq hro] at hn
  rw [← h.distinct (Graph.name?_world hm) hn, hm] at hw'
  exact (Option.some.inj hw').symm

/-! ## 2. The world words after the stores -/

namespace Image.Built

variable {g : Graph} {l : Layout} {img : Image} {stores : List Store}

/-- Each transfer writes its destination's offset into the world word of its subject. -/
theorem transfers_into (hb : img.Built g l)
    (h : List.Forall₂ (fun t s => Store.ofTransfer g img t.1 t.2 = .ok s)
      g.transfers.toList.zipIdx stores) :
    List.Forall₂ (fun t w => l.Into t.subject.index w ∧
      w.word = (g.worldOffset l.worlds t.destination).word)
      g.transfers.toList (stores.map Store.write) := by
  have hworlds : img.worlds = l.worlds := hb.directory .world
  rw [List.forall₂_map_right_iff, ← List.zipIdx_map_fst 0 g.transfers.toList,
    List.forall₂_map_left_iff]
  refine h.imp fun t s hs => ?_
  obtain ⟨i, n, hi, hn, hinto⟩ := Store.into_of_ofTransfer hb hs
  obtain ⟨-, w, -, -, hw, -, hv, -, -, -⟩ := Store.ofTransfer_eq_ok_iff.mp hs
  have hindex : n = t.1.subject.index := hb.sound.distinct hn (Graph.name?_inst hi)
  refine ⟨hindex ▸ hinto, ?_⟩
  rw [Graph.worldOffset, hw, Option.bind_some, ← hworlds, hv]
  rfl

/-- A transfer that has a store goes to a world that has a record. -/
theorem destination_found (hb : img.Built g l)
    (h : List.Forall₂ (fun t s => Store.ofTransfer g img t.1 t.2 = .ok s)
      g.transfers.toList.zipIdx stores) {t : Transfer} (ht : t ∈ g.transfers) :
    ∃ w, g.world? t.destination = some w ∧
      l.worlds.get? w.name = some (g.worldOffset l.worlds t.destination) := by
  have hworlds : img.worlds = l.worlds := hb.directory .world
  obtain ⟨n, hn⟩ := List.mem_iff_getElem?.mp (Array.mem_toList_iff.mpr ht)
  have hz : g.transfers.toList.zipIdx[n]? = some (t, n) := by
    rw [List.getElem?_zipIdx, hn, Option.map_some, Nat.zero_add]
  obtain ⟨s, -, hs⟩ := forall₂_getElem?_left h hz
  obtain ⟨-, w, -, -, hw, -, hv, -, -, -⟩ := Store.ofTransfer_eq_ok_iff.mp hs
  rw [hworlds] at hv
  refine ⟨w, hw, ?_⟩
  rw [Graph.worldOffset, hw, Option.bind_some, hv, Option.getD_some]

/-- **After the stores the world word of an instance names its final world.** -/
theorem worldWord_after (hb : img.Built g l)
    (h : List.Forall₂ (fun t s => Store.ofTransfer g img t.1 t.2 = .ok s)
      g.transfers.toList.zipIdx stores) {q : Placed} (hq : q ∈ l.records)
    (hk : q.record.kind = .inst) :
    ∃ o : Offset, (img.bytes.writes (stores.map Store.write)).word? (q.offset.toNat + worldRefAt) =
      some o.word ∧ g.EndsIn l.worlds q.index o := by
  rw [hb.memory.worldWord_writes hb.sound (hb.transfers_into h) hq hk, ← Graph.lastTransfer?]
  unfold Graph.EndsIn Graph.finalWorld?
  cases ht : g.lastTransfer? q.index with
  | none =>
    obtain ⟨o, hword, hstart⟩ := hb.worldWord q hq hk
    exact ⟨o, hword, hstart⟩
  | some t =>
    obtain ⟨w, hw, hget⟩ := hb.destination_found h (Graph.of_lastTransfer? ht).1
    refine ⟨g.worldOffset l.worlds t.destination, rfl, ?_⟩
    simp only [hw]
    exact hget

end Image.Built

/-! ## 3. What is narrated -/

/-- **The narration of an instance tells its final world, its species and its name.** -/
theorem Program.Emitted.decode_found {g : Graph} {l : Layout} {img : Image} {mem : Bytes}
    {found : List (Offset × Narrated)} {p : Program} (hb : img.Built g l)
    (h : p.Emitted img g mem found) {n : Nat} {i : Instance} {x : Offset × Narrated}
    (hi : g.instances[n]? = some i) (hx : found[n]? = some x) :
    ∃ a w, g.animal? i.species = some a ∧ g.finalWorld? n = some w ∧
      Narration.decode? (l.view mem) x.2.args = some ⟨w.name, a.gene, a.name, i.name, a.sound⟩ := by
  have hmem := h.memory_shape hb
  have hi' : g.instances.toList[n]? = some i := by rw [Array.getElem?_toList, hi]
  obtain ⟨x', hx', q, hq, hk, ho, hn, xw, ow, xs, os, hwalk⟩ := forall₂_getElem?_left (h.walks hb) hi'
  rw [hx] at hx'
  cases hx'
  have hindex : q.index = n := hb.sound.distinct hn (Graph.name?_inst hi)
  rw [← ho] at hwalk
  obtain ⟨i'', a, w, hi'', ha, ⟨r, hr, -, hrw, hw⟩, hread⟩ := hmem.decode_walk hb.sound hq hk hwalk
  rw [hindex, hi] at hi''
  cases hi''
  -- the world of the walk is the one that the word after the stores names
  obtain ⟨o, hword, hend⟩ := hb.worldWord_after h.stores hq hk
  rw [← h.memory, hmem.world_of_walk hb.sound hq hk hwalk] at hword
  have how : o = ow := by
    cases o
    cases ow
    exact congrArg Offset.mk (Option.some.inj hword).symm
  rw [how, hindex] at hend
  unfold Graph.EndsIn at hend
  cases hf : g.finalWorld? n with
  | none =>
    rw [hf] at hend
    have hset := hwalk.world.2.1
    rw [hend, Offset.isUnset, beq_self_eq_true] at hset
    exact absurd hset.symm Bool.false_ne_true
  | some w' =>
    rw [hf, ← hrw] at hend
    have hw' := hb.sound.world_unique (Graph.mem_of_finalWorld? hf) hend hr hw
    exact ⟨a, w', ha, rfl, hw' ▸ hread⟩

/-- Where every call can be read, none is left unread. -/
theorem Machine.unread_eq_nil {m : Machine} {r : Run}
    (h : ∀ call ∈ r.calls, ∃ n, narration? m.spans call = some n) : m.unread r = [] := by
  rw [unread, List.map_eq_nil_iff, List.filter_eq_nil_iff]
  intro call hcall
  obtain ⟨n, hn⟩ := h call hcall
  rw [hn, Option.isNone_some]
  exact Bool.false_ne_true

namespace Compiler

/-- Faults are reported and nothing more. -/
theorem result_compile (c : Compiler) (g : Graph) : (c.compile g).result =
    (Image.ofGraph c.image g >>= fun img => Program.emit c.emit img g).result := by
  have hfaults : (reportFaults g).result = .ok () := rfl
  rw [compile, Traced.result_bind, hfaults]
  rfl

theorem result_of_image {c : Compiler} {g : Graph} {img : Image}
    (h : (Image.ofGraph c.image g).result = .ok img) :
    (c.compile g).result = (Program.emit c.emit img g).result := by
  rw [result_compile, Traced.result_bind_of_ok h]

theorem result_of_no_image {c : Compiler} {g : Graph} {e : CompileError}
    (h : (Image.ofGraph c.image g).result = .error e) :
    (c.compile g).result = .error e := by
  rw [result_compile, Traced.result_bind_eq_error_iff]
  exact .inl h

theorem compile_eq_ok_iff {c : Compiler} {g : Graph} {p : Program} :
    (c.compile g).result = .ok p ↔ ∃ img, (Image.ofGraph c.image g).result = .ok img ∧
      (Program.emit c.emit img g).result = .ok p := by
  rw [result_compile, Traced.result_bind_eq_ok_iff]

/-- **A compiled program narrates its graph.** It returns 0, and hands out one call for each instance,
in the order of declaration. The call can be read, and tells the world the instance is in at the end,
the gene and the name of its species, its own name, and the species' sound. -/
theorem program_narrates_graph {c : Compiler} {g : Graph} {p : Program} (hs : g.Sized)
    (h : (c.compile g).result = .ok p) :
    ∃ r m, (Machine.ofImage p.image).run p.body = (r, m) ∧ r.outcome = .ok 0 ∧ m.unread r = [] ∧
      List.Forall₂ (fun x call => ∃ a w, g.animal? x.1.species = some a ∧
          g.finalWorld? x.2 = some w ∧
          Machine.narration? m.spans call = some ⟨w.name, a.gene, a.name, x.1.name, a.sound⟩)
        g.instances.toList.zipIdx r.calls := by
  obtain ⟨img, himg, hp⟩ := compile_eq_ok_iff.mp h
  obtain ⟨l, -, hb⟩ := Image.built_of_ofGraph hs himg
  obtain ⟨-, -, mem, found, he⟩ := Program.emit_eq_ok_iff.mp hp
  obtain ⟨hrun, -⟩ := he.run hb
  rw [he.image]
  have hlen : g.instances.toList.length = found.length := he.resolved.length_eq
  have hcalls : List.Forall₂ (fun (x : Instance × Nat) call => ∃ a w, g.animal? x.1.species = some a ∧
      g.finalWorld? x.2 = some w ∧
      Machine.narration? img.spans call = some ⟨w.name, a.gene, a.name, x.1.name, a.sound⟩)
      g.instances.toList.zipIdx (found.map fun x => ⟨x.2.args.map (·.word), mem⟩) := by
    rw [List.forall₂_map_right_iff, hb.spans]
    refine forall₂_zipIdx hlen fun n i x hi hx => ?_
    rw [Array.getElem?_toList] at hi
    exact he.decode_found hb hi hx
  refine ⟨_, _, hrun, rfl, ?_, hcalls⟩
  refine Machine.unread_eq_nil fun call hcall => ?_
  obtain ⟨x, -, a, w, -, -, hread⟩ := forall₂_of_mem_right hcalls hcall
  exact ⟨_, hread⟩

/-- The cat that moves is narrated in the world it moved to. -/
theorem moving_cat_narrates : ∃ p r m call, (compile {} Sample.movingCat).result = .ok p ∧
    (Machine.ofImage p.image).run p.body = (r, m) ∧ r.outcome = .ok 0 ∧ m.unread r = [] ∧
    r.calls = [call] ∧
    Machine.narration? m.spans call = some ⟨"w2", "G1", "cat", "i1", "meow"⟩ := by
  have hok : (compile {} Sample.movingCat).result.isOk = true := by decide +kernel
  have hsized : Sample.movingCat.Sized :=
    Graph.sized_of_footprints (by decide) (by decide) (by decide)
  cases h : (compile {} Sample.movingCat).result with
  | error e =>
    rw [h] at hok
    cases hok
  | ok p =>
    obtain ⟨r, m, hr, hout, hread, hcalls⟩ := program_narrates_graph hsized h
    have hinsts : Sample.movingCat.instances.toList.zipIdx = [(⟨"i1", ⟨0⟩⟩, 0)] := rfl
    rw [hinsts, List.forall₂_cons_left_iff] at hcalls
    obtain ⟨call, rest, ⟨a, w, ha, hw, hcall⟩, hrest, hall⟩ := hcalls
    rw [List.forall₂_nil_left_iff] at hrest
    have ha' : some a = some ⟨"cat", "G1", "meow"⟩ := ha.symm
    have hw' : some w = some ⟨"w2", []⟩ := hw.symm
    cases ha'
    cases hw'
    exact ⟨p, r, m, call, rfl, hr, hout, hread, hrest ▸ hall, hcall⟩

end Compiler

end Menagerie
