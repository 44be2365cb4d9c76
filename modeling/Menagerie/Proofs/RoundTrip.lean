import Menagerie.Proofs.Settling
import Menagerie.Graph.Sample

/-! # Decoding undoes building

**What a graph declares is what its image says**, for all three kinds of record:

* `Image.Built.lookup_undeclared` -- a name that is not declared leads nowhere;
* `Image.Built.animal_decodes`, `Image.Built.inst_decodes`, `Image.Built.world_decodes` -- one kind
  each;
* `Image.decoding_undoes_building` -- **all of it, from the build alone**.
-/

namespace Menagerie.Image

namespace Built

variable {g : Graph} {l : Layout} {img : Image}

theorem view_eq (h : img.Built g l) : img.view = l.view img.bytes := by
  rw [view, h.spans]

/-- A name that is not declared leads nowhere. -/
theorem lookup_undeclared (h : img.Built g l) {k : RecordKind} {name : String}
    (hn : name ∉ g.names k) : (img.directory k).get? name = none := by
  rw [h.directory, Directory.get?_eq_none_iff, h.sound.names]
  exact hn

theorem animal_decodes (h : img.Built g l) {n : Nat} {a : Animal} (ha : g.animals[n]? = some a) :
    ∃ o, img.animals.get? a.name = some o ∧ img.view.animal? o = some a := by
  obtain ⟨p, hp, hk, rfl, hget⟩ := h.lookup (Graph.name?_animal ha)
  obtain ⟨a', ha', hread⟩ := h.memory.animal?_eq h.sound hp hk
  rw [ha] at ha'
  cases ha'
  exact ⟨p.offset, hget, h.view_eq ▸ hread⟩

/-- An instance is read back with its species' offset and the world it starts in. -/
theorem inst_decodes (h : img.Built g l) {n : Nat} {i : Instance} (hi : g.instances[n]? = some i) :
    ∃ a o w, g.animal? i.species = some a ∧ img.animals.get? a.name = some o ∧
      img.instNamed? i.name = some ⟨i.name, o, w⟩ ∧ g.StartsIn img.worlds n w := by
  obtain ⟨p, hp, hk, rfl, hget⟩ := h.lookup (Graph.name?_inst hi)
  obtain ⟨w, hword, hw⟩ := h.worldWord p hp hk
  obtain ⟨i', a, o, hi', ha, ho, hread⟩ := h.memory.inst?_eq h.sound hp hk hword
  rw [hi] at hi'
  cases hi'
  have hanimals : img.animals = l.animals := h.directory .animal
  have hworlds : img.worlds = l.worlds := h.directory .world
  have hget : img.instances.get? i.name = some p.offset := hget
  refine ⟨a, o, w, ha, hanimals ▸ ho, ?_, hworlds ▸ hw⟩
  rw [instNamed?, hget, h.view_eq]
  exact hread

/-- A world is read back with the offsets of the instances it lists. -/
theorem world_decodes (h : img.Built g l) {n : Nat} {w : World} (hw : g.worlds[n]? = some w) :
    ∃ os, img.worldNamed? w.name = some ⟨w.name, os⟩ ∧
      List.Forall₂ (fun r o => ∃ i, g.inst? r = some i ∧ img.instances.get? i.name = some o)
        w.contains os := by
  obtain ⟨p, hp, hk, rfl, hget⟩ := h.lookup (Graph.name?_world hw)
  obtain ⟨w', os, hw', hos, hread⟩ := h.memory.world?_eq h.sound hp hk
  rw [hw] at hw'
  cases hw'
  have hinstances : img.instances = l.instances := h.directory .inst
  have hget : img.worlds.get? w.name = some p.offset := hget
  refine ⟨os, ?_, ?_⟩
  · rw [worldNamed?, hget, h.view_eq]
    exact hread
  · rw [hinstances]
    exact hos.imp fun r o => Record.memberOffset_eq_ok_iff.mp

end Built

/-- **Decoding undoes building.** Each animal is read back as it was declared; each instance with its
name, the offset of its species and the world that lists it last; each world with its name and the
offsets of its instances in order. No other name is read as anything. -/
theorem decoding_undoes_building {c : ImageConfig} {g : Graph} {img : Image} (hs : g.Sized)
    (h : (ofGraph c g).result = .ok img) :
    (∀ a ∈ g.animals, img.animalNamed? a.name = some a) ∧
    (∀ n i, g.instances[n]? = some i → ∃ a o w,
      g.animal? i.species = some a ∧ img.animals.get? a.name = some o ∧ img.view.animal? o = some a ∧
      img.instNamed? i.name = some ⟨i.name, o, w⟩ ∧ g.StartsIn img.worlds n w) ∧
    (∀ w ∈ g.worlds, ∃ os, img.worldNamed? w.name = some ⟨w.name, os⟩ ∧
      List.Forall₂ (fun r o => ∃ i, g.inst? r = some i ∧ img.instances.get? i.name = some o)
        w.contains os) ∧
    (∀ name, (name ∉ g.names .animal → img.animalNamed? name = none) ∧
      (name ∉ g.names .inst → img.instNamed? name = none) ∧
      (name ∉ g.names .world → img.worldNamed? name = none)) := by
  obtain ⟨l, -, hb⟩ := built_of_ofGraph hs h
  refine ⟨fun a ha => ?_, fun n i hi => ?_, fun w hw => ?_, fun name => ⟨fun hn => ?_, fun hn => ?_,
    fun hn => ?_⟩⟩
  · obtain ⟨n, hn⟩ := Array.mem_iff_getElem?.mp ha
    obtain ⟨o, hget, hread⟩ := hb.animal_decodes hn
    rw [animalNamed?, hget]
    exact hread
  · obtain ⟨a, o, w, ha, ho, hread, hw⟩ := hb.inst_decodes hi
    obtain ⟨o', ho', hanimal⟩ := hb.animal_decodes ha
    rw [ho] at ho'
    cases ho'
    exact ⟨a, o, w, ha, ho, hanimal, hread, hw⟩
  · obtain ⟨n, hn⟩ := Array.mem_iff_getElem?.mp hw
    exact hb.world_decodes hn
  · have hget : img.animals.get? name = none := hb.lookup_undeclared hn
    rw [animalNamed?, hget]
    rfl
  · have hget : img.instances.get? name = none := hb.lookup_undeclared hn
    rw [instNamed?, hget]
    rfl
  · have hget : img.worlds.get? name = none := hb.lookup_undeclared hn
    rw [worldNamed?, hget]
    rfl

/-- The zoo, where the owl has an empty gene, is built and read back. -/
theorem zoo_decodes : ∃ img, (ofGraph {} Sample.zoo).result = .ok img ∧
    img.animalNamed? "owl" = some ⟨"owl", "", "hoot"⟩ ∧ img.animalNamed? "cow" = none := by
  have hok : (ofGraph {} Sample.zoo).result.isOk = true := by decide +kernel
  have hsized : Sample.zoo.Sized := Graph.sized_of_footprints (by decide) (by decide) (by decide)
  cases h : (ofGraph {} Sample.zoo).result with
  | error e =>
    rw [h] at hok
    cases hok
  | ok img =>
    obtain ⟨hanimals, -, -, hother⟩ := decoding_undoes_building hsized h
    exact ⟨img, rfl, hanimals ⟨"owl", "", "hoot"⟩ (by simp [Sample.zoo]), (hother "cow").1 (by decide)⟩

end Menagerie.Image
