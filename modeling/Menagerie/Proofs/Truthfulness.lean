import Std.Data.String.ToNat
import Menagerie.Graph.Sample
import Menagerie.Proofs.Refusals

/-! # Compile errors are true

A compilation reports the faults of a graph first and goes on; the error it stops with comes from a
later stage, which looks at the graph on its own. Both say the same:

* `Graph.Text` -- the texts of a graph, each with the record and the field it stands in;
* `Compiler.Justified` -- what an error says about the graph;
* `Layout.Refused.justified`, `Image.Contested.justified`, `Program.Refused.justified` -- what each
  stage refuses is there;
* `Compiler.errors_are_true` -- **whatever a compilation stops with is true of the graph**, and is among
  the faults reported if it is a fault of names, references or placement.
-/

namespace Menagerie

/-! ## 1. What an error says -/

/-- The texts of a graph: kind and name of the record, the field, and the text. -/
inductive Graph.Text (g : Graph) : RecordKind → String → String → String → Prop where
  | gene {a : Animal} (h : a ∈ g.animals) : Text g .animal a.name "gene" a.gene
  | animalName {a : Animal} (h : a ∈ g.animals) : Text g .animal a.name "name" a.name
  | sound {a : Animal} (h : a ∈ g.animals) : Text g .animal a.name "sound" a.sound
  | instName {i : Instance} (h : i ∈ g.instances) : Text g .inst i.name "name" i.name
  | worldName {w : World} (h : w ∈ g.worlds) : Text g .world w.name "name" w.name

namespace Compiler

/-- **What an error says about the graph.** Names, references and repeated placements are told by the
faults reported. A reference fails where the graph holds it, as a species, in a world's list or at an
end of a transfer, and never when an instance is narrated or stored. Room is short for a first part of
the records, or for the pages. -/
def Justified (c : Compiler) (g : Graph) : CompileError → Prop
  | .duplicateName kind name => .duplicateName kind name ∈ g.violations
  | .unresolved (.species inst) _ => .unknownSpecies inst ∈ g.violations
  | .unresolved (.listing world) _ => ∃ position, .unknownInstance world position ∈ g.violations
  | .unresolved (.transfer position side) _ => .unknownTransferTarget position side ∈ g.violations
  | .unresolved (.narrated _) _ => False
  | .unresolved (.stored _) _ => False
  | .duplicatePlacement inst first second =>
    c.image.strict = true ∧ .duplicatePlacement inst first second ∈ g.violations
  | .unencodable kind name field ch => ∃ s, g.Text kind name field s ∧ Bytes.firstWide? s = some ch
  | .dereference inst link fault => link = .world ∧ fault = .unset ∧
    ∃ n i, g.instances[n]? = some i ∧ i.name = inst ∧
      (∀ w ∈ g.worlds, ¬ w.Lists n) ∧ ∀ t ∈ g.transfers, t.subject.index ≠ n
  | .overflow required limit =>
    (limit = c.image.limit ∧ limit < required ∧ required ≤ g.footprint) ∨
    (limit = c.emit.maxPages * pageSize ∧ required = g.footprint ∧
      c.emit.maxPages < c.emit.pagesFor g.footprint)

end Compiler

/-! ## 2. Layouts and images -/

section Stages

variable {c : Compiler} {g : Graph} {e : CompileError}

theorem Graph.Text.justified {kind : RecordKind} {name field s : String}
    (ht : g.Text kind name field s) (h : Record.wide? kind name field s = some e) :
    c.Justified g e := by
  obtain ⟨ch, hch, rfl⟩ := Option.map_eq_some_iff.mp h
  exact ⟨s, ht, hch⟩

/-- What keeps a declaration from being encoded is there. -/
theorem Graph.justified_of_fault? {k : RecordKind} {n : Nat} (h : g.fault? k n = some e) :
    c.Justified g e := by
  cases k with
  | animal =>
    obtain ⟨a, ha, h⟩ := Option.bind_eq_some_iff.mp h
    have hmem : a ∈ g.animals := Array.mem_of_getElem? ha
    rcases Option.or_eq_some_iff.mp h with h | ⟨-, h⟩
    · exact (Text.gene hmem).justified h
    · rcases Option.or_eq_some_iff.mp h with h | ⟨-, h⟩
      · exact (Text.animalName hmem).justified h
      · exact (Text.sound hmem).justified h
  | inst =>
    obtain ⟨i, hi, h⟩ := Option.bind_eq_some_iff.mp h
    have hmem : i ∈ g.instances := Array.mem_of_getElem? hi
    rw [Instance.fault?] at h
    cases hs : g.animal? i.species with
    | none =>
      rw [hs] at h
      cases h
      exact unknownSpecies_reported hmem hs
    | some a =>
      rw [hs] at h
      exact (Text.instName hmem).justified h
  | world =>
    obtain ⟨w, hw, h⟩ := Option.bind_eq_some_iff.mp h
    have hmem : w ∈ g.worlds := Array.mem_of_getElem? hw
    rcases Option.or_eq_some_iff.mp h with h | ⟨-, h⟩
    · exact (Text.worldName hmem).justified h
    · obtain ⟨r, hr, rfl⟩ := Option.map_eq_some_iff.mp h
      have hnone : g.inst? r = none := Option.isNone_iff_eq_none.mp
        (List.find?_some (p := fun r => (g.inst? r).isNone) hr)
      obtain ⟨position, hpos⟩ := List.mem_iff_getElem?.mp (List.mem_of_find?_eq_some hr)
      exact ⟨position, unknownInstance_reported hmem hpos hnone⟩

theorem Layout.Refused.justified (h : Layout.Refused c.image g e) : c.Justified g e := by
  cases h with
  | encoding h => exact Graph.justified_of_fault? h
  | name h hn => exact Graph.duplicateName_reported h hn
  | size h hle => exact .inl ⟨rfl, h, hle⟩

theorem Image.Contested.justified (hs : c.image.strict = true) (h : Image.Contested g e) :
    c.Justified g e := by
  obtain ⟨ys, l, zs, i, first, hsplit, -, hi, hfirst, rfl⟩ := h
  refine ⟨hs, Graph.listing_reported hsplit ?_⟩
  rw [Graph.listingFault?, hi, hfirst]
  rfl

/-! ## 3. Programs -/

variable {l : Layout} {img : Image}

/-- Over its own image, a graph has a store for each transfer between an instance and a world that
exist. -/
theorem Image.Built.dangling_of_ofTransfer (hb : img.Built g l) {t : Transfer} {n : Nat}
    (h : Store.ofTransfer g img t n = .error e) :
    ∃ side target, e = .unresolved (.transfer n side) target ∧ g.Dangling t side := by
  cases hi : g.inst? t.subject with
  | none =>
    rw [Store.ofTransfer, hi] at h
    exact ⟨.subject, _, (Except.error.inj h).symm, hi⟩
  | some i =>
    cases hw : g.world? t.destination with
    | none =>
      rw [Store.ofTransfer, hi, hw] at h
      exact ⟨.destination, _, (Except.error.inj h).symm, hw⟩
    | some w =>
      obtain ⟨s, hs⟩ := hb.store_exists n ⟨i, hi⟩ ⟨w, hw⟩
      rw [hs] at h
      cases h

/-- **An instance whose world word stays unset is listed by no world and moved by no transfer.** -/
theorem Image.Built.homeless_of_unset (hb : img.Built g l) {stores : List Store}
    (hstores : List.Forall₂ (fun t s => Store.ofTransfer g img t.1 t.2 = .ok s)
      g.transfers.toList.zipIdx stores) {q : Placed} (hq : q ∈ l.records)
    (hk : q.record.kind = .inst)
    (hword : (img.bytes.writes (stores.map Store.write)).word? (q.offset.toNat + worldRefAt) =
      some Offset.unset.word) :
    (∀ w ∈ g.worlds, ¬ w.Lists q.index) ∧ ∀ t ∈ g.transfers, t.subject.index ≠ q.index := by
  obtain ⟨o, ho, hend⟩ := hb.worldWord_after hstores hq hk
  rw [hword] at ho
  have hunset : o = .unset := by
    cases o
    exact congrArg Offset.mk (Option.some.inj ho).symm
  have hnone : ¬ ∃ w, g.finalWorld? q.index = some w := by
    intro ⟨w, hw⟩
    -- the final world has a record, and no record lies at the mark `unset`
    rw [Graph.EndsIn, hw, hunset] at hend
    obtain ⟨r, hr, -, hro, -⟩ := (hb.sound.named .world w.name _).mp hend
    exact hb.sound.offset_ne_unset hr hro
  have hdest : ∀ t ∈ g.transfers, ∃ w, g.world? t.destination = some w := by
    intro t ht
    obtain ⟨w, hw, -⟩ := hb.destination_found hstores ht
    exact ⟨w, hw⟩
  rw [Graph.finalWorld?_isSome_iff hdest] at hnone
  refine ⟨fun w hw hr => hnone (.inl ⟨w, hw, hr⟩), fun t ht hsub => hnone (.inr ⟨t, ht, hsub⟩)⟩

theorem Program.Refused.justified (hb : img.Built g l) (hsize : img.size = g.footprint)
    (h : Program.Refused c.emit img g e) : c.Justified g e := by
  cases h with
  | pages h => exact .inr ⟨rfl, hsize, hsize ▸ h⟩
  | transfer ht h =>
    obtain ⟨side, target, rfl, hside⟩ := hb.dangling_of_ofTransfer h
    exact Graph.unknownTransferTarget_reported ht hside
  | absent hi h =>
    obtain ⟨n, hn⟩ := Array.mem_iff_getElem?.mp hi
    obtain ⟨p, -, -, -, hget⟩ := hb.lookup (Graph.name?_inst hn)
    rw [show img.instances.get? _ = _ from hget] at h
    cases h
  | @unplaced stores ys zs i base hstores hsplit _ hbase hword =>
    have hn : g.instances[ys.length]? = some i := by
      rw [← Array.getElem?_toList, hsplit, List.getElem?_append_right (Nat.le_refl _), Nat.sub_self]
      rfl
    obtain ⟨q, hq, hk, hindex, hget⟩ := hb.lookup (Graph.name?_inst hn)
    rw [show img.instances.get? _ = _ from hget] at hbase
    cases hbase
    exact ⟨rfl, rfl, ys.length, i, hn, rfl, hindex ▸ hb.homeless_of_unset hstores hq hk hword⟩

/-! ## 4. Compilations -/

/-- **An error of a compilation is justified.** -/
theorem Compiler.justified_of_compile (hs : g.Sized) (h : (c.compile g).result = .error e) :
    c.Justified g e := by
  rw [result_compile] at h
  rcases Traced.result_bind_eq_error_iff.mp h with h | ⟨img, himg, h⟩
  · rcases Traced.result_bind_eq_error_iff.mp h with h | ⟨l, hl, h⟩
    · exact (Layout.refused_of_ofGraph hs h).justified
    · obtain ⟨⟨as, is, ws, hrows⟩, -⟩ := Layout.ofGraph_rows hl
      obtain ⟨hstrict, hcontest⟩ := Image.contested_of_ofLayout (Layout.sound_of_ofGraph hs hl).1
        hrows.encodable.2.2 h
      exact hcontest.justified hstrict
  · obtain ⟨l, -, hb⟩ := Image.built_of_ofGraph hs himg
    exact (Program.refused_of_emit hb h).justified hb (Image.size_of_ofGraph hs himg)

end Stages

/-- The name that stands for a transfer tells its position. -/
theorem Site.eq_of_transfer_name {j k : Nat} (h : s!"transfer #{j}" = s!"transfer #{k}") : j = k := by
  have hdigits : Nat.toDigits 10 j = Nat.toDigits 10 k := by
    simpa using congrArg String.toList h
  exact Nat.repr_inj.mp (congrArg String.ofList hdigits)

namespace Compiler

variable {c : Compiler} {g : Graph}

/-- What a justified error about a reference says, by the texts of the place that holds it. -/
theorem Justified.unresolved {site : Site} {target : Target}
    (h : c.Justified g (.unresolved site target)) :
    (site.field = "species" → .unknownSpecies site.name ∈ g.violations) ∧
    (site.field = "contains" → ∃ position, .unknownInstance site.name position ∈ g.violations) ∧
    (∀ side : TransferEnd, site.field = side.label → ∃ k : Nat, site.name = s!"transfer #{k}" ∧
      ∀ j : Nat, site.name = s!"transfer #{j}" → .unknownTransferTarget j side ∈ g.violations) ∧
    site.field ∈ ["species", "contains", "instance", "to"] := by
  have hlabel : ∀ side : TransferEnd, side.label ≠ "species" ∧ side.label ≠ "contains" ∧
      side.label ∈ ["species", "contains", "instance", "to"] := by
    intro side
    cases side <;> decide
  have hinj : ∀ s s' : TransferEnd, s.label = s'.label → s = s' := by
    intro s s'
    cases s <;> cases s' <;> decide
  cases site with
  | species inst =>
    refine ⟨fun _ => h, fun hf : "species" = "contains" => absurd hf (by decide), fun side hf => ?_,
      List.mem_cons_self⟩
    exact absurd hf.symm (hlabel side).1
  | listing world =>
    refine ⟨fun hf : "contains" = "species" => absurd hf (by decide), fun _ => h, fun side hf => ?_,
      List.mem_cons_of_mem _ List.mem_cons_self⟩
    exact absurd hf.symm (hlabel side).2.1
  | transfer k side =>
    refine ⟨fun hf => absurd hf (hlabel side).1, fun hf => absurd hf (hlabel side).2.1,
      fun side' hf => ⟨k, rfl, fun j hj => ?_⟩, (hlabel side).2.2⟩
    rw [← Site.eq_of_transfer_name hj, ← hinj side side' hf]
    exact h
  | narrated inst => exact h.elim
  | stored inst => exact h.elim

/-- **Whatever a compilation stops with is true of the graph.** A name or a reference that it refuses
is among the faults reported, and so is an instance listed again, which is refused only if the
configuration is strict. A text that it cannot encode stands in the graph, and the character it names
is the first one without a byte. An instance that it cannot narrate has an unset world word: no world
lists it and no transfer moves it. What does not fit exceeds the limit of the image, or needs more
pages than there may be. -/
theorem errors_are_true {e : CompileError} (hs : g.Sized) (h : (c.compile g).result = .error e) :
    (∀ kind name, e = .duplicateName kind name → .duplicateName kind name ∈ g.violations) ∧
    (∀ site target, e = .unresolved site target →
      (site.field = "species" → .unknownSpecies site.name ∈ g.violations) ∧
      (site.field = "contains" → ∃ position, .unknownInstance site.name position ∈ g.violations) ∧
      (∀ side : TransferEnd, site.field = side.label → ∃ k : Nat, site.name = s!"transfer #{k}" ∧
        ∀ j : Nat, site.name = s!"transfer #{j}" → .unknownTransferTarget j side ∈ g.violations) ∧
      site.field ∈ ["species", "contains", "instance", "to"]) ∧
    (∀ inst first second, e = .duplicatePlacement inst first second →
      c.image.strict = true ∧ .duplicatePlacement inst first second ∈ g.violations) ∧
    (∀ kind name field ch, e = .unencodable kind name field ch → ∃ s, g.Text kind name field s ∧
      0xFF < ch.toNat ∧
      ∃ before after, s.toList = before ++ ch :: after ∧ ∀ d ∈ before, d.toNat ≤ 0xFF) ∧
    (∀ inst link fault, e = .dereference inst link fault → link.label = "world-ref" ∧ fault = .unset ∧
      ∃ n i, g.instances[n]? = some i ∧ i.name = inst ∧
        (∀ w ∈ g.worlds, ¬ w.Lists n) ∧ ∀ t ∈ g.transfers, t.subject.index ≠ n) ∧
    (∀ required limit, e = .overflow required limit →
      (limit = c.image.limit ∧ limit < required ∧ required ≤ g.footprint) ∨
      (limit = c.emit.maxPages * pageSize ∧ required = g.footprint ∧
        c.emit.maxPages < c.emit.pagesFor g.footprint)) := by
  have hj := justified_of_compile hs h
  refine ⟨?_, ?_, ?_, ?_, ?_, ?_⟩
  · intro kind name he
    subst he
    exact hj
  · intro site target he
    subst he
    exact hj.unresolved
  · intro inst first second he
    subst he
    exact hj
  · intro kind name field ch he
    subst he
    obtain ⟨s, hs, hch⟩ := hj
    exact ⟨s, hs, Bytes.firstWide?_eq_some_iff.mp hch⟩
  · intro inst link fault he
    subst he
    obtain ⟨rfl, hfault, hinst⟩ := hj
    exact ⟨rfl, hfault, hinst⟩
  · intro required limit he
    subst he
    exact hj

/-- The cat that two worlds list: a strict compilation names both worlds, and any other one stops at
the cat that none lists. -/
theorem shared_cat_is_refused : Sample.sharedCat.Sized ∧
    (∃ inst first second, (compile { image := { strict := true } } Sample.sharedCat).result =
        .error (.duplicatePlacement inst first second) ∧
      .duplicatePlacement inst first second ∈ Sample.sharedCat.violations) ∧
    ∃ link fault, (compile {} Sample.sharedCat).result = .error (.dereference "" link fault) ∧
      link.label = "world-ref" ∧ ∃ n i, Sample.sharedCat.instances[n]? = some i ∧ i.name = "" ∧
        ∀ w ∈ Sample.sharedCat.worlds, ¬ w.Lists n := by
  have hsized : Sample.sharedCat.Sized :=
    Graph.sized_of_footprints (by decide) (by decide) (by decide)
  have hstrict : (fun _ => ()) <$> (compile { image := { strict := true } } Sample.sharedCat).result =
      .error (.duplicatePlacement "i1" "w1" "w2") := by decide +kernel
  have hlenient : (fun _ => ()) <$> (compile {} Sample.sharedCat).result =
      .error (.dereference "" .world .unset) := by decide +kernel
  rw [map_eq_error_iff] at hstrict hlenient
  refine ⟨hsized, ⟨_, _, _, hstrict, ?_⟩, _, _, hlenient, ?_⟩
  · exact ((errors_are_true hsized hstrict).2.2.1 _ _ _ rfl).2
  · obtain ⟨hlink, -, n, i, hi, hname, hworlds, -⟩ :=
      (errors_are_true hsized hlenient).2.2.2.2.1 _ _ _ rfl
    exact ⟨hlink, n, i, hi, hname, hworlds⟩

end Compiler

end Menagerie
