import Menagerie.Graph.Sample
import Menagerie.Proofs.Refusals

/-! # Programs over the image of another graph

A program may be emitted over an image that was built from an earlier graph. Its records are then found
by name, and its stores go into words that other worlds have settled. Emission checks every step it
takes there; most of these checks never fail:

* `Transfer.Lacks` -- what a transfer can lack: one of its declarations, or the name of one in the image;
* `Image.Built.ofTransfer_eq_error_iff` -- **a transfer has no store exactly if it lacks something**: no
  world word is out of reach;
* `Program.emit_dereferences_iff` -- the one walk that fails is that of the first instance in no world;
* `Program.refusals_over_any_image` -- **over the image of any graph, emission is refused for pages, for
  transfers and names that lead nowhere, and for an instance that is in no world**.
-/

namespace Menagerie

/-! ## 1. Transfers -/

/-- **What a transfer lacks**: its subject or its destination is out of range, or the image does not know
the name of one of them. The end that lacks something is told with what it named in vain. -/
inductive Transfer.Lacks (g : Graph) (img : Image) (t : Transfer) : TransferEnd → Target → Prop where
  | subject (hi : g.inst? t.subject = none) :
      Lacks g img t .subject (.outOfRange .inst t.subject.index)
  | destination {i : Instance} (hi : g.inst? t.subject = some i) (hw : g.world? t.destination = none) :
      Lacks g img t .destination (.outOfRange .world t.destination.index)
  | inst {i : Instance} {w : World} (hi : g.inst? t.subject = some i)
      (hw : g.world? t.destination = some w) (h : img.instances.get? i.name = none) :
      Lacks g img t .subject (.absent .inst i.name)
  | world {i : Instance} {w : World} {o : Offset} (hi : g.inst? t.subject = some i)
      (hw : g.world? t.destination = some w) (ho : img.instances.get? i.name = some o)
      (h : img.worlds.get? w.name = none) : Lacks g img t .destination (.absent .world w.name)

section Built

variable {g₀ g : Graph} {l : Layout} {img : Image} {t : Transfer} {n : Nat} {e : CompileError}

/-- A transfer that lacks something has no store, over any image. -/
theorem Transfer.Lacks.refused {side : TransferEnd} {target : Target} (h : t.Lacks g img side target)
    (n : Nat) : Store.ofTransfer g img t n = .error (.unresolved (.transfer n side) target) := by
  cases h with
  | subject hi =>
    rw [Store.ofTransfer, hi]
    rfl
  | destination hi hw =>
    rw [Store.ofTransfer, hi, hw]
    rfl
  | inst hi hw h =>
    simp only [Store.ofTransfer, hi, hw, h]
    rfl
  | world hi hw ho h =>
    simp only [Store.ofTransfer, hi, hw, ho, h]
    rfl

/-- **The world word of every instance of an image has an address.** -/
theorem Image.Built.worldWord_addressable (hb : img.Built g₀ l) {name : String} {o : Offset}
    (ho : img.instances.get? name = some o) : ∃ a, o.add? worldRefAt = some a := by
  obtain ⟨q, hq, hk, rfl, -⟩ := hb.record_of_get? (k := .inst) ho
  refine ⟨_, Offset.add?_of_lt ?_⟩
  have := hb.sound.worldWord_le hq hk
  have := hb.sound.stop_le hq
  have := hb.sound.bounded
  omega

/-- **A transfer has a store unless it lacks something.** -/
theorem Image.Built.ofTransfer_cases (hb : img.Built g₀ l) (t : Transfer) (n : Nat) :
    (∃ s, Store.ofTransfer g img t n = .ok s) ∨ ∃ side target, t.Lacks g img side target := by
  cases hi : g.inst? t.subject with
  | none => exact .inr ⟨_, _, .subject hi⟩
  | some i =>
    cases hw : g.world? t.destination with
    | none => exact .inr ⟨_, _, .destination hi hw⟩
    | some w =>
      cases ho : img.instances.get? i.name with
      | none => exact .inr ⟨_, _, .inst hi hw ho⟩
      | some o =>
        cases hv : img.worlds.get? w.name with
        | none => exact .inr ⟨_, _, .world hi hw ho hv⟩
        | some v =>
          obtain ⟨a, ha⟩ := hb.worldWord_addressable ho
          exact .inl ⟨⟨i.name, w.name, a, v⟩,
            Store.ofTransfer_eq_ok_iff.mpr ⟨i, w, o, hi, hw, ho, hv, ha, rfl, rfl⟩⟩

theorem Image.Built.ofTransfer_eq_error_iff (hb : img.Built g₀ l) :
    Store.ofTransfer g img t n = .error e ↔
      ∃ side target, t.Lacks g img side target ∧ e = .unresolved (.transfer n side) target := by
  refine ⟨fun h => ?_, fun h => ?_⟩
  · rcases hb.ofTransfer_cases (g := g) t n with ⟨s, hs⟩ | ⟨side, target, hlacks⟩
    · rw [hs] at h
      cases h
    · rw [hlacks.refused n] at h
      exact ⟨side, target, hlacks, (Except.error.inj h).symm⟩
  · obtain ⟨side, target, hlacks, rfl⟩ := h
    exact hlacks.refused n

end Built

/-! ## 2. Programs -/

namespace Program

/-- **When emission fails at a walk**: all transfers have stores, and over the memory that they leave the
first instance that is not known to be in a world has an unset word. -/
theorem emit_dereferences_iff {ec : EmitConfig} {g₀ g : Graph} {l : Layout} {img : Image}
    (hb : img.Built g₀ l) {inst : String} {link : Link} {fault : Fault} :
    (emit ec img g).result = .error (.dereference inst link fault) ↔
      link = .world ∧ fault = .unset ∧ ec.pagesFor img.size ≤ ec.maxPages ∧
      ∃ stores mem ys i zs base,
        g.transfers.toList.zipIdx.mapM (fun t => Store.ofTransfer g img t.1 t.2) = .ok stores ∧
        stores.foldlM Store.perform img.bytes = .ok mem ∧
        g.instances.toList = ys ++ i :: zs ∧ i.name = inst ∧
        (∀ j ∈ ys, img.Houses mem j) ∧ img.instances.get? i.name = some base ∧
        mem.word? (base.toNat + worldRefAt) = some Offset.unset.word := by
  have hperformed : ∀ {stores mem}, List.Forall₂ (fun t s => Store.ofTransfer g img t.1 t.2 = .ok s)
      g.transfers.toList.zipIdx stores → (stores.foldlM Store.perform img.bytes = .ok mem ↔
        mem = img.bytes.writes (stores.map Store.write)) := by
    intro stores mem hstores
    rw [stores_performed hb hstores, Except.ok.injEq, eq_comm]
  simp only [emit_eq_error_iff hb, mapM_eq_ok_iff]
  refine ⟨fun h => ?_, fun h => ?_⟩
  · rcases h with ⟨-, h⟩ | ⟨hpages, h⟩
    · cases h
    rcases h with ⟨ts, t, us, -, -, -, h⟩ | ⟨stores, mem, ys, i, zs, hstores, hmem, hsplit, hhouses, homit⟩
    · obtain ⟨side, target, -, he⟩ := hb.ofTransfer_eq_error_iff.mp h
      cases he
    · cases homit with
      | unplaced hbase hword =>
        exact ⟨rfl, rfl, hpages, stores, mem, ys, i, zs, _, hstores, (hperformed hstores).mpr hmem,
          hsplit, rfl, hhouses, hbase, hword⟩
  · obtain ⟨rfl, rfl, hpages, stores, mem, ys, i, zs, base, hstores, hmem, hsplit, rfl, hhouses, hbase,
      hword⟩ := h
    exact .inr ⟨hpages, .inr ⟨stores, mem, ys, i, zs, hstores, (hperformed hstores).mp hmem, hsplit,
      hhouses, .unplaced hbase hword⟩⟩

/-- **What emission can be refused for, over the image of any graph.** Whatever the transfers are, their
stores fall inside the image. An error tells that the pages do not suffice; or which transfer lacks
one of its ends; or which instance the image does not know; or that the reference word of an instance
is unset. No other check fails: headers and fields lie inside the image, and references lead to
records of their kind. An error of the last kind names the first instance, in the order of
declaration, whose word is unset in the memory that all stores leave; those before it are known to the
image and in a world. -/
theorem refusals_over_any_image {ic : ImageConfig} {ec : EmitConfig} {g₀ g : Graph} {img : Image}
    (hs : g₀.Sized) (himg : (Image.ofGraph ic g₀).result = .ok img) :
    (∀ stores, g.transfers.toList.zipIdx.mapM (fun t => Store.ofTransfer g img t.1 t.2) = .ok stores →
      ∃ mem, stores.foldlM Store.perform img.bytes = .ok mem) ∧
    (∀ e, (emit ec img g).result = .error e →
      (∃ required limit, e = .overflow required limit ∧ ec.maxPages < ec.pagesFor img.size) ∨
      (∃ (k : Nat) (t : Transfer) (side : TransferEnd) (site : Site) (target : Target),
        e = .unresolved site target ∧ site.name = s!"transfer #{k}" ∧ site.field = side.label ∧
        side.label ∈ ["instance", "to"] ∧ g.transfers[k]? = some t ∧ t.Lacks g img side target) ∨
      (∃ i site target, e = .unresolved site target ∧ site.name = i.name ∧ site.field = "name" ∧
        i ∈ g.instances ∧ img.instances.get? i.name = none) ∨
      ∃ inst link fault, e = .dereference inst link fault ∧ link.label = "world-ref" ∧
        fault.text = "unset: no world placed or transferred it") ∧
    ∀ inst link fault, (emit ec img g).result = .error (.dereference inst link fault) ↔
      link = .world ∧ fault = .unset ∧ ec.pagesFor img.size ≤ ec.maxPages ∧
      ∃ stores mem ys i zs base,
        g.transfers.toList.zipIdx.mapM (fun t => Store.ofTransfer g img t.1 t.2) = .ok stores ∧
        stores.foldlM Store.perform img.bytes = .ok mem ∧
        g.instances.toList = ys ++ i :: zs ∧ i.name = inst ∧
        (∀ j ∈ ys, img.Houses mem j) ∧ img.instances.get? i.name = some base ∧
        mem.word? (base.toNat + worldRefAt) = some Offset.unset.word := by
  obtain ⟨l, -, hb⟩ := Image.built_of_ofGraph hs himg
  refine ⟨fun stores hstores => ⟨_, stores_performed hb (mapM_eq_ok_iff.mp hstores)⟩, fun e he => ?_,
    fun inst link fault => emit_dereferences_iff hb⟩
  cases refused_of_emit hb he with
  | pages h => exact .inl ⟨_, _, rfl, h⟩
  | @transfer k t e ht h =>
    obtain ⟨side, target, hlacks, rfl⟩ := hb.ofTransfer_eq_error_iff.mp h
    refine .inr (.inl ⟨k, t, side, _, target, rfl, rfl, rfl, ?_, ht, hlacks⟩)
    cases side <;> decide
  | @absent i hi h => exact .inr (.inr (.inl ⟨i, _, _, rfl, rfl, rfl, hi, h⟩))
  | unplaced => exact .inr (.inr (.inr ⟨_, _, _, rfl, rfl, rfl⟩))

/-- Over the image of the shared cat, a graph that declares its two instances alone is refused for the
one that no world lists; the one before it is in a world. -/
theorem stale_nameless_cat_is_unplaced : Sample.sharedCat.Sized ∧ ∃ img ys i zs mem,
    (Image.ofGraph {} Sample.sharedCat).result = .ok img ∧
    (emit {} img { instances := #[⟨"i1", ⟨7⟩⟩, ⟨"", ⟨0⟩⟩] }).result =
      .error (.dereference "" .world .unset) ∧
    [⟨"i1", ⟨7⟩⟩, ⟨"", ⟨0⟩⟩] = ys ++ i :: zs ∧ i.name = "" ∧ ∀ j ∈ ys, img.Houses mem j := by
  have hsized : Sample.sharedCat.Sized :=
    Graph.sized_of_footprints (by decide) (by decide) (by decide)
  obtain ⟨img, himg⟩ : ∃ img, (Image.ofGraph {} Sample.sharedCat).result = .ok img :=
    exists_of_isOk (by decide +kernel)
  have herror : (fun _ => ()) <$> (Image.ofGraph {} Sample.sharedCat >>= fun img =>
      emit {} img { instances := #[⟨"i1", ⟨7⟩⟩, ⟨"", ⟨0⟩⟩] }).result =
        .error (.dereference "" .world .unset) := by decide +kernel
  rw [map_eq_error_iff, Traced.result_bind_eq_error_iff, himg] at herror
  rcases herror with h | ⟨img', himg', he⟩
  · cases h
  · cases himg'
    obtain ⟨-, -, -, -, mem, ys, i, zs, -, -, -, hsplit, hname, hhouses, -⟩ :=
      ((refusals_over_any_image hsized himg).2.2 _ _ _).mp he
    exact ⟨hsized, img, ys, i, zs, mem, himg, he, hsplit, hname, hhouses⟩

end Program

end Menagerie
