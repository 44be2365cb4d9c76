import Menagerie.Proofs.Settling
import Menagerie.Proofs.Walk

/-! # What an emitted program is

* `Store.ofTransfer_eq_ok_iff`, `Store.performed_iff`, `Narrated.ofInst_eq_ok_iff` -- when each
  transfer and each instance can be emitted;
* `Program.Emitted` -- a program with the stores of all transfers and, over the memory as the stores
  leave it, the walks of all instances. **A program is emitted exactly when there are such stores and
  walks, and the pages suffice** (`emit_eq_ok_iff`);
* `Program.Emitted.memory_shape` -- **over the image of a graph the stores write into world words
  only**, whatever graph the program is for.
-/

namespace Menagerie

/-! ## 1. Stores -/

namespace Store

/-- The write that a store performs. -/
def write (s : Store) : Bytes.Write := ⟨s.target.toNat, s.value.word⟩

theorem ofTransfer_eq_ok_iff {g : Graph} {img : Image} {t : Transfer} {position : Nat} {s : Store} :
    ofTransfer g img t position = .ok s ↔ ∃ i w o, g.inst? t.subject = some i ∧
      g.world? t.destination = some w ∧ img.instances.get? i.name = some o ∧
      img.worlds.get? w.name = some s.value ∧ o.add? worldRefAt = some s.target ∧
      s.inst = i.name ∧ s.world = w.name := by
  constructor
  · intro h
    unfold ofTransfer at h
    simp only at h
    split at h
    · rename_i i hi
      split at h
      · rename_i w hw
        split at h
        · rename_i o ho
          split at h
          · rename_i v hv
            split at h
            · rename_i a ha
              cases h
              exact ⟨i, w, o, hi, hw, ho, hv, ha, rfl, rfl⟩
            · cases h
          · cases h
        · cases h
      · cases h
    · cases h
  · intro ⟨i, w, o, hi, hw, ho, hv, ha, hn, hm⟩
    simp only [ofTransfer, hi, hw, ho, hv, ha]
    rw [← hn, ← hm]
    rfl

theorem perform_eq_ok_iff {mem mem' : Bytes} {s : Store} :
    perform mem s = .ok mem' ↔
      s.target.toNat + 4 ≤ mem.size ∧ mem' = mem.setWord s.target.toNat s.value.word := by
  by_cases hb : s.target.toNat + 4 ≤ mem.size
  · rw [perform, Bytes.writeWord_of_room hb]
    simp only [hb, true_and, Except.ok.injEq]
    exact eq_comm
  · rw [perform, Bytes.writeWord_of_no_room (Nat.lt_of_not_le hb)]
    simp [hb]

/-- **Stores are performed exactly when all of them lie inside memory**, and then in order. -/
theorem performed_iff {mem mem' : Bytes} {ss : List Store} :
    ss.foldlM perform mem = .ok mem' ↔
      (∀ s ∈ ss, s.target.toNat + 4 ≤ mem.size) ∧ mem' = mem.writes (ss.map write) := by
  induction ss generalizing mem with
  | nil =>
    constructor
    · intro h
      cases h
      exact ⟨by simp, rfl⟩
    · intro h
      rw [h.2]
      rfl
  | cons s ss ih =>
    rw [List.foldlM_cons, bind_eq_ok_iff, List.forall_mem_cons, List.map_cons, Bytes.writes_cons]
    constructor
    · intro ⟨m, hm, h⟩
      obtain ⟨hs, rfl⟩ := perform_eq_ok_iff.mp hm
      obtain ⟨hss, hm'⟩ := ih.mp h
      rw [Bytes.size_setWord] at hss
      exact ⟨⟨hs, hss⟩, hm'⟩
    · intro ⟨⟨hs, hss⟩, hm'⟩
      refine ⟨_, perform_eq_ok_iff.mpr ⟨hs, rfl⟩, ih.mpr ⟨?_, hm'⟩⟩
      rw [Bytes.size_setWord]
      exact hss

end Store

/-! ## 2. Narrations -/

theorem Narrated.ofInst_eq_ok_iff {img : Image} {v : View} {i : Instance} {x : Offset × Narrated} :
    ofInst img v i = .ok x ↔
      img.instances.get? i.name = some x.1 ∧ resolve v i.name x.1 = .ok x.2 := by
  unfold ofInst
  cases hb : img.instances.get? i.name with
  | none => simp [throw, throwThe, MonadExceptOf.throw]
  | some base =>
    obtain ⟨b, n⟩ := x
    show (resolve v i.name base >>= fun n => pure (base, n)) = _ ↔ _
    rw [bind_eq_ok_iff]
    constructor
    · intro ⟨n', hn', h⟩
      cases h
      exact ⟨rfl, hn'⟩
    · intro ⟨hbase, hn⟩
      cases hbase
      exact ⟨n, hn, rfl⟩

/-! ## 3. Programs -/

namespace Program

/-- **A program for a graph over an image**: a store for each transfer; `mem`, the memory as the
stores leave it; for each instance its offset and the narration resolved over `mem`; and the body
made of these. -/
structure Emitted (img : Image) (g : Graph) (mem : Bytes) (found : List (Offset × Narrated))
    (p : Program) : Prop where
  image : p.image = img
  stores : List.Forall₂ (fun t s => Store.ofTransfer g img t.1 t.2 = .ok s)
    g.transfers.toList.zipIdx p.stores
  inside : ∀ s ∈ p.stores, s.target.toNat + 4 ≤ img.bytes.size
  memory : mem = img.bytes.writes (p.stores.map Store.write)
  resolved : List.Forall₂ (fun i x => img.instances.get? i.name = some x.1 ∧
    Narrated.resolve ⟨mem, img.spans⟩ i.name x.1 = .ok x.2) g.instances.toList found
  narrations : p.narrations = found.map (·.2)
  body : p.body = assemble p.stores (found.map (·.1))

theorem result_lower (g : Graph) (img : Image) (t : Transfer) (position : Nat) :
    (lower g img t position).result = Store.ofTransfer g img t position := by
  rw [lower, Traced.result_bind]
  show (Store.ofTransfer g img t position >>= _) = _
  cases Store.ofTransfer g img t position with
  | error e => rfl
  | ok s => rfl

theorem result_narrate (img : Image) (v : View) (i : Instance) :
    (narrate img v i).result = Narrated.ofInst img v i := by
  rw [narrate, Traced.result_bind]
  show (Narrated.ofInst img v i >>= _) = _
  cases Narrated.ofInst img v i with
  | error e => rfl
  | ok x => rfl

theorem pagesOf_eq_ok_iff {c : EmitConfig} {img : Image} {pages : Pages} :
    pagesOf c img = .ok pages ↔
      c.pagesFor img.size ≤ c.maxPages ∧ pages = ⟨c.pagesFor img.size, c.maxPages⟩ := by
  unfold pagesOf
  split
  · rename_i h
    simp
    omega
  · rename_i h
    constructor
    · intro hp
      cases hp
      exact ⟨Nat.le_of_not_lt h, rfl⟩
    · intro hp
      rw [hp.2]

/-- **When a program is emitted, and what it is then.** -/
theorem emit_eq_ok_iff {c : EmitConfig} {img : Image} {g : Graph} {p : Program} :
    (emit c img g).result = .ok p ↔ c.pagesFor img.size ≤ c.maxPages ∧
      p.pages = ⟨c.pagesFor img.size, c.maxPages⟩ ∧ ∃ mem found, p.Emitted img g mem found := by
  simp only [emit, Traced.result_bind_eq_ok_iff, Traced.result_lift, Traced.result_mapM_eq_ok_iff,
    Traced.result_log, true_and, exists_const, pagesOf_eq_ok_iff, Store.performed_iff, result_lower,
    result_narrate, Narrated.ofInst_eq_ok_iff]
  constructor
  · intro ⟨pages, ⟨hle, hpages⟩, stores, hstores, mem, ⟨hin, hmem⟩, found, hfound, h⟩
    cases h
    exact ⟨hle, hpages, mem, found, rfl, hstores, hin, hmem, hfound, rfl, rfl⟩
  · intro ⟨hle, hpages, mem, found, h⟩
    refine ⟨p.pages, ⟨hle, hpages⟩, p.stores, h.stores, mem, ⟨h.inside, h.memory⟩, found,
      h.resolved, ?_⟩
    rw [← h.image, ← h.narrations, ← h.body]
    rfl

end Program

/-! ## 4. Over the image of a graph -/

section Built

variable {g₀ g : Graph} {l : Layout} {img : Image}

/-- A name that an image knows is that of a record, whatever graph asks for it. -/
theorem Image.Built.record_of_get? (hb : img.Built g₀ l) {k : RecordKind} {name : String} {o : Offset}
    (h : (img.directory k).get? name = some o) :
    ∃ q ∈ l.records, q.record.kind = k ∧ q.offset = o ∧ g₀.name? k q.index = some name := by
  rw [hb.directory] at h
  exact (hb.sound.named k name o).mp h

/-- **A store writes into the world word of the instance with the subject's name.** -/
theorem Store.into_of_ofTransfer (hb : img.Built g₀ l) {t : Transfer} {position : Nat} {s : Store}
    (h : ofTransfer g img t position = .ok s) :
    ∃ i n, g.inst? t.subject = some i ∧ g₀.name? .inst n = some i.name ∧ l.Into n s.write := by
  obtain ⟨i, w, o, hi, -, ho, -, ha, -, -⟩ := ofTransfer_eq_ok_iff.mp h
  obtain ⟨q, hq, hk, rfl, hn⟩ := hb.record_of_get? (k := .inst) ho
  exact ⟨i, q.index, hi, hn, q, hq, hk, rfl, (Offset.add?_eq_some_iff.mp ha).symm⟩

/-- **Over the image of a graph all stores go into world words**. -/
theorem Image.Built.stores_into (hb : img.Built g₀ l) {ts : List (Transfer × Nat)}
    {stores : List Store}
    (h : List.Forall₂ (fun t s => Store.ofTransfer g img t.1 t.2 = .ok s) ts stores) :
    ∀ w ∈ stores.map Store.write, ∃ n, l.Into n w := by
  intro w hw
  obtain ⟨s, hs, rfl⟩ := List.mem_map.mp hw
  obtain ⟨t, -, ht⟩ := forall₂_of_mem_right h hs
  obtain ⟨-, n, -, -, hn⟩ := Store.into_of_ofTransfer hb ht
  exact ⟨n, hn⟩

namespace Program.Emitted

variable {mem : Bytes} {found : List (Offset × Narrated)} {p : Program}

/-- **The stores keep the shape of the memory.** -/
theorem memory_shape (hb : img.Built g₀ l) (h : p.Emitted img g mem found) : l.Memory mem := by
  rw [h.memory]
  exact hb.memory.writes hb.sound (hb.stores_into h.stores)

/-- **Each narration is a walk from the record of the instance's name.** -/
theorem walks (hb : img.Built g₀ l) (h : p.Emitted img g mem found) :
    List.Forall₂ (fun i x => ∃ q ∈ l.records, q.record.kind = .inst ∧ q.offset = x.1 ∧
      g₀.name? .inst q.index = some i.name ∧
      ∃ a w b s, Narrated.Walk (l.view mem) x.1 a w b s x.2.args) g.instances.toList found := by
  refine h.resolved.imp fun i x hx => ?_
  obtain ⟨q, hq, hk, ho, hn⟩ := hb.record_of_get? (k := .inst) hx.1
  have hr := hx.2
  rw [hb.spans] at hr
  exact ⟨q, hq, hk, ho, hn, (Narrated.resolve_eq_ok_iff.mp hr).2⟩

end Program.Emitted

end Built

end Menagerie
