import Menagerie.Image
import Menagerie.Proofs.Contents

/-! # The world words of an image

Settling writes each world's offset into the instances it lists. Worlds come in order, so an
instance ends up in the last world that lists it:

* `Image.Claim.Patches` -- the write that a claim amounts to; **settling claims is performing their
  writes** (`settled_writes`), and it succeeds whenever the writes lie inside memory and, under a
  strict configuration, no instance is claimed twice (`settling_succeeds`);
* `World.Lists`, `Graph.lastListing?` -- a world lists the instance at a position; the last one that does;
* `Image.Built` -- what holds of a finished image: **its memory is one of its layout's, and the world
  word of each instance names the last world that lists it** (`built_of_ofGraph`).
-/

namespace Menagerie

/-! ## 1. Claims as writes -/

namespace Image

variable {strict : Bool} {g : Graph} {d : Directory}

theorem contest_eq_ok_iff {c : Claim} {holder : Option String} :
    (contest strict g c holder).result = .ok () ↔ (strict = true → holder = none) := by
  cases holder with
  | none => simp [contest]
  | some w => cases strict <;> simp [contest]

theorem patch_eq_ok_iff {c : Claim} {o : Offset} {b b' : Bytes} :
    (patch c o b).result = .ok b' ↔
      o.toNat + worldRefAt + 4 ≤ b.size ∧ b' = b.setWord (o.toNat + worldRefAt) c.offset.word := by
  by_cases hb : o.toNat + worldRefAt + 4 ≤ b.size
  · rw [patch, Bytes.writeWord_of_room hb]
    simp only [hb, true_and, Except.ok.injEq]
    exact eq_comm
  · rw [patch, Bytes.writeWord_of_no_room (Nat.lt_of_not_le hb)]
    simp [hb]

/-- **What settling one claim does.** -/
theorem settle_eq_ok_iff {s s' : Settling} {c : Claim} :
    (settle strict g d s c).result = .ok s' ↔
      ∃ o, Record.memberOffset g d c.world c.member = .ok o ∧
        (strict = true → s.holder[o.toNat]? = none) ∧
        o.toNat + worldRefAt + 4 ≤ s.bytes.size ∧
        s' = ⟨s.bytes.setWord (o.toNat + worldRefAt) c.offset.word,
          s.holder.insert o.toNat c.world⟩ := by
  obtain ⟨b, holder⟩ := s
  simp only [settle, Traced.result_bind_eq_ok_iff, Traced.result_lift, patch_eq_ok_iff]
  constructor
  · rintro ⟨o, ho, u, hc, b', ⟨hb, rfl⟩, h⟩
    exact ⟨o, ho, contest_eq_ok_iff.mp hc, hb, (Except.ok.inj h).symm⟩
  · rintro ⟨o, ho, hc, hb, rfl⟩
    exact ⟨o, ho, (), contest_eq_ok_iff.mpr hc, _, ⟨hb, rfl⟩, rfl⟩

/-- The write that a claim amounts to. -/
def Claim.Patches (g : Graph) (instances : Directory) (c : Claim) (w : Bytes.Write) : Prop :=
  ∃ o, Record.memberOffset g instances c.world c.member = .ok o ∧
    w = ⟨o.toNat + worldRefAt, c.offset.word⟩

/-- The offset of the instance into whose world word a write goes. -/
def owner (w : Bytes.Write) : Nat := w.pos - worldRefAt

/-- **Settling claims is performing their writes**; a strict settling meets no instance twice. -/
theorem settled_writes {cs : List Claim} {s s' : Settling}
    (h : (Traced.foldl (settle strict g d) s cs).result = .ok s') :
    ∃ ws, List.Forall₂ (Claim.Patches g d) cs ws ∧ s'.bytes = s.bytes.writes ws ∧
      (strict = true → Fresh s.holder (ws.map owner)) := by
  induction cs generalizing s with
  | nil =>
    cases h
    exact ⟨[], .nil, rfl, fun _ => fresh_nil _⟩
  | cons c cs ih =>
    rw [Traced.foldl_cons, Traced.result_bind_eq_ok_iff] at h
    obtain ⟨t, ht, h⟩ := h
    obtain ⟨o, ho, hc, hb, rfl⟩ := settle_eq_ok_iff.mp ht
    obtain ⟨ws, hws, hbytes, hfresh⟩ := ih h
    refine ⟨⟨o.toNat + worldRefAt, c.offset.word⟩ :: ws, .cons ⟨o, ho, rfl⟩ hws, ?_, ?_⟩
    · rw [hbytes, Bytes.writes_cons]
    · intro hs
      rw [List.map_cons, owner, Nat.add_sub_cancel, fresh_cons c.world]
      exact ⟨hc hs, hfresh hs⟩

/-- **Settling succeeds where the writes lie inside memory** and, if strict, no instance comes
twice. -/
theorem settling_succeeds {cs : List Claim} {ws : List Bytes.Write} {s : Settling}
    (hws : List.Forall₂ (Claim.Patches g d) cs ws) (hin : ∀ w ∈ ws, w.pos + 4 ≤ s.bytes.size)
    (hfresh : strict = true → Fresh s.holder (ws.map owner)) :
    ∃ s', (Traced.foldl (settle strict g d) s cs).result = .ok s' := by
  induction hws generalizing s with
  | nil => exact ⟨s, rfl⟩
  | @cons c w cs ws hc hws ih =>
    obtain ⟨o, ho, rfl⟩ := hc
    obtain ⟨hb, hin⟩ := List.forall_mem_cons.mp hin
    have hstep : ∀ hs : strict = true, s.holder[o.toNat]? = none ∧
        Fresh (s.holder.insert o.toNat c.world) (ws.map owner) := by
      intro hs
      have hf := hfresh hs
      rwa [List.map_cons, owner, Nat.add_sub_cancel, fresh_cons c.world] at hf
    have hsettle := settle_eq_ok_iff.mpr ⟨o, ho, fun hs => (hstep hs).1, hb, rfl⟩
    obtain ⟨s', hs'⟩ := @ih ⟨s.bytes.setWord (o.toNat + worldRefAt) c.offset.word,
      s.holder.insert o.toNat c.world⟩ (by simpa using hin) fun hs => (hstep hs).2
    rw [Traced.foldl_cons]
    exact ⟨s', Traced.result_bind_eq_ok_iff.mpr ⟨_, hsettle, hs'⟩⟩

end Image

/-! ## 2. The last world that lists an instance -/

/-- A world lists the instance at a position. -/
def World.Lists (w : World) (n : Nat) : Prop := ∃ r ∈ w.contains, r.index = n

theorem World.any_index_iff {w : World} {n : Nat} :
    (w.contains.any (·.index == n)) = true ↔ w.Lists n := by
  simp only [List.any_eq_true, beq_iff_eq, Lists]

instance (w : World) (n : Nat) : Decidable (w.Lists n) := decidable_of_iff _ World.any_index_iff

/-- The last world that lists the instance at a position. -/
def Graph.lastListing? (g : Graph) (n : Nat) : Option World :=
  g.worlds.toList.reverse.find? (·.contains.any (·.index == n))

theorem Graph.of_lastListing? {g : Graph} {n : Nat} {w : World} (h : g.lastListing? n = some w) :
    w ∈ g.worlds ∧ w.Lists n := by
  have hw : (w.contains.any (·.index == n)) = true :=
    List.find?_some (p := fun w : World => w.contains.any (·.index == n)) h
  exact ⟨Array.mem_toList_iff.mp (List.mem_reverse.mp (List.mem_of_find?_eq_some h)),
    World.any_index_iff.mp hw⟩

theorem Graph.lastListing?_eq_none_iff {g : Graph} {n : Nat} :
    g.lastListing? n = none ↔ ∀ w ∈ g.worlds, ¬ w.Lists n := by
  rw [lastListing?, List.find?_eq_none]
  simp only [List.mem_reverse, Array.mem_toList_iff, World.any_index_iff]

section Search

variable {α β γ : Type}

/-- Searches of two lists that agree element by element find the same. -/
theorem find?_map_of_forall₂ {R : α → β → Prop} {p : α → Bool} {q : β → Bool} {f : α → γ} {k : β → γ}
    {xs : List α} {ys : List β} (h : List.Forall₂ R xs ys)
    (hR : ∀ x y, R x y → p x = q y ∧ f x = k y) : (xs.find? p).map f = (ys.find? q).map k := by
  induction h with
  | nil => rfl
  | @cons x y xs ys hxy _ ih =>
    obtain ⟨hp, hf⟩ := hR x y hxy
    rw [List.find?_cons, List.find?_cons, hp]
    cases q y with
    | true => rw [Option.map_some, Option.map_some, hf]
    | false => exact ih

/-- The last hit in a list of lists lies in the last list that has one. -/
theorem find?_reverse_flatMap {F : α → List β} {p : β → Bool} {f : β → γ} {k : α → γ} (xs : List α)
    (hk : ∀ x, ∀ y ∈ F x, p y = true → f y = k x) :
    ((xs.flatMap F).reverse.find? p).map f = (xs.reverse.find? fun x => (F x).any p).map k := by
  induction xs with
  | nil => rfl
  | cons x xs ih =>
    have hlast : ((F x).reverse.find? p).map f = ([x].find? fun x => (F x).any p).map k := by
      cases hy : (F x).reverse.find? p with
      | none =>
        have hany : (F x).any p = false := by
          rw [List.any_eq_false]
          exact fun y hy' => List.find?_eq_none.mp hy y (List.mem_reverse.mpr hy')
        rw [List.find?_singleton, if_neg (by simp [hany])]
        rfl
      | some y =>
        have hmem : y ∈ F x := List.mem_reverse.mp (List.mem_of_find?_eq_some hy)
        have hp : p y = true := List.find?_some hy
        have hany : (F x).any p = true := List.any_eq_true.mpr ⟨y, hmem, hp⟩
        rw [List.find?_singleton, if_pos hany, Option.map_some, Option.map_some, hk x y hmem hp]
    rw [List.flatMap_cons, List.reverse_append, List.find?_append, Option.map_or, ih,
      List.reverse_cons, List.find?_append, Option.map_or, hlast]

end Search

namespace Image

/-- **The last claim to an instance is made by the last world that lists it.** -/
theorem lastClaim_eq {g : Graph} {worlds : Directory} (hkeys : worlds.keys = g.names .world)
    (n : Nat) : ((claims g (worlds.toList.map (·.2))).reverse.find?
        (·.member.index == n)).map (fun c => some c.offset) =
      (g.lastListing? n).map fun w => worlds.get? w.name := by
  have hlen : worlds.toList.length = g.worlds.toList.length := by
    have := congrArg List.length hkeys
    rwa [Directory.keys, Graph.names, List.length_map, List.length_map] at this
  -- each world stands beside the offset of its own entry
  have hpairs : List.Forall₂ (fun (x : World × Offset) w => x.1 = w ∧ worlds.get? w.name = some x.2)
      (g.worlds.toList.zip (worlds.toList.map (·.2))) g.worlds.toList := by
    refine List.forall₂_of_length_eq_of_get (by rw [List.length_zip, List.length_map, hlen, Nat.min_self])
      fun n hn hn' => ?_
    have hname : (worlds.toList.get ⟨n, hlen ▸ hn'⟩).1 = (g.worlds.toList.get ⟨n, hn'⟩).name := by
      have hnth : (worlds.toList.map (·.1))[n]? = (g.worlds.toList.map (·.name))[n]? :=
        congrArg (·[n]?) hkeys
      rw [List.getElem?_map, List.getElem?_map, List.getElem?_eq_getElem (hlen ▸ hn'),
        List.getElem?_eq_getElem hn'] at hnth
      exact Option.some.inj hnth
    rw [Directory.get?_eq_some_iff, List.get_eq_getElem, List.getElem_zip, List.getElem_map]
    refine ⟨rfl, ?_⟩
    rw [← hname]
    exact List.get_mem _ _
  rw [claims, find?_reverse_flatMap (k := fun x => some x.2)]
  · refine find?_map_of_forall₂ (List.forall₂_reverse_iff.mpr hpairs) ?_
    rintro ⟨w, o⟩ w' ⟨rfl, hget⟩
    exact ⟨List.any_map, hget.symm⟩
  · rintro ⟨w, o⟩ c hc -
    obtain ⟨r', -, rfl⟩ := List.mem_map.mp hc
    rfl

end Image

/-! ## 3. Words written into world words -/

namespace Layout

variable {g : Graph} {l : Layout}

/-- At first no instance is in a world. -/
theorem Sound.worldWord_unset (h : l.Sound g) {p : Placed} (hp : p ∈ l.records)
    (hk : p.record.kind = .inst) :
    l.bytes.word? (p.offset.toNat + worldRefAt) = some Offset.unset.word := by
  obtain ⟨i, a, o, -, -, -, -, hf⟩ := h.inst_fields hp hk
  have hfield : Bytes.Holds p.record.bytes (Record.ofWord Offset.unset.word) worldRefAt :=
    hf.holds_field (i := 0) rfl
  have hin : worldRefAt + 4 ≤ p.record.bytes.size := by
    have := h.worldWord_le hp hk
    unfold Placed.stop at this
    omega
  have hword := hfield.word? (q := 0) (Nat.le_of_eq (Record.size_ofWord _).symm)
  rw [(h.holds hp).word? hin, ← Nat.add_zero worldRefAt, hword]
  exact Bytes.word?_pushWord #[] _

namespace Memory

variable {mem : Bytes} {α : Type} {number : α → Nat} {value : α → Offset} {xs : List α}
  {ws : List Bytes.Write}

theorem into_of_forall₂
    (hws : List.Forall₂ (fun x w => l.Into (number x) w ∧ w.word = (value x).word) xs ws) :
    ∀ w ∈ ws, ∃ n, l.Into n w := by
  intro w hw
  obtain ⟨x, -, hx, -⟩ := forall₂_of_mem_right hws hw
  exact ⟨_, hx⟩

/-- **The last write into the world word of an instance is read there.** -/
theorem worldWord_writes (h : l.Sound g) (hm : l.Memory mem)
    (hws : List.Forall₂ (fun x w => l.Into (number x) w ∧ w.word = (value x).word) xs ws) {p : Placed}
    (hp : p ∈ l.records) (hk : p.record.kind = .inst) :
    (mem.writes ws).word? (p.offset.toNat + worldRefAt) =
      ((xs.reverse.find? (number · == p.index)).map (fun x => (value x).word)).or
        (mem.word? (p.offset.toNat + worldRefAt)) := by
  have hlast : (xs.reverse.find? (number · == p.index)).map (fun x => (value x).word) =
      Bytes.lastWrite? ws (p.offset.toNat + worldRefAt) := by
    refine find?_map_of_forall₂ (List.forall₂_reverse_iff.mpr hws) fun x w hxw => ⟨?_, hxw.2.symm⟩
    rw [Bool.eq_iff_iff, beq_iff_eq, beq_iff_eq, hxw.1.pos_eq_iff h hp hk]
  have hinto := into_of_forall₂ hws
  rw [hlast]
  refine Bytes.word?_writes (fun w hw => ?_) fun w hw => ?_
  · obtain ⟨n, hn⟩ := hinto w hw
    exact hm.size_eq ▸ hn.le_size h
  · obtain ⟨n, hn⟩ := hinto w hw
    exact hn.clean h hp hk

end Memory

end Layout

/-! ## 4. Finished images -/

/-- Where settling leaves the instance at a position: in the last world that lists it, or nowhere. -/
def Graph.StartsIn (g : Graph) (worlds : Directory) (n : Nat) (o : Offset) : Prop :=
  match g.lastListing? n with
  | some w => worlds.get? w.name = some o
  | none => o = .unset

/-- The instance at a reference is the record of that number. -/
theorem Layout.Sound.memberOffset_eq_ok_iff {g : Graph} {l : Layout} (h : l.Sound g) {world : String}
    {r : Ref .inst} {o : Offset} : Record.memberOffset g l.instances world r = .ok o ↔
      ∃ p ∈ l.records, p.record.kind = .inst ∧ p.index = r.index ∧ p.offset = o := by
  rw [Record.memberOffset_eq_ok_iff]
  constructor
  · rintro ⟨i, hi, ho⟩
    obtain ⟨p, hp, hk, hpo, hn⟩ := (h.named .inst i.name o).mp ho
    exact ⟨p, hp, hk, h.distinct hn (Graph.name?_inst hi), hpo⟩
  · rintro ⟨p, hp, hk, hindex, rfl⟩
    obtain ⟨i, a, o, hi, -⟩ := h.inst_fields hp hk
    rw [hindex] at hi
    exact ⟨i, hi, (h.named .inst i.name _).mpr ⟨p, hp, hk, rfl, hindex ▸ Graph.name?_inst hi⟩⟩

/-- **The offset of an instance tells which instance it is.** -/
theorem Layout.Sound.memberOffset_toNat_eq_iff {g : Graph} {l : Layout} (h : l.Sound g) {world : String}
    {r : Ref .inst} {o : Offset} (ho : Record.memberOffset g l.instances world r = .ok o) {p : Placed}
    (hp : p ∈ l.records) (hk : p.record.kind = .inst) :
    o.toNat = p.offset.toNat ↔ r.index = p.index := by
  obtain ⟨q, hq, hqk, hqi, rfl⟩ := h.memberOffset_eq_ok_iff.mp ho
  rw [← hqi]
  constructor
  · intro he
    rw [h.eq_of_offset_eq hq hp (Offset.ext_toNat he)]
  · intro he
    rw [h.eq_of_index_eq hq hp (hqk.trans hk.symm) he]

namespace Image

/-- What holds of a finished image of a graph, laid out by `l`. -/
structure Built (g : Graph) (l : Layout) (img : Image) : Prop where
  sound : l.Sound g
  memory : l.Memory img.bytes
  directory : ∀ k, img.directory k = l.directory k
  spans : img.spans = l.spans
  /-- The world word of an instance names the last world that lists it. -/
  worldWord : ∀ p ∈ l.records, p.record.kind = .inst → ∃ o : Offset,
    img.bytes.word? (p.offset.toNat + worldRefAt) = some o.word ∧ g.StartsIn l.worlds p.index o

/-- **A declared name leads to the record of its declaration.** -/
theorem Built.lookup {g : Graph} {l : Layout} {img : Image} (h : img.Built g l) {k : RecordKind}
    {n : Nat} {name : String} (hn : g.name? k n = some name) :
    ∃ p ∈ l.records, p.record.kind = k ∧ p.index = n ∧
      (img.directory k).get? name = some p.offset := by
  obtain ⟨p, hp, hk, rfl⟩ := h.sound.placed k n name hn
  rw [h.directory]
  exact ⟨p, hp, hk, rfl, (h.sound.named k name p.offset).mpr ⟨p, hp, hk, rfl, hn⟩⟩

/-- A claim writes into the world word of the instance it names. -/
theorem Claim.Patches.into {g : Graph} {l : Layout} (h : l.Sound g) {c : Claim} {w : Bytes.Write}
    (hw : c.Patches g l.instances w) : l.Into c.member.index w ∧ w.word = c.offset.word := by
  obtain ⟨o, ho, rfl⟩ := hw
  obtain ⟨p, hp, hk, hi, rfl⟩ := h.memberOffset_eq_ok_iff.mp ho
  exact ⟨⟨p, hp, hk, hi, rfl⟩, rfl⟩

/-- **Two claims are to one instance exactly when they write into the same record.** -/
theorem owner_eq_iff {g : Graph} {l : Layout} (h : l.Sound g) {c c' : Claim} {w w' : Bytes.Write}
    (hw : c.Patches g l.instances w) (hw' : c'.Patches g l.instances w') :
    owner w = owner w' ↔ c.member = c'.member := by
  obtain ⟨p, hp, hk, hi, hpos⟩ := (hw'.into h).1
  have hle := (hw.into h).1
  rw [← Ref.index_inj, ← hi, ← hle.pos_eq_iff h hp hk]
  obtain ⟨q, -, -, -, hq⟩ := hle
  unfold owner
  omega

/-- So the places written into tell the instances apart. -/
theorem nodup_owners_iff {g : Graph} {l : Layout} (h : l.Sound g) {cs : List Claim}
    {ws : List Bytes.Write} (hws : List.Forall₂ (Claim.Patches g l.instances) cs ws) :
    (ws.map owner).Nodup ↔ (cs.map (·.member)).Nodup := by
  induction hws with
  | nil => exact iff_of_true List.nodup_nil List.nodup_nil
  | @cons c w cs ws hc hws ih =>
    have hmem : owner w ∈ ws.map owner ↔ c.member ∈ cs.map (·.member) := by
      rw [List.mem_map, List.mem_map]
      constructor
      · intro ⟨w', hw', he⟩
        obtain ⟨c', hc', hp'⟩ := forall₂_of_mem_right hws hw'
        exact ⟨c', hc', (owner_eq_iff h hp' hc).mp he⟩
      · intro ⟨c', hc', he⟩
        obtain ⟨w', hw', hp'⟩ := forall₂_of_mem_left hws hc'
        exact ⟨w', hw', (owner_eq_iff h hp' hc).mpr he⟩
    rw [List.map_cons, List.map_cons, List.nodup_cons, List.nodup_cons, hmem, ih]

/-- An image is finished exactly when all claims are settled; it has the bytes that settling leaves. -/
theorem ofLayout_eq_ok_iff {strict : Bool} {g : Graph} {l : Layout} {img : Image} :
    (ofLayout strict g l).result = .ok img ↔
      ∃ s, (Traced.foldl (settle strict g l.instances) ⟨l.bytes, ∅⟩
          (claims g l.worldOffsets)).result = .ok s ∧
        img = ⟨s.bytes, l.animals, l.instances, l.worlds, l.spans⟩ := by
  simp only [ofLayout, Traced.result_bind_eq_ok_iff]
  constructor
  · intro ⟨s, hs, _, _, h⟩
    exact ⟨s, hs, (Except.ok.inj h).symm⟩
  · intro ⟨s, hs, h⟩
    exact ⟨s, hs, (), rfl, congrArg Except.ok h.symm⟩

/-- **A finished image has a memory of its layout, with the world words settled.** -/
theorem built_of_ofLayout {strict : Bool} {g : Graph} {l : Layout} {img : Image} (hl : l.Sound g)
    (h : (ofLayout strict g l).result = .ok img) : img.Built g l := by
  obtain ⟨s, hs, rfl⟩ := ofLayout_eq_ok_iff.mp h
  obtain ⟨ws, hws, hbytes, -⟩ := settled_writes hs
  have hinto := hws.imp fun c w => Claim.Patches.into hl
  refine ⟨hl, ?_, fun k => ?_, rfl, fun p hp hk => ?_⟩
  · show l.Memory s.bytes
    rw [hbytes]
    exact (Layout.memory_bytes l).writes hl (Layout.Memory.into_of_forall₂ hinto)
  · cases k <;> rfl
  · show ∃ o : Offset, s.bytes.word? _ = some o.word ∧ _
    have hword := (Layout.memory_bytes l).worldWord_writes hl hinto hp hk
    have hlast : ((claims g l.worldOffsets).reverse.find? (·.member.index == p.index)).map
        (fun c => some c.offset) = (g.lastListing? p.index).map fun w => l.worlds.get? w.name := by
      rw [hl.worlds]
      exact lastClaim_eq (hl.names .world) p.index
    rw [hl.worldWord_unset hp hk, ← hbytes] at hword
    rw [hword]
    unfold Graph.StartsIn
    cases hw : g.lastListing? p.index with
    | none =>
      rw [hw, Option.map_none, Option.map_eq_none_iff] at hlast
      exact ⟨.unset, by rw [hlast]; rfl, rfl⟩
    | some w =>
      rw [hw, Option.map_some, Option.map_eq_some_iff] at hlast
      obtain ⟨c, hc, hget⟩ := hlast
      exact ⟨c.offset, by rw [hc]; rfl, hget.symm⟩

/-- **A finished image of a graph is built on a sound layout of it**, within the limit. -/
theorem built_of_ofGraph {c : ImageConfig} {g : Graph} {img : Image} (hs : g.Sized)
    (h : (ofGraph c g).result = .ok img) :
    ∃ l, (Layout.ofGraph c g).result = .ok l ∧ img.Built g l := by
  simp only [ofGraph, Traced.result_bind_eq_ok_iff] at h
  obtain ⟨l, hl, h⟩ := h
  exact ⟨l, hl, built_of_ofLayout (Layout.sound_of_ofGraph hs hl).1 h⟩

end Image

end Menagerie
