import Menagerie.Proofs.FirstFault

/-! # What each stage refuses

A compilation that fails has met a fault in one of its stages:

* `Layout.Refused`, `Layout.refused_of_ofGraph` -- what a layout is refused for;
* `Image.Contested`, `Image.contested_of_ofLayout` -- **settling fails only where a strict configuration
  meets an instance again**, and names the world that listed it first;
* `Narrated.Omitted`, `Program.emit_eq_error_iff` -- over the image of any graph, **emission fails exactly
  for want of pages, at the first transfer without a store, or at the first instance that is absent or
  in no world**; `Program.Refused` says the same without the order.
-/

namespace Menagerie

/-! ## 1. Layouts -/

namespace Layout

/-- **What a layout is refused for**: a declaration that cannot be encoded, a name that comes again, or
more bytes than the limit allows. -/
inductive Refused (c : ImageConfig) (g : Graph) : CompileError → Prop where
  | encoding {k : RecordKind} {n : Nat} {e : CompileError} (h : g.fault? k n = some e) : Refused c g e
  | name {k : RecordKind} {name : String} {ys zs : List String} (h : g.names k = ys ++ name :: zs)
      (hn : name ∈ ys) : Refused c g (.duplicateName k name)
  | size {required : Nat} (h : c.limit < required) (hle : required ≤ g.footprint) :
      Refused c g (.overflow required c.limit)

variable {c : ImageConfig} {g : Graph} {e : CompileError}

/-- **A layout that fails has met a fault of the graph.** -/
theorem refused_of_ofGraph (hs : g.Sized) (h : (ofGraph c g).result = .error e) : Refused c g e := by
  obtain ⟨ys, d, zs, hsplit, he⟩ := exists_draft_of_error hs h
  cases hfault : d.fault? with
  | some e' =>
    rw [Draft.error?_of_fault hfault] at he
    cases he
    have hmem : d ∈ g.drafts := hsplit ▸ List.mem_append_right ys List.mem_cons_self
    obtain ⟨k, n, hn⟩ := Graph.exists_fault? hmem hfault
    exact .encoding hn
  | none =>
    rw [Draft.error?_of_encodable hfault] at he
    split at he
    · rename_i hlt
      cases he
      exact .size hlt (Graph.room_le_footprint hsplit)
    · split at he
      · rename_i hrepeats
        cases he
        obtain ⟨d', hd', hkind, hname⟩ := hrepeats
        have hfilter : (d :: zs).filter (·.kind = d.kind) = d :: zs.filter (·.kind = d.kind) :=
          List.filter_cons_of_pos (decide_eq_true rfl)
        have hnames := g.names_drafts d.kind
        rw [hsplit, List.filter_append, hfilter, List.map_append, List.map_cons] at hnames
        exact .name hnames.symm (List.mem_map.mpr
          ⟨d', List.mem_filter.mpr ⟨hd', decide_eq_true hkind⟩, hname⟩)
      · cases he

end Layout

/-! ## 2. Images -/

namespace Image

variable {strict : Bool} {g : Graph} {d : Directory} {l : Layout} {e : CompileError}

/-- A claim that finds its instance inside memory fails only if the instance has a holder and the
configuration is strict. -/
theorem settle_eq_error {s : Settling} {c : Claim} {i : Instance} {o : Offset}
    (hi : g.inst? c.member = some i) (ho : Record.memberOffset g d c.world c.member = .ok o)
    (hb : o.toNat + worldRefAt + 4 ≤ s.bytes.size)
    (h : (settle strict g d s c).result = .error e) :
    strict = true ∧ ∃ w, s.holder[o.toNat]? = some w ∧
      e = .duplicatePlacement i.name w c.world := by
  cases hh : s.holder[o.toNat]? with
  | none =>
    rw [settle_eq_ok_iff.mpr ⟨o, ho, fun _ => hh, hb, rfl⟩] at h
    cases h
  | some w =>
    cases strict with
    | false =>
      rw [settle_eq_ok_iff.mpr ⟨o, ho, fun hs => absurd hs Bool.false_ne_true, hb, rfl⟩] at h
      cases h
    | true =>
      have hcontest : (contest true g c (some w)).result =
          .error (.duplicatePlacement i.name w c.world) := by
        rw [contest, hi]
        rfl
      obtain ⟨b, holder⟩ := s
      have hfail : (settle true g d ⟨b, holder⟩ c).result =
          .error (.duplicatePlacement i.name w c.world) := by
        rw [settle]
        refine Traced.result_bind_eq_error_iff.mpr (.inr ⟨o, ho,
          Traced.result_bind_eq_error_iff.mpr (.inl ?_)⟩)
        rw [show holder[o.toNat]? = some w from hh]
        exact hcontest
      rw [hfail] at h
      exact ⟨rfl, w, rfl, (Except.error.inj h).symm⟩

/-- **The holder of an instance is the world of the last claim to it.** -/
theorem holder_of_settled (hl : l.Sound g) {cs : List Claim} {s s' : Settling}
    (h : (Traced.foldl (settle strict g l.instances) s cs).result = .ok s') {p : Placed}
    (hp : p ∈ l.records) (hk : p.record.kind = .inst) :
    s'.holder[p.offset.toNat]? =
      ((cs.reverse.find? (·.member.index == p.index)).map (·.world)).or s.holder[p.offset.toNat]? := by
  induction cs generalizing s with
  | nil =>
    cases h
    rfl
  | cons c cs ih =>
    rw [Traced.foldl_cons, Traced.result_bind_eq_ok_iff] at h
    obtain ⟨t, ht, h⟩ := h
    obtain ⟨o, ho, -, -, rfl⟩ := settle_eq_ok_iff.mp ht
    -- the key is the offset of the record exactly if the claim is to its instance
    have hkey := hl.memberOffset_toNat_eq_iff ho hp hk
    rw [ih h, List.reverse_cons, List.find?_append, Option.map_or, Option.or_assoc,
      List.find?_singleton, getElem?_insert_key]
    by_cases hr : c.member.index = p.index
    · rw [if_pos (hkey.mpr hr), if_pos (beq_iff_eq.mpr hr), Option.map_some, Option.some_or]
    · rw [if_neg (mt hkey.mp hr), if_neg fun he => hr (beq_iff_eq.mp he)]
      rfl

/-- **An instance that is listed again**: `first` is the only entry before that lists it. -/
def Contested (g : Graph) (e : CompileError) : Prop :=
  ∃ ys l zs i first, g.listings = ys ++ l :: zs ∧ (ys.map (·.member)).Nodup ∧
    g.inst? l.member = some i ∧ ys.find? (·.member == l.member) = some first ∧
    e = .duplicatePlacement i.name first.world l.world

/-- The claims before a claim are the entries before its entry. -/
theorem split_listings (hl : l.Sound g) {pre post : List Claim} {c : Claim}
    (h : claims g l.worldOffsets = pre ++ c :: post) :
    ∃ ys l zs, g.listings = ys ++ l :: zs ∧ l.world = c.world ∧ l.member = c.member ∧
      ys.map (fun l => (l.world, l.member)) = pre.map fun c => (c.world, c.member) := by
  have hmap := (map_claims hl).symm
  rw [h, List.map_append, List.map_cons] at hmap
  obtain ⟨ys, rest, hlist, hys, hrest⟩ := List.map_eq_append_iff.mp hmap
  obtain ⟨l, zs, rfl, hl, -⟩ := List.map_eq_cons_iff.mp hrest
  obtain ⟨hworld, hmember⟩ := Prod.mk.inj hl
  exact ⟨ys, l, zs, hlist, hworld, hmember, hys⟩

/-- **Settling fails only at an instance that is listed again**, and only if the configuration is
strict. The walk keeps the last world that claimed an instance; as it stops at the first repetition,
that is also the first one. -/
theorem contested_of_ofLayout (hl : l.Sound g) (hmembers : ∀ r ∈ g.members, ∃ i, g.inst? r = some i)
    (h : (ofLayout strict g l).result = .error e) : strict = true ∧ Contested g e := by
  rcases Traced.result_bind_eq_error_iff.mp h with h | ⟨s, -, h⟩
  swap
  · cases h
  obtain ⟨pre, c, post, s, hsplit, hpre, hc⟩ := Traced.result_foldl_eq_error_iff.mp h
  obtain ⟨ws, hws, hbytes, hfresh⟩ := settled_writes hpre
  obtain ⟨ys, entry, zs, hlist, hworld, hmember, hys⟩ := split_listings hl hsplit
  -- the claim finds its instance, so that only a holder can refuse it
  have hmem : c.member ∈ g.members := by
    rw [← map_member_claims hl, hsplit]
    exact List.mem_map.mpr ⟨c, List.mem_append_right pre List.mem_cons_self, rfl⟩
  obtain ⟨i, hi⟩ := hmembers _ hmem
  obtain ⟨o, ho⟩ := Record.memberOffset_succeeds (hl.names .inst) ⟨i, hi⟩ c.world
  have hin : o.toNat + worldRefAt + 4 ≤ s.bytes.size := by
    rw [hbytes, Bytes.size_writes]
    exact (Claim.Patches.into hl ⟨o, ho, rfl⟩).1.le_size hl
  obtain ⟨hstrict, w, hw, rfl⟩ := settle_eq_error hi ho hin hc
  -- the holder is the world of a claim before it, and that claim has an entry
  obtain ⟨p, hp, hk, hindex, rfl⟩ := hl.memberOffset_eq_ok_iff.mp ho
  have hholder := holder_of_settled hl hpre hp hk
  rw [hw, Std.TreeMap.getElem?_emptyc, Option.or_none, hindex] at hholder
  obtain ⟨c', hc', rfl⟩ := Option.map_eq_some_iff.mp hholder.symm
  have hsame : c'.member = c.member := Ref.index_inj.mp (beq_iff_eq.mp
    (List.find?_some (p := fun c' : Claim => c'.member.index == c.member.index) hc'))
  have hentry : (c'.world, c'.member) ∈ ys.map fun l => (l.world, l.member) := hys ▸
    List.mem_map.mpr ⟨c', List.mem_reverse.mp (List.mem_of_find?_eq_some hc'), rfl⟩
  obtain ⟨first, hfirst, hpair⟩ := List.mem_map.mp hentry
  obtain ⟨hfirstWorld, hfirstMember⟩ := Prod.mk.inj hpair
  have hnodup : (ys.map (·.member)).Nodup := by
    have hmembers := congrArg (List.map Prod.snd) hys
    rw [List.map_map, List.map_map] at hmembers
    exact hmembers ▸ (nodup_owners_iff hl hws).mp (hfresh hstrict).1
  refine ⟨hstrict, ys, entry, zs, i, first, hlist, hnodup, hmember ▸ hi, ?_, by rw [hfirstWorld, hworld]⟩
  rw [hmember, ← hsame, ← hfirstMember]
  exact Graph.find?_member_of_nodup hnodup hfirst

end Image

/-! ## 3. Programs -/

section Stored

variable {g₀ g : Graph} {l : Layout} {img : Image} {stores : List Store}

/-- A world word after some writes into world words: it is as before, or as one of them wrote it. -/
theorem Layout.Memory.worldWord_cases {mem : Bytes} (h : l.Sound g₀) (hm : l.Memory mem)
    {ws : List Bytes.Write} (hws : ∀ w ∈ ws, ∃ n, l.Into n w) {p : Placed} (hp : p ∈ l.records)
    (hk : p.record.kind = .inst) :
    (mem.writes ws).word? (p.offset.toNat + worldRefAt) = mem.word? (p.offset.toNat + worldRefAt) ∨
      ∃ w ∈ ws, (mem.writes ws).word? (p.offset.toNat + worldRefAt) = some w.word := by
  rw [Bytes.word?_writes]
  · cases hlast : Bytes.lastWrite? ws (p.offset.toNat + worldRefAt) with
    | none => exact .inl (Option.none_or)
    | some word =>
      obtain ⟨w, hw, rfl⟩ := Option.map_eq_some_iff.mp hlast
      exact .inr ⟨w, List.mem_reverse.mp (List.mem_of_find?_eq_some hw), rfl⟩
  · intro w hw
    obtain ⟨n, hn⟩ := hws w hw
    exact hm.size_eq ▸ hn.le_size h
  · intro w hw
    obtain ⟨n, hn⟩ := hws w hw
    exact hn.clean h hp hk

/-- **The stores of any graph leave each world word unset or leading to a world.** -/
theorem Image.Built.worldWord_stored (hb : img.Built g₀ l) {ts : List (Transfer × Nat)}
    (h : List.Forall₂ (fun t s => Store.ofTransfer g img t.1 t.2 = .ok s) ts stores) {q : Placed}
    (hq : q ∈ l.records) (hk : q.record.kind = .inst) :
    ∃ o : Offset, (img.bytes.writes (stores.map Store.write)).word? (q.offset.toNat + worldRefAt) =
      some o.word ∧ (o = .unset ∨ ∃ r ∈ l.records, r.record.kind = .world ∧ r.offset = o) := by
  rcases hb.memory.worldWord_cases hb.sound (hb.stores_into h) hq hk with hsame | ⟨w, hw, hword⟩
  · obtain ⟨o, ho, hstart⟩ := hb.worldWord q hq hk
    refine ⟨o, hsame.trans ho, ?_⟩
    unfold Graph.StartsIn at hstart
    split at hstart
    · obtain ⟨r, hr, hrk, hro, -⟩ := (hb.sound.named .world _ o).mp hstart
      exact .inr ⟨r, hr, hrk, hro⟩
    · exact .inl hstart
  · obtain ⟨s, hs, rfl⟩ := List.mem_map.mp hw
    obtain ⟨t, -, ht⟩ := forall₂_of_mem_right h hs
    obtain ⟨-, w, -, -, -, -, hvalue, -, -, -⟩ := Store.ofTransfer_eq_ok_iff.mp ht
    obtain ⟨r, hr, hrk, hro, -⟩ := hb.record_of_get? (k := .world) hvalue
    exact ⟨s.value, hword, .inr ⟨r, hr, hrk, hro⟩⟩

/-- A walk stops at once where the world word is unset. -/
theorem Narrated.resolve_of_unset {v : View} {inst : String} {base x : Offset}
    (hx : Reaches v base Slot.instWorld x) (hw : v.word? x = some Offset.unset.word) :
    resolve v inst base = .error (.dereference inst .world .unset) := by
  have hfollow : follow v inst .world x .world = .error (.dereference inst .world .unset) := by
    unfold follow
    rw [hw]
    rfl
  rw [resolve, field_eq_ok_iff.mpr hx]
  show (follow v inst .world x .world >>= _) = _
  rw [hfollow]
  rfl

/-- An instance that the image knows, with a world word that is set in a memory. -/
def Image.Houses (img : Image) (mem : Bytes) (i : Instance) : Prop :=
  ∃ base word, img.instances.get? i.name = some base ∧
    mem.word? (base.toNat + worldRefAt) = some word ∧ word ≠ Offset.unset.word

/-- **Why an instance has no narration**: the image does not know its name, or its world word is unset
in a memory. -/
inductive Narrated.Omitted (img : Image) (mem : Bytes) (i : Instance) : CompileError → Prop where
  | absent (h : img.instances.get? i.name = none) :
      Omitted img mem i (.unresolved (.narrated i.name) .noOffset)
  | unplaced {base : Offset} (hbase : img.instances.get? i.name = some base)
      (hword : mem.word? (base.toNat + worldRefAt) = some Offset.unset.word) :
      Omitted img mem i (.dereference i.name .world .unset)

namespace Narrated.Omitted

variable {mem : Bytes} {i : Instance} {e e' : CompileError}

theorem not_houses (h : Omitted img mem i e) : ¬ img.Houses mem i := by
  intro hhouse
  obtain ⟨base, word, hget, hword, hset⟩ := hhouse
  cases h with
  | absent hnone =>
    rw [hget] at hnone
    cases hnone
  | unplaced hbase hunset =>
    rw [hget] at hbase
    cases hbase
    rw [hword] at hunset
    exact hset (Option.some.inj hunset)

theorem unique (h : Omitted img mem i e) (h' : Omitted img mem i e') : e = e' := by
  cases h with
  | absent hnone =>
    cases h' with
    | absent => rfl
    | unplaced hbase =>
      rw [hnone] at hbase
      cases hbase
  | unplaced hbase =>
    cases h' with
    | absent hnone =>
      rw [hnone] at hbase
      cases hbase
    | unplaced => rfl

end Narrated.Omitted

namespace Image.Built

variable {mem : Bytes} {i : Instance}

theorem ofInst_of_unset (hb : img.Built g₀ l) (hm : l.Memory mem) {q : Placed} (hq : q ∈ l.records)
    (hk : q.record.kind = .inst) (hget : img.instances.get? i.name = some q.offset)
    (hword : mem.word? (q.offset.toNat + worldRefAt) = some Offset.unset.word) :
    Narrated.ofInst img ⟨mem, img.spans⟩ i = .error (.dereference i.name .world .unset) := by
  obtain ⟨haddr, hle, -⟩ := hm.worldWord_field hb.sound hq hk
  have hx : (Offset.ofNat (q.offset.toNat + worldRefAt)).toNat = q.offset.toNat + worldRefAt := by
    refine Offset.toNat_ofNat ?_
    have := hb.sound.bounded
    rw [hm.size_eq] at hle
    omega
  have hreach : Narrated.Reaches ⟨mem, img.spans⟩ q.offset Slot.instWorld
      (.ofNat (q.offset.toNat + worldRefAt)) := by
    refine ⟨haddr, ?_⟩
    show (Offset.ofNat (q.offset.toNat + worldRefAt)).toNat ≤ mem.size
    omega
  have hunset : View.word? ⟨mem, img.spans⟩ (.ofNat (q.offset.toNat + worldRefAt)) =
      some Offset.unset.word := by
    show mem.word? (Offset.ofNat (q.offset.toNat + worldRefAt)).toNat = _
    rw [hx, hword]
  rw [Narrated.ofInst, hget]
  show (Narrated.resolve ⟨mem, img.spans⟩ i.name q.offset >>= _) = _
  rw [Narrated.resolve_of_unset hreach hunset]
  rfl

theorem ofInst_of_world (hb : img.Built g₀ l) (hm : l.Memory mem) {q r : Placed} (hq : q ∈ l.records)
    (hk : q.record.kind = .inst) (hget : img.instances.get? i.name = some q.offset)
    (hr : r ∈ l.records) (hrk : r.record.kind = .world)
    (hword : mem.word? (q.offset.toNat + worldRefAt) = some r.offset.word) :
    ∃ x, Narrated.ofInst img ⟨mem, img.spans⟩ i = .ok x := by
  obtain ⟨x, y, a, args, hwalk⟩ := hm.exists_walk hb.sound hq hk hr hrk hword
  refine ⟨(q.offset, ⟨i.name, args⟩), ?_⟩
  rw [Narrated.ofInst_eq_ok_iff, hb.spans]
  exact ⟨hget, Narrated.resolve_eq_ok_iff.mpr ⟨rfl, x, r.offset, y, a, hwalk⟩⟩

section Words

variable (hb : img.Built g₀ l) (hm : l.Memory mem)
  (hwords : ∀ q ∈ l.records, q.record.kind = .inst → ∃ o : Offset,
    mem.word? (q.offset.toNat + worldRefAt) = some o.word ∧
      (o = .unset ∨ ∃ r ∈ l.records, r.record.kind = .world ∧ r.offset = o))

include hb hm hwords

/-- **An instance is narrated or omitted**, in a memory of the image whose world words lead to worlds if
anywhere. -/
theorem ofInst_cases (i : Instance) :
    (img.Houses mem i ∧ ∃ x, Narrated.ofInst img ⟨mem, img.spans⟩ i = .ok x) ∨
      ∃ e, Narrated.Omitted img mem i e ∧ Narrated.ofInst img ⟨mem, img.spans⟩ i = .error e := by
  cases hget : img.instances.get? i.name with
  | none =>
    refine .inr ⟨_, .absent hget, ?_⟩
    rw [Narrated.ofInst, hget]
    rfl
  | some base =>
    obtain ⟨q, hq, hk, rfl, -⟩ := hb.record_of_get? (k := .inst) hget
    rcases hwords q hq hk with ⟨o, hword, rfl | ⟨r, hr, hrk, rfl⟩⟩
    · exact .inr ⟨_, .unplaced hget hword, hb.ofInst_of_unset hm hq hk hget hword⟩
    · refine .inl ⟨⟨q.offset, r.offset.word, hget, hword, fun he => ?_⟩,
        hb.ofInst_of_world hm hq hk hget hr hrk hword⟩
      exact hb.sound.offset_ne_unset hr (congrArg Offset.mk he)

theorem ofInst_succeeds_iff :
    (∃ x, Narrated.ofInst img ⟨mem, img.spans⟩ i = .ok x) ↔ img.Houses mem i := by
  rcases hb.ofInst_cases hm hwords i with ⟨hhouse, hok⟩ | ⟨e, homit, herror⟩
  · exact iff_of_true hok hhouse
  · refine iff_of_false (fun hok => ?_) fun hhouse => ?_
    · obtain ⟨x, hx⟩ := hok
      rw [herror] at hx
      cases hx
    · exact homit.not_houses hhouse

theorem ofInst_eq_error_iff {e : CompileError} :
    Narrated.ofInst img ⟨mem, img.spans⟩ i = .error e ↔ Narrated.Omitted img mem i e := by
  rcases hb.ofInst_cases hm hwords i with ⟨hhouse, x, hok⟩ | ⟨e', homit, herror⟩
  · rw [hok]
    refine iff_of_false (fun he => ?_) fun homit => homit.not_houses hhouse
    cases he
  · rw [herror, Except.error.injEq]
    exact ⟨fun he => he ▸ homit, homit.unique⟩

end Words

end Image.Built

end Stored

namespace Program

/-- **What a program is refused for** over the image of a graph: too few pages, a transfer that has no
store, an instance that the image does not know, or one that is in no world. In the last case all
transfers have stores, and all earlier instances are known and in a world. -/
inductive Refused (c : EmitConfig) (img : Image) (g : Graph) : CompileError → Prop where
  | pages (h : c.maxPages < c.pagesFor img.size) :
      Refused c img g (.overflow img.size (c.maxPages * pageSize))
  | transfer {n : Nat} {t : Transfer} {e : CompileError} (ht : g.transfers[n]? = some t)
      (h : Store.ofTransfer g img t n = .error e) : Refused c img g e
  | absent {i : Instance} (hi : i ∈ g.instances) (h : img.instances.get? i.name = none) :
      Refused c img g (.unresolved (.narrated i.name) .noOffset)
  | unplaced {stores : List Store} {ys zs : List Instance} {i : Instance} {base : Offset}
      (hstores : List.Forall₂ (fun t s => Store.ofTransfer g img t.1 t.2 = .ok s)
        g.transfers.toList.zipIdx stores)
      (hsplit : g.instances.toList = ys ++ i :: zs)
      (hhouses : ∀ j ∈ ys, img.Houses (img.bytes.writes (stores.map Store.write)) j)
      (hbase : img.instances.get? i.name = some base)
      (hword : (img.bytes.writes (stores.map Store.write)).word? (base.toNat + worldRefAt) =
        some Offset.unset.word) : Refused c img g (.dereference i.name .world .unset)

theorem pagesOf_eq_error_iff {c : EmitConfig} {img : Image} {e : CompileError} :
    pagesOf c img = .error e ↔
      c.maxPages < c.pagesFor img.size ∧ e = .overflow img.size (c.maxPages * pageSize) := by
  unfold pagesOf
  by_cases h : c.maxPages < c.pagesFor img.size
  · rw [if_pos h]
    exact ⟨fun he => ⟨h, (Except.error.inj he).symm⟩, fun he => congrArg Except.error he.2.symm⟩
  · rw [if_neg h]
    constructor
    · intro he
      cases he
    · intro he
      exact absurd he.1 h

section Image

variable {g₀ g : Graph} {l : Layout} {img : Image} {c : EmitConfig} {e : CompileError}

/-- The stores of any graph are performed over the image of a graph: **none falls outside it**. -/
theorem stores_performed (hb : img.Built g₀ l) {ts : List (Transfer × Nat)} {stores : List Store}
    (h : List.Forall₂ (fun t s => Store.ofTransfer g img t.1 t.2 = .ok s) ts stores) :
    stores.foldlM Store.perform img.bytes = .ok (img.bytes.writes (stores.map Store.write)) := by
  refine Store.performed_iff.mpr ⟨fun s hs => ?_, rfl⟩
  obtain ⟨n, hn⟩ := hb.stores_into h s.write (List.mem_map.mpr ⟨s, hs, rfl⟩)
  exact hb.memory.size_eq ▸ hn.le_size hb.sound

/-- Over the memory that the stores leave, the first instance that is omitted stops the narrations. -/
theorem narrations_eq_error_iff (hb : img.Built g₀ l) {ts : List (Transfer × Nat)} {stores : List Store}
    (hstores : List.Forall₂ (fun t s => Store.ofTransfer g img t.1 t.2 = .ok s) ts stores)
    {mem : Bytes} (hmem : mem = img.bytes.writes (stores.map Store.write)) {is : List Instance} :
    is.mapM (fun i => Narrated.ofInst img ⟨mem, img.spans⟩ i) = .error e ↔
      ∃ ys i zs, is = ys ++ i :: zs ∧ (∀ j ∈ ys, img.Houses mem j) ∧ Narrated.Omitted img mem i e := by
  have hm : l.Memory mem := hmem ▸ hb.memory.writes hb.sound (hb.stores_into hstores)
  have hwords := fun q hq hk => hb.worldWord_stored hstores (q := q) hq hk
  rw [← hmem] at hwords
  simp only [mapM_eq_error_iff, hb.ofInst_eq_error_iff hm hwords, ← hb.ofInst_succeeds_iff hm hwords]
  refine ⟨fun h => ?_, fun h => ?_⟩
  · obtain ⟨ys, i, zs, found, hsplit, hfound, homit⟩ := h
    refine ⟨ys, i, zs, hsplit, fun j hj => ?_, homit⟩
    obtain ⟨x, -, hx⟩ := forall₂_of_mem_left hfound hj
    exact ⟨x, hx⟩
  · obtain ⟨ys, i, zs, hsplit, hhouses, homit⟩ := h
    obtain ⟨found, hfound⟩ := exists_forall₂ hhouses
    exact ⟨ys, i, zs, found, hsplit, hfound, homit⟩

/-- **When emission over the image of a graph fails, and with what**: the pages do not suffice; or a
transfer has no store, and it is the first one; or an instance is omitted over the memory that all
stores leave, and it is the first one. -/
theorem emit_eq_error_iff (hb : img.Built g₀ l) : (emit c img g).result = .error e ↔
    (c.maxPages < c.pagesFor img.size ∧ e = .overflow img.size (c.maxPages * pageSize)) ∨
    c.pagesFor img.size ≤ c.maxPages ∧
      ((∃ ts t us stores, g.transfers.toList.zipIdx = ts ++ t :: us ∧
        List.Forall₂ (fun t s => Store.ofTransfer g img t.1 t.2 = .ok s) ts stores ∧
        Store.ofTransfer g img t.1 t.2 = .error e) ∨
      ∃ stores mem ys i zs, List.Forall₂ (fun t s => Store.ofTransfer g img t.1 t.2 = .ok s)
          g.transfers.toList.zipIdx stores ∧ mem = img.bytes.writes (stores.map Store.write) ∧
        g.instances.toList = ys ++ i :: zs ∧ (∀ j ∈ ys, img.Houses mem j) ∧
        Narrated.Omitted img mem i e) := by
  simp only [emit, Traced.result_bind_eq_error_iff, Traced.result_lift, Traced.result_mapM,
    result_lower, result_narrate, pagesOf_eq_error_iff, pagesOf_eq_ok_iff, mapM_eq_ok_iff,
    Traced.result_log]
  refine ⟨fun h => ?_, fun h => ?_⟩
  · rcases h with h | ⟨pages, ⟨hpages, -⟩, h⟩
    · exact .inl h
    refine .inr ⟨hpages, ?_⟩
    rcases h with h | ⟨stores, hstores, h⟩
    · exact .inl (mapM_eq_error_iff.mp h)
    -- the stores are performed, so that only a narration can fail
    rw [stores_performed hb hstores] at h
    rcases h with h | ⟨mem, hmem, h⟩
    · cases h
    cases hmem
    rcases h with h | ⟨found, -, h⟩
    · obtain ⟨ys, i, zs, h⟩ := (narrations_eq_error_iff hb hstores rfl).mp h
      exact .inr ⟨stores, _, ys, i, zs, hstores, rfl, h⟩
    · rcases h with h | ⟨-, -, h⟩ <;> cases h
  · rcases h with h | ⟨hpages, h⟩
    · exact .inl h
    refine .inr ⟨_, ⟨hpages, rfl⟩, ?_⟩
    rcases h with h | ⟨stores, mem, ys, i, zs, hstores, rfl, h⟩
    · exact .inl (mapM_eq_error_iff.mpr h)
    · exact .inr ⟨stores, hstores, .inr ⟨_, stores_performed hb hstores,
        .inl ((narrations_eq_error_iff hb hstores rfl).mpr ⟨ys, i, zs, h⟩)⟩⟩

/-- **Emission over the image of a graph fails for these reasons only**: no store falls outside the
image, and no walk meets a word that leads astray. -/
theorem refused_of_emit (hb : img.Built g₀ l) (h : (emit c img g).result = .error e) :
    Refused c img g e := by
  rcases (emit_eq_error_iff hb).mp h with ⟨hlt, rfl⟩ | ⟨-, h⟩
  · exact .pages hlt
  rcases h with ⟨ts, t, us, -, hsplit, -, ht⟩ | ⟨stores, mem, ys, i, zs, hstores, hmem, hsplit, hhouses, homit⟩
  · have hz : (t.1, t.2) ∈ g.transfers.toList.zipIdx :=
      hsplit ▸ List.mem_append_right ts List.mem_cons_self
    rw [List.mem_zipIdx_iff_getElem?, Array.getElem?_toList] at hz
    exact .transfer hz ht
  · cases homit with
    | absent hget =>
      have hi : i ∈ g.instances.toList := hsplit ▸ List.mem_append_right ys List.mem_cons_self
      exact .absent (Array.mem_toList_iff.mp hi) hget
    | unplaced hbase hword => exact .unplaced hstores hsplit (hmem ▸ hhouses) hbase (hmem ▸ hword)

end Image

end Program

end Menagerie
