import Menagerie.Program
import Menagerie.Narration
import Menagerie.Proofs.AddressCode
import Menagerie.Proofs.Contents

/-! # The walk behind a narration, at compile time and at run time

The compiler walks from an instance to the five parts of its narration with checked steps over a
memory; a program makes the same walk with expressions over words that wrap around.

* `Narrated.Walk` -- the walk as facts about the memory; **a narration is resolved exactly when there
  is one** (`resolve_eq_ok_iff`);
* `Expr.sums` -- the exact sums of the additions that evaluating an expression performs;
  `Expr.Computes` -- an expression has an offset as its value and **none of its additions wraps**;
* `Walk.eval_narration`, `Walk.sums_narration` -- **the expressions of a narration compute the
  addresses that the compiler resolved, without wrapping**;
* `decode_walk` -- **the five addresses are read back as the texts of the records on the way**;
* `exists_walk` -- there is a walk wherever the world word of an instance names a world.
-/

namespace Menagerie

/-! ## 1. Checked steps -/

namespace Narrated

/-- A header slot of a record leads to an address inside memory, or to its end. -/
def Reaches (v : View) (base : Offset) (slot : Nat) (a : Offset) : Prop :=
  v.bytes.fieldAddress? base slot = some a ∧ a.toNat ≤ v.bytes.size

/-- The reference word at an address leads to a record of a kind. -/
def Leads (v : View) (a : Offset) (kind : RecordKind) (o : Offset) : Prop :=
  v.word? a = some o.word ∧ o.isUnset = false ∧ v.startsRecord o kind = true

/-- **The walk from an instance to the five parts of its narration**: over the two references at `x`
and `y` to the world `w` and the animal `a`, then over one header word for each part. -/
structure Walk (v : View) (base x w y a : Offset) (args : Cue Offset) : Prop where
  worldRef : Reaches v base Slot.instWorld x
  world : Leads v x .world w
  speciesRef : Reaches v base Slot.instSpecies y
  animal : Leads v y .animal a
  worldName : Reaches v w Slot.worldName args.world
  gene : Reaches v a Slot.animalGene args.gene
  animalName : Reaches v a Slot.animalName args.animal
  instName : Reaches v base Slot.instName args.inst
  sound : Reaches v a Slot.animalSound args.sound

variable {v : View} {inst : String} {link : Link} {base : Offset}

theorem field_eq_ok_iff {slot : Nat} {a : Offset} :
    field v inst link base slot = .ok a ↔ Reaches v base slot a := by
  unfold field Reaches
  cases v.bytes.fieldAddress? base slot with
  | none => simp
  | some b =>
    simp only [Option.some.injEq]
    split
    · rename_i hb
      constructor
      · intro h
        cases h
      · intro ⟨hba, ha⟩
        subst hba
        exact absurd ha (Nat.not_le_of_lt hb)
    · rename_i hb
      constructor
      · intro h
        cases h
        exact ⟨rfl, Nat.le_of_not_lt hb⟩
      · intro ⟨hba, _⟩
        rw [hba]

theorem follow_eq_ok_iff {a o : Offset} {kind : RecordKind} :
    follow v inst link a kind = .ok o ↔ Leads v a kind o := by
  unfold follow Leads
  cases v.word? a with
  | none => simp
  | some w =>
    simp only [Option.some.injEq]
    constructor
    · intro h
      split at h
      · cases h
      · rename_i hu
        split at h
        · rename_i hk
          cases h
          exact ⟨rfl, Bool.eq_false_iff.mpr hu, hk⟩
        · cases h
    · intro ⟨hw, hu, hk⟩
      subst hw
      rw [if_neg (Bool.eq_false_iff.mp hu), if_pos hk]

/-- **A narration is resolved exactly when there is a walk to its parts.** -/
theorem resolve_eq_ok_iff {n : Narrated} :
    resolve v inst base = .ok n ↔
      n.inst = inst ∧ ∃ x w y a, Walk v base x w y a n.args := by
  simp only [resolve, bind_eq_ok_iff, field_eq_ok_iff, follow_eq_ok_iff]
  constructor
  · intro ⟨x, hx, w, hw, y, hy, a, ha, wn, hwn, ge, hge, an, han, nm, hnm, so, hso, h⟩
    cases h
    exact ⟨rfl, x, w, y, a, hx, hw, hy, ha, hwn, hge, han, hnm, hso⟩
  · intro ⟨hi, x, w, y, a, h⟩
    subst hi
    exact ⟨x, h.worldRef, w, h.world, y, h.speciesRef, a, h.animal, _, h.worldName, _, h.gene, _,
      h.animalName, _, h.instName, _, h.sound, rfl⟩

end Narrated

/-! ## 2. Expressions that do not wrap -/

namespace Expr

/-- The exact sums of the additions performed while an expression is evaluated; nothing is performed
after a trap. -/
def sums (mem : Bytes) : Expr → List Nat
  | const _ => []
  | load _ e => e.sums mem
  | add l r =>
    l.sums mem ++
      match l.eval mem with
      | .error _ => []
      | .ok a =>
        r.sums mem ++
          match r.eval mem with
          | .error _ => []
          | .ok b => [a.toNat + b.toNat]

/-- **An expression has an offset as its value, and none of its additions wraps around.** -/
structure Computes (mem : Bytes) (e : Expr) (o : Offset) : Prop where
  eval : e.eval mem = .ok o.word
  sums : ∀ s ∈ e.sums mem, s < 2 ^ 32

variable {mem : Bytes} {e : Expr}

theorem computes_ofOffset (o : Offset) : (ofOffset o).Computes mem o :=
  ⟨rfl, fun _ hs => absurd hs List.not_mem_nil⟩

theorem Computes.load {b : Offset} (h : e.Computes mem b) {k : UInt32} {w : UInt32}
    (hw : mem.word? (b.toNat + k.toNat) = some w) : (load k e).Computes mem ⟨w⟩ :=
  ⟨eval_load_of_word h.eval hw, h.sums⟩

theorem Computes.add {l r : Expr} {a b c : Offset} (hl : l.Computes mem a) (hr : r.Computes mem b)
    (hc : a.add? b.toNat = some c) : (add l r).Computes mem c := by
  have hsum := Offset.add?_eq_some_iff.mp hc
  have hlt := c.toNat_lt
  refine ⟨?_, fun s hs => ?_⟩
  · rw [Expr.eval, hl.eval, hr.eval]
    have hword : a.word + b.word = c.word := by
      apply UInt32.toNat_inj.mp
      rw [UInt32.toNat_add]
      show (a.toNat + b.toNat) % 2 ^ 32 = c.toNat
      omega
    exact congrArg Except.ok hword
  · rw [Expr.sums, hl.eval, hr.eval] at hs
    simp only [List.mem_append, List.mem_singleton] at hs
    rcases hs with hs | hs | hs
    · exact hl.sums s hs
    · exact hr.sums s hs
    · rw [hs]
      show a.toNat + b.toNat < 2 ^ 32
      omega

/-- **The expression for a field computes the checked address.** -/
theorem Computes.field {b a : Offset} (h : e.Computes mem b) {slot : Nat}
    (ha : mem.fieldAddress? b slot = some a) :
    (e.field (UInt32.ofNat (Bytes.slotAt slot))).Computes mem a := by
  simp only [Bytes.fieldAddress?, Option.bind_eq_bind, Option.bind_eq_some_iff] at ha
  obtain ⟨header, hh, rel, hrel, ha⟩ := ha
  have hheader := Offset.add?_eq_some_iff.mp hh
  have hlt := header.toNat_lt
  have hslot : (UInt32.ofNat (Bytes.slotAt slot)).toNat = Bytes.slotAt slot :=
    UInt32.toNat_ofNat_of_lt (by simp only [UInt32.size]; omega)
  refine h.add (h.load (w := rel) ?_) ha
  rw [hslot, hheader]
  exact hrel

/-- The expression that follows a reference computes what the word says. -/
theorem Computes.follow {a o : Offset} (h : e.Computes mem a) (hw : mem.wordAt? a = some o.word) :
    (Expr.load 0 e).Computes mem o :=
  h.load hw

end Expr

/-! ## 3. Both walks agree -/

namespace Narrated.Walk

variable {v : View} {base x w y a : Offset} {args : Cue Offset}

/-- The five expressions of a narration compute the addresses of the walk. -/
theorem computes (h : Walk v base x w y a args) :
    (Expr.narration base).world.Computes v.bytes args.world ∧
      (Expr.narration base).gene.Computes v.bytes args.gene ∧
      (Expr.narration base).animal.Computes v.bytes args.animal ∧
      (Expr.narration base).inst.Computes v.bytes args.inst ∧
      (Expr.narration base).sound.Computes v.bytes args.sound := by
  have hbase : (Expr.ofOffset base).Computes v.bytes base := Expr.computes_ofOffset base
  have hworld := (hbase.field h.worldRef.1).follow h.world.1
  have hanimal := (hbase.field h.speciesRef.1).follow h.animal.1
  exact ⟨hworld.field h.worldName.1, hanimal.field h.gene.1, hanimal.field h.animalName.1,
    hbase.field h.instName.1, hanimal.field h.sound.1⟩

/-- **The expressions of a narration evaluate to the addresses that the compiler resolved.** -/
theorem eval_narration (h : Walk v base x w y a args) :
    (Expr.narration base).mapM (Expr.eval v.bytes) = .ok (args.map (·.word)) := by
  obtain ⟨hw, hg, ha, hi, hs⟩ := h.computes
  rw [Cue.mapM, hw.eval, hg.eval, ha.eval, hi.eval, hs.eval]
  rfl

/-- **No addition of a narration wraps around.** -/
theorem sums_narration (h : Walk v base x w y a args) :
    ∀ e ∈ (Expr.narration base).toList, ∀ s ∈ e.sums v.bytes, s < 2 ^ 32 := by
  obtain ⟨hw, hg, ha, hi, hs⟩ := h.computes
  intro e he
  simp only [Cue.toList, List.mem_cons, List.not_mem_nil, or_false] at he
  rcases he with rfl | rfl | rfl | rfl | rfl
  · exact hw.sums
  · exact hg.sums
  · exact ha.sums
  · exact hi.sums
  · exact hs.sums

end Narrated.Walk

/-! ## 4. What is found at the addresses -/

/-- What a header slot reaches is read as what its field says. -/
theorem View.Reads.textAt? {v : View} {base a : Offset} {kind : RecordKind} {slot : Nat} {s : String}
    (h : v.Reads base kind slot s) (ha : Narrated.Reaches v base slot a) :
    v.textAt? a kind slot = some s := by
  obtain ⟨b, hb, -, htext⟩ := h.address
  rw [ha.1] at hb
  cases hb
  exact htext

namespace Layout.Memory

variable {g : Graph} {l : Layout} {mem : Bytes} {p : Placed} {x w y a : Offset} {args : Cue Offset}

/-- The walk goes to the world that the world word names. -/
theorem world_of_walk (h : l.Sound g) (hm : l.Memory mem) (hp : p ∈ l.records)
    (hk : p.record.kind = .inst) (hwalk : Narrated.Walk (l.view mem) p.offset x w y a args) :
    mem.word? (p.offset.toNat + worldRefAt) = some w.word := by
  obtain ⟨haddr, hle, -⟩ := worldWord_field h hm hp hk
  have hx : some x = some (Offset.ofNat (p.offset.toNat + worldRefAt)) :=
    hwalk.worldRef.1.symm.trans haddr
  cases hx
  have hlt : p.offset.toNat + worldRefAt < 2 ^ 32 := by
    have := h.bounded
    rw [hm.size_eq] at hle
    omega
  rw [← Offset.toNat_ofNat hlt]
  exact hwalk.world.1

/-- The walk goes to the species of the instance. -/
theorem species_of_walk (h : l.Sound g) (hm : l.Memory mem) (hp : p ∈ l.records)
    (hk : p.record.kind = .inst) (hwalk : Narrated.Walk (l.view mem) p.offset x w y a args)
    {q : Placed} (hq : q ∈ l.records) (hqa : q.offset = a) :
    ∃ i, g.instances[p.index]? = some i ∧ i.species.index = q.index := by
  obtain ⟨i, s, o, hi, hs, ho, -, -, z, hz, hword⟩ := inst_reads h hm hp hk
  have hy : some y = some z := hwalk.speciesRef.1.symm.trans hz
  cases hy
  have hao : some a.word = some o.word := hwalk.animal.1.symm.trans hword
  cases a
  cases o
  cases hao
  obtain ⟨r, hr, hrk, hro, hname⟩ := (h.named .animal s.name _).mp ho
  rw [h.eq_of_offset_eq hr hq (hro.trans hqa.symm)] at hname
  exact ⟨i, hi, h.distinct (Graph.name?_animal hs) hname⟩

/-- **The five addresses of a walk are read back as texts**: those of the instance, of its species,
and of the world that the walk went to. -/
theorem decode_walk (h : l.Sound g) (hm : l.Memory mem) (hp : p ∈ l.records)
    (hk : p.record.kind = .inst) (hwalk : Narrated.Walk (l.view mem) p.offset x w y a args) :
    ∃ i s n, g.instances[p.index]? = some i ∧ g.animal? i.species = some s ∧
      (∃ q ∈ l.records, q.record.kind = .world ∧ q.offset = w ∧ g.worlds[q.index]? = some n) ∧
      Narration.decode? (l.view mem) args = some ⟨n.name, s.gene, s.name, i.name, s.sound⟩ := by
  obtain ⟨i, -, -, hi, -, -, hname, -⟩ := inst_reads h hm hp hk
  obtain ⟨q, hq, hqa, hqk⟩ := of_startsRecord h hwalk.animal.2.2
  obtain ⟨s, hs, hgene, hspecies, hsound⟩ := animal_reads h hm hq hqk
  obtain ⟨r, hr, hrw, hrk⟩ := of_startsRecord h hwalk.world.2.2
  obtain ⟨n, -, hn, -, hworld, -⟩ := world_reads h hm hr hrk
  obtain ⟨i', hi', hkind⟩ := species_of_walk h hm hp hk hwalk hq hqa
  rw [hi] at hi'
  cases hi'
  rw [hqa] at hgene hspecies hsound
  rw [hrw] at hworld
  refine ⟨i, s, n, hi, by rw [Graph.animal?, hkind, hs], ⟨r, hr, hrk, hrw, hn⟩, ?_⟩
  simp only [Narration.decode?, hworld.textAt? hwalk.worldName, hgene.textAt? hwalk.gene,
    hspecies.textAt? hwalk.animalName, hname.textAt? hwalk.instName, hsound.textAt? hwalk.sound,
    Option.bind_eq_bind, Option.bind_some, Option.pure_def]

/-! ## 5. Where there is a walk -/

theorem not_unset (h : l.Sound g) (hp : p ∈ l.records) : p.offset.isUnset = false := by
  rw [Offset.isUnset, beq_eq_false_iff_ne]
  exact h.offset_ne_unset hp

/-- **Where the world word of an instance names a world, there is a walk.** -/
theorem exists_walk (h : l.Sound g) (hm : l.Memory mem) (hp : p ∈ l.records)
    (hk : p.record.kind = .inst) {q : Placed} (hq : q ∈ l.records) (hqk : q.record.kind = .world)
    (hword : mem.word? (p.offset.toNat + worldRefAt) = some q.offset.word) :
    ∃ x y a args, Narrated.Walk (l.view mem) p.offset x q.offset y a args := by
  obtain ⟨haddr, hle, -⟩ := worldWord_field h hm hp hk
  obtain ⟨i, s, o, hi, hs, ho, hname, -, y, hy, hspecies⟩ := inst_reads h hm hp hk
  obtain ⟨r, hr, hrk, rfl, -⟩ := (h.named .animal s.name o).mp ho
  obtain ⟨_, -, ⟨-, ag, hag, hag', -⟩, ⟨-, an, han, han', -⟩, ⟨-, as, has, has', -⟩⟩ :=
    animal_reads h hm hr hrk
  obtain ⟨_, _, -, -, ⟨-, wn, hwn, hwn', -⟩, -⟩ := world_reads h hm hq hqk
  obtain ⟨-, nm, hnm, hnm', -⟩ := hname
  have hlt : p.offset.toNat + worldRefAt < 2 ^ 32 := by
    have := h.bounded
    rw [hm.size_eq] at hle
    omega
  have hx := Offset.toNat_ofNat hlt
  have hyle : y.toNat ≤ mem.size := by
    have : y.toNat + 4 ≤ mem.size := Bytes.isSome_word?.mp (Option.isSome_of_eq_some hspecies)
    omega
  refine ⟨_, y, r.offset, ⟨wn, ag, an, nm, as⟩, ⟨haddr, ?_⟩, ⟨?_, not_unset h hq, ?_⟩, ⟨hy, hyle⟩,
    ⟨hspecies, not_unset h hr, ?_⟩, ⟨hwn, hwn'⟩, ⟨hag, hag'⟩, ⟨han, han'⟩, ⟨hnm, hnm'⟩, ⟨has, has'⟩⟩
  · show (Offset.ofNat _).toNat ≤ mem.size
    rw [hx]
    omega
  · show mem.word? (Offset.ofNat _).toNat = _
    rw [hx, hword]
  · exact hqk ▸ startsRecord_eq h hq
  · exact hrk ▸ startsRecord_eq h hr

end Layout.Memory

end Menagerie
