import Menagerie.Proofs.Fields
import Menagerie.Proofs.Placement

/-! # Reading a memory with the shape of a layout

A program changes memory only in the words that say which world an instance is in. `Layout.Memory`
is the class of memories that differ from the layout's bytes in such words only; it contains the
bytes of the layout itself and is closed under writing into these words (`Memory.writes`).

**In each of these memories every record can still be read**, whatever the world words hold:

* `Memory.laid` -- the record lies where its span says, so its fields are found by their slots
  (`Memory.fieldAddress?_eq`, `Memory.field?_eq`);
* `Memory.fieldAt?_eq` -- **a field by its address alone**, although an empty field begins where the
  next field or the next record begins;
* `Memory.holds_field` -- all fields but the world word have the content the layout gave them.
-/

namespace Menagerie

/-! ## 1. Memories of a layout -/

/-- A placed record has these fields, one for each slot of its kind. -/
structure Placed.Made (p : Placed) (fields : List Bytes) : Prop where
  record : p.record = Record.ofFields p.record.kind fields
  length : fields.length = p.record.kind.slots

namespace Placed.Made

variable {p : Placed} {fields : List Bytes}

theorem size_eq (h : p.Made fields) : p.record.bytes.size = Record.start fields fields.length := by
  rw [h.record, Record.size_ofFields]

theorem start_le (h : p.Made fields) {i : Nat} (hi : i ≤ fields.length) :
    Record.start fields i ≤ p.record.bytes.size :=
  h.size_eq ▸ Record.start_mono hi

theorem word?_header (h : p.Made fields) {i : Nat} (hi : i < fields.length) :
    p.record.bytes.word? (4 * i) = some (UInt32.ofNat (Record.start fields i)) := by
  rw [h.record, Record.word?_header _ hi]

theorem holds_field (h : p.Made fields) {i : Nat} {f : Bytes} (hf : fields[i]? = some f) :
    Bytes.Holds p.record.bytes f (Record.start fields i) := by
  rw [h.record]
  exact Record.holds_field _ hf

end Placed.Made

namespace Layout

/-- A byte of the word that says which world an instance is in. -/
def InWorldWord (l : Layout) (i : Nat) : Prop :=
  ∃ p ∈ l.records, p.record.kind = .inst ∧
    p.offset.toNat + worldRefAt ≤ i ∧ i < p.offset.toNat + worldRefAt + 4

/-- A write goes into the world word of the instance with a number. -/
def Into (l : Layout) (n : Nat) (w : Bytes.Write) : Prop :=
  ∃ p ∈ l.records, p.record.kind = .inst ∧ p.index = n ∧ w.pos = p.offset.toNat + worldRefAt

/-- A memory that differs from the bytes of the layout in world words only. -/
structure Memory (l : Layout) (mem : Bytes) : Prop where
  size_eq : mem.size = l.bytes.size
  same : ∀ i, ¬ l.InWorldWord i → mem[i]? = l.bytes[i]?

/-- A memory seen with the spans of the layout. -/
abbrev view (l : Layout) (mem : Bytes) : View := ⟨mem, l.spans⟩

theorem memory_bytes (l : Layout) : l.Memory l.bytes := ⟨rfl, fun _ _ => rfl⟩

namespace Sound

variable {g : Graph} {l : Layout} {p : Placed}

theorem made (h : l.Sound g) (hp : p ∈ l.records) : ∃ fields, p.Made fields := by
  obtain ⟨fields, hr, hf⟩ := (h.encodes p hp).fields
  exact ⟨fields, hr, hf⟩

/-- The first field of an instance is one word. -/
theorem inst_fields (h : l.Sound g) (hp : p ∈ l.records) (hk : p.record.kind = .inst) :
    ∃ i a o, g.instances[p.index]? = some i ∧ g.animal? i.species = some a ∧
      l.animals.get? a.name = some o ∧ Bytes.Fits i.name ∧
      p.Made [Record.ofWord Offset.unset.word, Bytes.codes i.name, Record.ofWord o.word] := by
  have he := h.encodes p hp
  rw [hk] at he
  cases he with
  | inst hi hr =>
    obtain ⟨a, o, ha, ho, hn, hr⟩ := Record.ofInst_eq_ok_iff.mp hr
    exact ⟨_, a, o, hi, ha, ho, hn, by rw [hk]; exact hr, by rw [hk]; rfl⟩

theorem animal_fields (h : l.Sound g) (hp : p ∈ l.records) (hk : p.record.kind = .animal) :
    ∃ a, g.animals[p.index]? = some a ∧
      (Bytes.Fits a.gene ∧ Bytes.Fits a.name ∧ Bytes.Fits a.sound) ∧
      p.Made [Bytes.codes a.gene, Bytes.codes a.name, Bytes.codes a.sound] := by
  have he := h.encodes p hp
  rw [hk] at he
  cases he with
  | animal ha hr =>
    obtain ⟨hf, hr⟩ := Record.ofAnimal_eq_ok_iff.mp hr
    exact ⟨_, ha, hf, by rw [hk]; exact hr, by rw [hk]; rfl⟩

theorem world_fields (h : l.Sound g) (hp : p ∈ l.records) (hk : p.record.kind = .world) :
    ∃ w, ∃ os : List Offset, g.worlds[p.index]? = some w ∧ Bytes.Fits w.name ∧
      List.Forall₂ (fun m o => Record.memberOffset g l.instances w.name m = .ok o) w.contains os ∧
      p.Made [Bytes.codes w.name, Bytes.ofWords (os.map (·.word))] := by
  have he := h.encodes p hp
  rw [hk] at he
  cases he with
  | world hw hr =>
    obtain ⟨os, hos, hn, hr⟩ := Record.ofWorld_eq_ok_iff.mp hr
    exact ⟨_, os, hw, hn, hos, by rw [hk]; exact hr, by rw [hk]; rfl⟩

/-- The world word of an instance lies inside its record. -/
theorem worldWord_le (h : l.Sound g) (hp : p ∈ l.records) (hk : p.record.kind = .inst) :
    p.offset.toNat + worldRefAt + 4 ≤ p.stop := by
  obtain ⟨i, a, o, -, -, -, -, hm⟩ := h.inst_fields hp hk
  have := hm.start_le (i := 1) (by simp)
  rw [Record.start_after_world] at this
  unfold Placed.stop
  omega

/-- The world words of two different instances do not overlap. -/
theorem worldWords_apart (h : l.Sound g) {q : Placed} (hp : p ∈ l.records) (hq : q ∈ l.records)
    (hpk : p.record.kind = .inst) (hqk : q.record.kind = .inst) (hne : p ≠ q) :
    p.offset.toNat + worldRefAt + 4 ≤ q.offset.toNat + worldRefAt ∨
      q.offset.toNat + worldRefAt + 4 ≤ p.offset.toNat + worldRefAt := by
  have hp' := h.worldWord_le hp hpk
  have hq' := h.worldWord_le hq hqk
  rcases h.apart hp hq hne with hd | hd
  · left
    omega
  · right
    omega

end Sound

section Into

variable {g : Graph} {l : Layout} {n : Nat} {w : Bytes.Write}

theorem Into.le_size (h : l.Sound g) (hw : l.Into n w) : w.pos + 4 ≤ l.bytes.size := by
  obtain ⟨p, hp, hk, -, hpos⟩ := hw
  have := h.worldWord_le hp hk
  have := h.stop_le hp
  omega

/-- The number of the instance says which world word is written. -/
theorem Into.pos_eq_iff (h : l.Sound g) (hw : l.Into n w) {p : Placed} (hp : p ∈ l.records)
    (hk : p.record.kind = .inst) : w.pos = p.offset.toNat + worldRefAt ↔ n = p.index := by
  obtain ⟨q, hq, hqk, rfl, hpos⟩ := hw
  rw [hpos]
  constructor
  · intro he
    rw [h.eq_of_offset_eq hq hp (Offset.ext_toNat (by omega))]
  · intro he
    rw [h.eq_of_index_eq hq hp (hqk.trans hk.symm) he]

/-- A write into a world word hits another world word exactly or not at all. -/
theorem Into.clean (h : l.Sound g) (hw : l.Into n w) {p : Placed} (hp : p ∈ l.records)
    (hk : p.record.kind = .inst) : w.Clean (p.offset.toNat + worldRefAt) := by
  obtain ⟨q, hq, hqk, -, hpos⟩ := hw
  unfold Bytes.Write.Clean
  rw [hpos]
  by_cases hpq : q = p
  · exact .inl (by rw [hpq])
  · exact .inr (h.worldWords_apart hq hp hqk hk hpq)

end Into

namespace Memory

variable {g : Graph} {l : Layout} {mem : Bytes}

/-- **Words written into world words keep the shape.** -/
theorem writes (h : l.Sound g) (hm : l.Memory mem) {ws : List Bytes.Write}
    (hws : ∀ w ∈ ws, ∃ n, l.Into n w) : l.Memory (mem.writes ws) := by
  refine ⟨by rw [Bytes.size_writes, hm.size_eq], fun i hi => ?_⟩
  rw [Bytes.getElem?_writes_of_outside (fun w hw => ?_) (fun w hw hin => ?_), hm.same i hi]
  · obtain ⟨n, hn⟩ := hws w hw
    exact hm.size_eq ▸ hn.le_size h
  · obtain ⟨n, p, hp, hk, -, hpos⟩ := hws w hw
    exact hi ⟨p, hp, hk, by omega, by omega⟩

section Record

variable {p : Placed} {fields : List Bytes}

/-- A byte of a record outside its world word is the one the layout put there. -/
theorem getElem?_record (h : l.Sound g) (hm : l.Memory mem) (hp : p ∈ l.records) {j : Nat}
    (hj : j < p.record.bytes.size)
    (hout : ¬ (p.record.kind = .inst ∧ worldRefAt ≤ j ∧ j < worldRefAt + 4)) :
    mem[p.offset.toNat + j]? = p.record.bytes[j]? := by
  rw [hm.same, h.holds hp j hj]
  rintro ⟨q, hq, hk, hlo, hhi⟩
  by_cases hpq : p = q
  · subst hpq
    exact hout ⟨hk, by omega, by omega⟩
  · have := h.worldWord_le hq hk
    have := h.apart hp hq hpq
    unfold Placed.stop at *
    omega

/-- A stretch of a record outside its world word is the one the layout put there. -/
theorem holds_part (h : l.Sound g) (hm : l.Memory mem) (hp : p ∈ l.records) {part : Bytes} {q : Nat}
    (hpart : Bytes.Holds p.record.bytes part q) (hq : q + part.size ≤ p.record.bytes.size)
    (hout : p.record.kind = .inst → q + part.size ≤ worldRefAt ∨ worldRefAt + 4 ≤ q) :
    Bytes.Holds mem part (p.offset.toNat + q) := by
  intro j hj
  rw [Nat.add_assoc, getElem?_record h hm hp (by omega), hpart j hj]
  rintro ⟨hk, hlo, hhi⟩
  have := hout hk
  omega

/-- **The header word of a slot is the start of its field**, in every memory of the layout. -/
theorem word?_header (h : l.Sound g) (hm : l.Memory mem) (hp : p ∈ l.records) (hf : p.Made fields)
    {i : Nat} (hi : i < p.record.kind.slots) :
    mem.word? (p.offset.toNat + 4 * i) = some (UInt32.ofNat (Record.start fields i)) := by
  have hi' : i < fields.length := by rw [hf.length]; exact hi
  have hle := hf.start_le (Nat.zero_le _)
  have hstart := Record.header_le_start fields 0
  have hin : p.record.kind = .inst → 4 * i + 4 ≤ worldRefAt := by
    intro hk
    rw [hk] at hi
    simp only [RecordKind.slots] at hi
    unfold worldRefAt
    omega
  rw [← hf.word?_header hi']
  refine Bytes.word?_congr fun j hj => ?_
  rw [Nat.add_assoc]
  refine getElem?_record h hm hp (by omega) ?_
  rintro ⟨hk, hlo, -⟩
  have := hin hk
  omega

theorem apart_spans (h : l.Sound g) : Apart l.spans := by
  have hd := h.tiles.disjoint
  refine ⟨fun s hs => ?_, ?_⟩
  · obtain ⟨p, hp, rfl⟩ := Array.mem_map.mp hs
    rw [Placed.span, Record.toNat_len (h.small p hp)]
    exact h.size_pos hp
  · rw [spans, Array.toList_map, List.pairwise_map]
    refine hd.imp_of_mem fun {p q} hp _ hpq => ?_
    rw [h.stop_span (Array.mem_toList_iff.mp hp)]
    exact hpq

theorem spanAt?_eq (h : l.Sound g) (hp : p ∈ l.records) :
    (l.view mem).spanAt? p.offset = some p.span :=
  (View.spanAt?_eq_some_iff (apart_spans h).increasing).mpr
    ⟨Array.mem_map.mpr ⟨p, hp, rfl⟩, rfl⟩

/-- **Every record lies where its span says**, with its header as the layout wrote it. -/
theorem laid (h : l.Sound g) (hm : l.Memory mem) (hp : p ∈ l.records) (hf : p.Made fields) :
    (l.view mem).Laid p.span fields := by
  have hstop : p.span.stop ≤ l.bytes.size := h.stop_span hp ▸ h.stop_le hp
  exact
    { found := spanAt?_eq h hp
      length := hf.length
      header := fun _ hi => word?_header h hm hp hf hi
      len_eq := (Record.toNat_len (h.small p hp)).trans hf.size_eq
      inside := hm.size_eq.symm ▸ hstop
      bounded := Nat.lt_of_le_of_lt hstop h.bounded }

theorem field_lt (h : l.Sound g) (hp : p ∈ l.records) (hf : p.Made fields) {i : Nat}
    (hi : i ≤ p.record.kind.slots) : p.offset.toNat + Record.start fields i < 2 ^ 32 :=
  (laid h l.memory_bytes hp hf).field_lt hi

theorem toNat_start (h : l.Sound g) (hp : p ∈ l.records) (hf : p.Made fields) {i : Nat}
    (hi : i ≤ p.record.kind.slots) :
    (UInt32.ofNat (Record.start fields i)).toNat = Record.start fields i :=
  (laid h l.memory_bytes hp hf).toNat_start hi

/-- **The address computed from a header word is that of the field.** -/
theorem fieldAddress?_eq (h : l.Sound g) (hm : l.Memory mem) (hp : p ∈ l.records) (hf : p.Made fields)
    {i : Nat} (hi : i < p.record.kind.slots) :
    mem.fieldAddress? p.offset i = some (.ofNat (p.offset.toNat + Record.start fields i)) :=
  (laid h hm hp hf).fieldAddress?_eq hi

/-- **A field is found by its record and slot.** -/
theorem field?_eq (h : l.Sound g) (hm : l.Memory mem) (hp : p ∈ l.records) (hf : p.Made fields)
    {i : Nat} (hi : i < p.record.kind.slots) :
    (l.view mem).field? p.offset i =
      some (mem.extract (p.offset.toNat + Record.start fields i)
        (p.offset.toNat + Record.start fields (i + 1))) :=
  (laid h hm hp hf).field?_eq hi

/-- The search among candidate records stops at a record of the kind wanted whose field begins at the
address, and passes every other record by. -/
theorem fieldAmong?_cons (h : l.Sound g) (hm : l.Memory mem) (hp : p ∈ l.records) (hf : p.Made fields)
    {a : Offset} {kind : RecordKind} {i : Nat} (hi : i < kind.slots) (rest : List Span) :
    (l.view mem).fieldAmong? a kind i (p.span :: rest) =
      if p.record.kind = kind ∧ p.offset.toNat + Record.start fields i = a.toNat then
        (l.view mem).field? p.offset i
      else (l.view mem).fieldAmong? a kind i rest := by
  rw [View.fieldAmong?, Placed.kind_span, Placed.offset_span]
  by_cases hk : p.record.kind = kind
  · subst hk
    obtain ⟨b, hb, hw⟩ := (laid h hm hp hf).slot_word hi
    rw [Placed.offset_span] at hb
    simp only [Option.bind_eq_bind, hb, hw, Option.bind_some, true_and, if_true,
      toNat_start h hp hf (Nat.le_of_lt hi)]
  · rw [if_neg hk, if_neg fun hc => hk hc.1]

/-- **A field is found by the address at which it begins.** -/
theorem fieldAt?_eq (h : l.Sound g) (hm : l.Memory mem) (hp : p ∈ l.records) (hf : p.Made fields)
    {i : Nat} (hi : i < p.record.kind.slots) :
    (l.view mem).fieldAt? (.ofNat (p.offset.toNat + Record.start fields i))
        p.record.kind i =
      some (mem.extract (p.offset.toNat + Record.start fields i)
        (p.offset.toNat + Record.start fields (i + 1))) := by
  have ha := Offset.toNat_ofNat (field_lt h hp hf (Nat.le_of_lt hi))
  have hle : Record.start fields i ≤ p.record.bytes.size := hf.start_le (hf.length ▸ Nat.le_of_lt hi)
  generalize Offset.ofNat (p.offset.toNat + Record.start fields i) = a at ha
  have hspan : p.span ∈ l.spans := Array.mem_map.mpr ⟨p, hp, rfl⟩
  have hstop : p.span.stop = p.stop := h.stop_span hp
  rw [View.fieldAt?, ← field?_eq h hm hp hf hi]
  rcases Nat.lt_or_eq_of_le hle with hlt | hend
  · have hc : (l.view mem).spanContaining? a = some p.span := by
      refine (View.spanContaining?_eq_some_iff (apart_spans h).disjoint).mpr ⟨hspan, ?_, ?_⟩
      · rw [ha, Placed.offset_span]
        omega
      · rw [ha, hstop, Placed.stop]
        omega
    rw [hc, Option.toList_some, List.singleton_append, fieldAmong?_cons h hm hp hf hi,
      if_pos ⟨rfl, ha.symm⟩]
  · -- an empty last field: the record around its address, if any, is the next one, and its own
    -- field of this slot begins after its header
    have hc : (l.view mem).spanEndingAt? a = some p.span := by
      refine (View.spanEndingAt?_eq_some_iff (apart_spans h)).mpr ⟨hspan, ?_⟩
      rw [hstop, ha, Placed.stop, hend]
    have hfound : (l.view mem).fieldAmong? a p.record.kind i [p.span] =
        (l.view mem).field? p.offset i := by
      rw [fieldAmong?_cons h hm hp hf hi, if_pos ⟨rfl, ha.symm⟩]
    rw [hc, Option.toList_some]
    cases hn : (l.view mem).spanContaining? a with
    | none => exact hfound
    | some s =>
      obtain ⟨hs, hlo, hhi⟩ := (View.spanContaining?_eq_some_iff (apart_spans h).disjoint).mp hn
      obtain ⟨q, hq, rfl⟩ := Array.mem_map.mp hs
      obtain ⟨fq, hfq⟩ := h.made hq
      rw [Option.toList_some, List.singleton_append, fieldAmong?_cons h hm hq hfq hi, if_neg, hfound]
      rintro ⟨hk, hstart⟩
      have hpos : 0 < fq.length := by
        rw [hfq.length, hk]
        omega
      have hne : p ≠ q := by
        rintro rfl
        rw [hstop, Placed.stop] at hhi
        omega
      have := Record.header_le_start fq i
      have := h.apart hp hq hne
      rw [Placed.offset_span] at hlo
      rw [h.stop_span hq] at hhi
      unfold Placed.stop at *
      omega

/-- **A field after the world word has the content the layout gave it**, and so has every field of an
animal or a world. -/
theorem extract_field (h : l.Sound g) (hm : l.Memory mem) (hp : p ∈ l.records) (hf : p.Made fields)
    {i : Nat} {f : Bytes} (hfi : fields[i]? = some f)
    (hout : p.record.kind = .inst → worldRefAt + 4 ≤ Record.start fields i) :
    mem.extract (p.offset.toNat + Record.start fields i)
      (p.offset.toNat + Record.start fields (i + 1)) = f := by
  have hsucc := Record.start_succ hfi
  have hi : i < fields.length := (List.getElem?_eq_some_iff.mp hfi).1
  have hle := hf.start_le (Nat.succ_le_of_lt hi)
  rw [Nat.succ_eq_add_one, hsucc] at hle
  rw [hsucc, ← Nat.add_assoc]
  exact (holds_part h hm hp (hf.holds_field hfi) hle fun hk => .inr (hout hk)).extract_eq

end Record

end Memory

end Layout

end Menagerie
