import Menagerie.Graph.Sample
import Menagerie.Proofs.Settling

/-! # Which field begins at an address

An empty field shares its address with the field after it, and an empty last field with the record
after it. The slot still tells them apart:

* `Placed.Begins`, `Placed.fieldStop` -- where a field begins and ends, by the header of its record;
* `Layout.Sound.begins_unique` -- **at most one record of a kind has a given field at an address**;
* `Layout.Memory.fieldAmong?_eq_some`, `Layout.Memory.fieldAmong?_eq_none` -- the search among
  candidates answers such a field only, and nothing for a slot that the kind does not have;
* `Layout.Memory.fieldAt?_eq_some_iff` -- **a field is found by an address exactly when it begins
  there**;
* `Image.field_found_iff_begins` -- the same of every memory that differs from an image in world words.
-/

namespace Menagerie

/-! ## 1. Where fields begin -/

namespace Placed

/-- The header of a record of kind `k` says that its field `i` begins at an address. -/
structure Begins (p : Placed) (k : RecordKind) (i : Nat) (a : Offset) : Prop where
  kind : p.record.kind = k
  slot : i < k.slots
  header : ∃ rel, p.record.header[i]? = some rel ∧ a.toNat = p.offset.toNat + rel.toNat

/-- The first address after field `i`: that of the next field, or the end of the record. -/
def fieldStop (p : Placed) (i : Nat) : Nat :=
  p.offset.toNat + (p.record.header[i + 1]?.getD p.record.len).toNat

theorem Made.getElem?_header {p : Placed} {fields : List Bytes} (h : p.Made fields) (i : Nat) :
    p.record.header[i]? =
      if i < fields.length then some (UInt32.ofNat (Record.start fields i)) else none := by
  rw [h.record]
  by_cases hi : i < fields.length
  · rw [if_pos hi, Record.getElem?_header _ hi]
  · rw [if_neg hi, List.getElem?_eq_none]
    rw [Record.ofFields, List.length_map, Record.length_starts]
    omega

end Placed

namespace Layout

section Fields

variable {g : Graph} {l : Layout} {p q : Placed} {fields : List Bytes} {k : RecordKind} {i : Nat}
  {a : Offset}

theorem Sound.begins_iff (h : l.Sound g) (hp : p ∈ l.records) (hf : p.Made fields) :
    p.Begins k i a ↔
      p.record.kind = k ∧ i < k.slots ∧ p.offset.toNat + Record.start fields i = a.toNat := by
  constructor
  · intro hb
    obtain ⟨rel, hrel, ha⟩ := hb.header
    have hi : i < p.record.kind.slots := hb.kind ▸ hb.slot
    rw [hf.getElem?_header, if_pos (hf.length ▸ hi)] at hrel
    rw [← Option.some.inj hrel, Memory.toNat_start h hp hf (Nat.le_of_lt hi)] at ha
    exact ⟨hb.kind, hb.slot, ha.symm⟩
  · intro ⟨hk, hi, ha⟩
    subst hk
    refine ⟨rfl, hi, UInt32.ofNat (Record.start fields i), ?_, ?_⟩
    · rw [hf.getElem?_header, if_pos (hf.length ▸ hi)]
    · rw [Memory.toNat_start h hp hf (Nat.le_of_lt hi), ha]

theorem Sound.fieldStop_eq (h : l.Sound g) (hp : p ∈ l.records) (hf : p.Made fields)
    (hi : i < p.record.kind.slots) :
    p.fieldStop i = p.offset.toNat + Record.start fields (i + 1) := by
  rw [Placed.fieldStop, hf.getElem?_header]
  by_cases hlast : i + 1 < fields.length
  · rw [if_pos hlast, Option.getD_some, Memory.toNat_start h hp hf (Nat.succ_le_of_lt hi)]
  · have hend : i + 1 = fields.length := by
      rw [hf.length] at hlast ⊢
      omega
    rw [if_neg hlast, Option.getD_none, hend, ← hf.size_eq, Record.toNat_len (h.small p hp)]

/-- **At most one record of a kind has its field `i` at an address.** A field does not begin beyond the
end of its record, and it begins after the header, so never where a record starts. -/
theorem Sound.begins_unique (h : l.Sound g) (hp : p ∈ l.records) (hq : q ∈ l.records)
    (hbp : p.Begins k i a) (hbq : q.Begins k i a) : p = q := by
  by_contra hne
  obtain ⟨fp, hfp⟩ := h.made hp
  obtain ⟨fq, hfq⟩ := h.made hq
  obtain ⟨hpk, hi, hpa⟩ := (h.begins_iff hp hfp).mp hbp
  obtain ⟨hqk, -, hqa⟩ := (h.begins_iff hq hfq).mp hbq
  have hip : i < fp.length := by rw [hfp.length, hpk]; exact hi
  have hiq : i < fq.length := by rw [hfq.length, hqk]; exact hi
  have := hfp.start_le (Nat.le_of_lt hip)
  have := hfq.start_le (Nat.le_of_lt hiq)
  have := Record.header_le_start fp i
  have := Record.header_le_start fq i
  rcases h.apart hp hq hne with hd | hd
  · unfold Placed.stop at hd
    omega
  · unfold Placed.stop at hd
    omega

end Fields

/-! ## 2. The search by address -/

namespace Memory

variable {g : Graph} {l : Layout} {mem : Bytes} {k : RecordKind} {i : Nat} {a : Offset}
  {candidates : List Span}

/-- **What the search among records finds is a field that begins at the address.** -/
theorem fieldAmong?_eq_some (h : l.Sound g) (hm : l.Memory mem) (hi : i < k.slots)
    (hc : ∀ s ∈ candidates, s ∈ l.spans) {b : Bytes}
    (hb : (l.view mem).fieldAmong? a k i candidates = some b) :
    ∃ p ∈ l.records, p.Begins k i a ∧ (l.view mem).field? p.offset i = some b := by
  induction candidates with
  | nil => cases hb
  | cons s rest ih =>
    obtain ⟨hs, hrest⟩ := List.forall_mem_cons.mp hc
    obtain ⟨p, hp, rfl⟩ := Array.mem_map.mp hs
    obtain ⟨fields, hf⟩ := h.made hp
    rw [fieldAmong?_cons h hm hp hf hi] at hb
    by_cases hbegin : p.record.kind = k ∧ p.offset.toNat + Record.start fields i = a.toNat
    · rw [if_pos hbegin] at hb
      exact ⟨p, hp, (h.begins_iff hp hf).mpr ⟨hbegin.1, hi, hbegin.2⟩, hb⟩
    · rw [if_neg hbegin] at hb
      exact ih hrest hb

/-- A record has no field behind its slots. -/
theorem field?_eq_none (h : l.Sound g) {p : Placed} (hp : p ∈ l.records)
    (hi : p.record.kind.slots ≤ i) : (l.view mem).field? p.offset i = none := by
  have hi' : ¬ i < p.span.kind.slots := Nat.not_lt.mpr hi
  rw [View.field?, spanAt?_eq h hp]
  exact if_neg hi'

/-- **The search finds nothing for a slot that the kind does not have**, whatever word a record holds
where such a slot would be. -/
theorem fieldAmong?_eq_none (h : l.Sound g) (hi : k.slots ≤ i) (hc : ∀ s ∈ candidates, s ∈ l.spans) :
    (l.view mem).fieldAmong? a k i candidates = none := by
  induction candidates with
  | nil => rfl
  | cons s rest ih =>
    obtain ⟨hs, hrest⟩ := List.forall_mem_cons.mp hc
    obtain ⟨p, hp, rfl⟩ := Array.mem_map.mp hs
    have hsearch := ih hrest
    rw [View.fieldAmong?, Placed.kind_span, Placed.offset_span]
    by_cases hk : p.record.kind = k
    · have hfield : (l.view mem).field? p.offset i = none := field?_eq_none h hp (hk ▸ hi)
      rw [if_pos hk]
      cases hadd : p.offset.add? (Bytes.slotAt i) with
      | none => rfl
      | some header =>
        cases hword : (l.view mem).word? header with
        | none => simp only [Option.bind_eq_bind, Option.bind_some, hword, Option.bind_none]
        | some rel =>
          simp only [Option.bind_eq_bind, Option.bind_some, hword, hfield, hsearch, ite_self]
    · rw [if_neg hk, hsearch]

/-- The candidates for an address are records. -/
theorem mem_spans_of_candidate (h : l.Sound g) {s : Span}
    (hs : s ∈ ((l.view mem).spanContaining? a).toList ++ ((l.view mem).spanEndingAt? a).toList) :
    s ∈ l.spans := by
  rcases List.mem_append.mp hs with hs | hs
  · exact ((View.spanContaining?_eq_some_iff (apart_spans h).disjoint).mp (Option.mem_toList.mp hs)).1
  · exact ((View.spanEndingAt?_eq_some_iff (apart_spans h)).mp (Option.mem_toList.mp hs)).1

/-- **A field is found by an address exactly when it begins there**, and what is found is what the
memory holds from there to the end of the field. -/
theorem fieldAt?_eq_some_iff (h : l.Sound g) (hm : l.Memory mem) {b : Bytes} :
    (l.view mem).fieldAt? a k i = some b ↔
      ∃ p ∈ l.records, p.Begins k i a ∧ b = mem.extract a.toNat (p.fieldStop i) := by
  constructor
  · intro hb
    rw [View.fieldAt?] at hb
    by_cases hi : i < k.slots
    · obtain ⟨p, hp, hbegin, hfield⟩ :=
        fieldAmong?_eq_some h hm hi (fun s hs => mem_spans_of_candidate h hs) hb
      obtain ⟨fields, hf⟩ := h.made hp
      obtain ⟨hk, -, ha⟩ := (h.begins_iff hp hf).mp hbegin
      have hi' : i < p.record.kind.slots := hk ▸ hi
      rw [field?_eq h hm hp hf hi'] at hfield
      refine ⟨p, hp, hbegin, ?_⟩
      rw [h.fieldStop_eq hp hf hi', ← ha]
      exact (Option.some.inj hfield).symm
    · rw [fieldAmong?_eq_none h (Nat.not_lt.mp hi) fun s hs => mem_spans_of_candidate h hs] at hb
      cases hb
  · intro hfield
    obtain ⟨p, hp, hbegin, hb⟩ := hfield
    obtain ⟨fields, hf⟩ := h.made hp
    obtain ⟨hk, hi, ha⟩ := (h.begins_iff hp hf).mp hbegin
    subst hk
    have haddress : a = .ofNat (p.offset.toNat + Record.start fields i) := by
      rw [ha, Offset.ofNat_toNat]
    rw [hb, h.fieldStop_eq hp hf hi, ← ha, haddress]
    exact fieldAt?_eq h hm hp hf hi

end Memory

end Layout

/-! ## 3. Over an image -/

namespace Image

/-- Writes into the world words of instances keep the shape of an image. -/
theorem Built.memory_writes {g : Graph} {l : Layout} {img : Image} (hb : img.Built g l)
    {ws : List Bytes.Write} (hws : ∀ w ∈ ws, ∃ s ∈ img.spans, s.kind = .inst ∧
      w.pos = s.offset.toNat + worldRefAt) : l.Memory (img.bytes.writes ws) := by
  refine hb.memory.writes hb.sound fun w hw => ?_
  obtain ⟨s, hs, hk, hpos⟩ := hws w hw
  rw [hb.spans] at hs
  obtain ⟨p, hp, rfl⟩ := Array.mem_map.mp hs
  exact ⟨p.index, p, hp, hk, rfl, hpos⟩

/-- **A field is found by an address exactly when it begins there, and it is the only one.** This holds
of an image and of every memory made from it by overwriting world words of instances, for all
addresses, kinds and slots. What is found is the content of the field in that memory. -/
theorem field_found_iff_begins {c : ImageConfig} {g : Graph} {img : Image} (hs : g.Sized)
    (h : (ofGraph c g).result = .ok img) {ws : List Bytes.Write}
    (hws : ∀ w ∈ ws, ∃ s ∈ img.spans, s.kind = .inst ∧ w.pos = s.offset.toNat + worldRefAt) :
    ∃ l, (Layout.ofGraph c g).result = .ok l ∧ ∀ (a : Offset) (k : RecordKind) (i : Nat),
      (∀ b, View.fieldAt? ⟨img.bytes.writes ws, img.spans⟩ a k i = some b ↔
        ∃ p ∈ l.records, p.Begins k i a ∧
          b = (img.bytes.writes ws).extract a.toNat (p.fieldStop i)) ∧
      ∀ p ∈ l.records, ∀ q ∈ l.records, p.Begins k i a → q.Begins k i a → p = q := by
  obtain ⟨l, hl, hb⟩ := built_of_ofGraph hs h
  refine ⟨l, hl, fun a k i => ⟨fun b => ?_, fun p hp q hq => hb.sound.begins_unique hp hq⟩⟩
  rw [hb.spans]
  exact (hb.memory_writes hws).fieldAt?_eq_some_iff hb.sound

/-- The eel has no sound: the empty field is found where its record ends and that of the cat starts,
and the world word of the eel is found as it was overwritten. -/
theorem empty_sound_found_behind_record : ∃ img l, (ofGraph {} Sample.muteEel).result = .ok img ∧
    (Layout.ofGraph {} Sample.muteEel).result = .ok l ∧
    ⟨.animal, ⟨0⟩, 15⟩ ∈ img.spans ∧ ⟨.animal, ⟨15⟩, 21⟩ ∈ img.spans ∧
    View.fieldAt? ⟨img.bytes.writes [⟨36 + worldRefAt, 7⟩], img.spans⟩ ⟨15⟩ .animal 2 = some #[] ∧
    View.fieldAt? ⟨img.bytes.writes [⟨36 + worldRefAt, 7⟩], img.spans⟩ ⟨48⟩ .inst 0 =
      some #[7, 0, 0, 0] ∧
    ∃ p ∈ l.records, p.Begins .animal 2 ⟨15⟩ ∧
      ∀ q ∈ l.records, q.Begins .animal 2 ⟨15⟩ → q = p := by
  have hsized : Sample.muteEel.Sized :=
    Graph.sized_of_footprints (by decide) (by decide) (by decide)
  have hrun : ((ofGraph {} Sample.muteEel).result.toOption.any fun img =>
      decide (⟨.animal, ⟨0⟩, 15⟩ ∈ img.spans ∧ ⟨.animal, ⟨15⟩, 21⟩ ∈ img.spans ∧
        ⟨.inst, ⟨36⟩, 22⟩ ∈ img.spans ∧
        View.fieldAt? ⟨img.bytes.writes [⟨36 + worldRefAt, 7⟩], img.spans⟩ ⟨15⟩ .animal 2 =
          some #[] ∧
        View.fieldAt? ⟨img.bytes.writes [⟨36 + worldRefAt, 7⟩], img.spans⟩ ⟨48⟩ .inst 0 =
          some #[7, 0, 0, 0])) = true := by decide +kernel
  obtain ⟨img, himg, hfacts⟩ := (Option.any_eq_true _ _).mp hrun
  obtain ⟨heel, hcat, hinst, hsound, hworld⟩ := of_decide_eq_true hfacts
  have h : (ofGraph {} Sample.muteEel).result = .ok img := by
    cases hr : (ofGraph {} Sample.muteEel).result with
    | error e => rw [hr] at himg; cases himg
    | ok img' => rw [hr] at himg; cases himg; rfl
  have hws : ∀ w ∈ [(⟨36 + worldRefAt, 7⟩ : Bytes.Write)], ∃ s ∈ img.spans, s.kind = .inst ∧
      w.pos = s.offset.toNat + worldRefAt := fun w hw => by
    rw [List.mem_singleton.mp hw]
    exact ⟨_, hinst, rfl, rfl⟩
  obtain ⟨l, hl, hat⟩ := field_found_iff_begins hsized h hws
  obtain ⟨hiff, hunique⟩ := hat ⟨15⟩ .animal 2
  obtain ⟨p, hp, hbegin, -⟩ := (hiff _).mp hsound
  exact ⟨img, l, h, hl, heel, hcat, hsound, hworld, p, hp, hbegin,
    fun q hq hbq => hunique q hq p hp hbq hbegin⟩

end Image

end Menagerie
