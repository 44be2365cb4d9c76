import Menagerie.Layout
import Menagerie.Proofs.Encoding

/-! # Rows of records

* `Placed.row` -- records end to end from an address on. **A pass adds one row**
  (`Layout.foldl_adds`), and it succeeds when everything can be encoded, no name comes twice and the
  row fits (`Layout.foldl_succeeds`);
* `Span.Tiles` -- spans end to end, each as long as it says, as those of a row are
  (`Placed.tiles_spans_row`);
* `Placed.Tiles` -- records that fill a stretch of addresses, as short records do whose spans tile it
  (`Placed.tiles_of_spans`): **they do not overlap** (`Tiles.disjoint`), copied into a buffer one by one
  they are joined (`copy_eq_append`), and joined they hold each record at its offset (`holds_append`).
-/

namespace Menagerie

/-! ## 1. Directories -/

namespace Directory

/-- The names entered, in order. -/
def keys (d : Directory) : List String := d.toList.map (·.1)

theorem nodup_keys (d : Directory) : d.keys.Nodup := d.nodup_toList

theorem get?_eq_none_iff {d : Directory} {name : String} : d.get? name = none ↔ name ∉ d.keys := by
  rw [get?_eq_lookup, lookup_eq_none_iff, keys]

theorem exists_get? {d : Directory} {name : String} (hn : name ∈ d.keys) :
    ∃ o, d.get? name = some o := by
  cases h : d.get? name with
  | some o => exact ⟨o, rfl⟩
  | none => exact absurd hn (get?_eq_none_iff.mp h)

/-- **What entering a name does**: a name that is taken is refused and changes nothing, any other is entered
at the end. -/
theorem insert_cases (d : Directory) (name : String) (offset : Offset) :
    (name ∈ d.keys ∧ d.insert name offset = (.error (.duplicateName d.kind name), d)) ∨
    (name ∉ d.keys ∧ ∃ d', d.insert name offset = (.ok (), d') ∧ d'.kind = d.kind ∧
      d'.toList = d.toList ++ [(name, offset)]) := by
  by_cases hn : name ∈ d.keys
  · obtain ⟨o, ho⟩ := exists_get? hn
    exact .inl ⟨hn, insert_of_taken ho offset⟩
  · exact .inr ⟨hn, insert_of_new (get?_eq_none_iff.mpr hn) offset⟩

end Directory

/-! ## 2. Rows of records -/

namespace Placed

@[simp] theorem kind_span (p : Placed) : p.span.kind = p.record.kind := rfl

@[simp] theorem offset_span (p : Placed) : p.span.offset = p.offset := rfl

/-- The first address after a record. -/
def stop (p : Placed) : Nat := p.offset.toNat + p.record.bytes.size

/-- Records end to end from the address `next` on, numbered from `index` on. -/
def row (index next : Nat) : List Record → List Placed
  | [] => []
  | r :: rs => ⟨index, Offset.ofNat next, r⟩ :: row (index + 1) (next + r.len.toNat) rs

/-- How many bytes a row takes. -/
def total (rs : List Record) : Nat := (rs.map (·.len.toNat)).sum

@[simp] theorem total_nil : total [] = 0 := rfl

@[simp] theorem total_cons (r : Record) (rs : List Record) :
    total (r :: rs) = r.len.toNat + total rs := by
  simp [total]

@[simp] theorem length_row (index next : Nat) (rs : List Record) :
    (row index next rs).length = rs.length := by
  induction rs generalizing index next with
  | nil => rfl
  | cons r rs ih => rw [row, List.length_cons, ih, List.length_cons]

theorem getElem?_row (index next : Nat) (rs : List Record) (k : Nat) :
    (row index next rs)[k]? =
      rs[k]?.map fun r => ⟨index + k, Offset.ofNat (next + total (rs.take k)), r⟩ := by
  induction rs generalizing index next k with
  | nil => rfl
  | cons r rs ih =>
    cases k with
    | zero => rfl
    | succ k =>
      rw [row, List.getElem?_cons_succ, ih, List.getElem?_cons_succ, List.take_succ_cons, total_cons,
        Nat.add_right_comm, Nat.add_assoc, Nat.add_assoc]

/-- The record at a place of a row, and its number. -/
theorem of_getElem?_row {index next : Nat} {rs : List Record} {n : Nat} {p : Placed}
    (h : (row index next rs)[n]? = some p) : rs[n]? = some p.record ∧ p.index = index + n := by
  rw [getElem?_row, Option.map_eq_some_iff] at h
  obtain ⟨r, hr, rfl⟩ := h
  exact ⟨hr, rfl⟩

end Placed

/-! ## 3. Passes -/

namespace Layout

/-- What a pass over declarations adds: a row of records, and the names with the offsets of the
row. -/
structure Progress.Adds (p p' : Progress) (index : Nat) (names : List String) (rs : List Record) :
    Prop where
  records : p'.records.toList = p.records.toList ++ Placed.row index p.next rs
  names : p'.names.toList = p.names.toList ++ names.zip ((Placed.row index p.next rs).map (·.offset))
  next : p'.next = p.next + Placed.total rs
  kind : p'.names.kind = p.names.kind

theorem Progress.Adds.keys {p p' : Progress} {index : Nat} {names : List String} {rs : List Record}
    (h : p.Adds p' index names rs) (hl : names.length = rs.length) :
    p'.names.keys = p.names.keys ++ names := by
  rw [Directory.keys, h.names, List.map_append, ← Directory.keys, List.map_fst_zip (by simp [hl])]

/-- Placing one record adds it alone, and it fits. -/
theorem place_adds {limit index : Nat} {p p' : Progress} {name : String} {r : Record}
    (h : (place limit p name index r).result = .ok p') :
    p.Adds p' index [name] [r] ∧ p'.next ≤ limit := by
  unfold place at h
  simp only at h
  split at h
  · cases h
  · rename_i hl
    simp only [Traced.result_bind_eq_ok_iff, Traced.result_log, true_and,
      exists_const, Traced.result_lift] at h
    obtain ⟨_, hd, h⟩ := h
    rcases p.names.insert_cases name (Offset.ofNat p.next) with ⟨-, herror⟩ | ⟨-, d', hd', hk', hl'⟩
    · rw [herror] at hd
      cases hd
    · rw [hd'] at h
      cases h
      refine ⟨⟨by simp [Placed.row], hl', by simp, hk'⟩, ?_⟩
      show p.next + r.len.toNat ≤ limit
      omega

theorem place_succeeds {limit : Nat} (index : Nat) {p : Progress} {name : String} {r : Record}
    (hl : p.next + r.len.toNat ≤ limit) (hn : name ∉ p.names.keys) :
    ∃ p', (place limit p name index r).result = .ok p' := by
  obtain ⟨d, hd, -, -⟩ :=
    Directory.insert_of_new (Directory.get?_eq_none_iff.mpr hn) (Offset.ofNat p.next)
  unfold place
  simp only
  rw [if_neg (by omega), hd]
  exact ⟨_, rfl⟩

/-- One record after another: the rows add up. -/
theorem Progress.Adds.cons {p q p' : Progress} {index : Nat} {name : String} {names : List String}
    {r : Record} {rs : List Record} (h : p.Adds q index [name] [r])
    (hs : q.Adds p' (index + 1) names rs) : p.Adds p' index (name :: names) (r :: rs) := by
  have hq : q.next = p.next + r.len.toNat := by rw [h.next, Placed.total_cons, Placed.total_nil]; rfl
  refine ⟨?_, ?_, ?_, hs.kind.trans h.kind⟩
  · rw [hs.records, h.records, hq, Placed.row, Placed.row, Placed.row, List.append_assoc]
    rfl
  · rw [hs.names, h.names, hq, Placed.row, Placed.row, Placed.row, List.append_assoc]
    rfl
  · rw [hs.next, hq, Placed.total_cons, Nat.add_assoc]

section Pass

variable {α : Type} {limit : Nat} {name : α → String} {encode : α → Except CompileError Record}

/-- The step of a pass: a declaration is encoded and placed. -/
def passStep (limit : Nat) (name : α → String) (encode : α → Except CompileError Record)
    (p : Progress) (x : α × Nat) : Traced Progress := do
  let r ← encode x.1
  place limit p (name x.1) x.2 r

theorem pass_eq (kind : RecordKind) (items : List α) (records : Array Placed) (next : Nat) :
    pass limit kind name encode items records next =
      Traced.foldl (passStep limit name encode) ⟨Directory.empty kind, records, next⟩ items.zipIdx :=
  rfl

theorem passStep_eq_ok_iff {p p' : Progress} {x : α} {index : Nat} :
    (passStep limit name encode p (x, index)).result = .ok p' ↔
      ∃ r, encode x = .ok r ∧ (place limit p (name x) index r).result = .ok p' := by
  rw [passStep, Traced.result_bind_eq_ok_iff]
  rfl

/-- **A walk over declarations adds their records as a row**, and enters their names. -/
theorem foldl_adds {p p' : Progress} {items : List α} {index : Nat} (hp : p.next ≤ limit)
    (h : (Traced.foldl (passStep limit name encode) p (items.zipIdx index)).result = .ok p') :
    ∃ rs, List.Forall₂ (fun x r => encode x = .ok r) items rs ∧
      p.Adds p' index (items.map name) rs ∧ p'.next ≤ limit := by
  induction items generalizing p index with
  | nil =>
    cases h
    exact ⟨[], .nil, ⟨by simp [Placed.row], by simp, by simp, rfl⟩, hp⟩
  | cons x items ih =>
    rw [List.zipIdx_cons, Traced.foldl_cons, Traced.result_bind_eq_ok_iff] at h
    obtain ⟨q, hq, h⟩ := h
    obtain ⟨r, hr, hq⟩ := passStep_eq_ok_iff.mp hq
    obtain ⟨hadd, hql⟩ := place_adds hq
    obtain ⟨rs, hrs, hadds, hlim⟩ := ih hql h
    exact ⟨r :: rs, .cons hr hrs, hadd.cons hadds, hlim⟩

theorem foldl_succeeds {p : Progress} {items : List α} {rs : List Record} {index : Nat}
    (hr : List.Forall₂ (fun x r => encode x = .ok r) items rs)
    (hn : (p.names.keys ++ items.map name).Nodup) (hl : p.next + Placed.total rs ≤ limit) :
    ∃ p', (Traced.foldl (passStep limit name encode) p (items.zipIdx index)).result = .ok p' := by
  induction hr generalizing p index with
  | nil => exact ⟨p, rfl⟩
  | @cons x r items rs hx _ ih =>
    rw [Placed.total_cons] at hl
    have hnew : name x ∉ p.names.keys := fun hm =>
      (List.nodup_append.mp hn).2.2 _ hm _ List.mem_cons_self rfl
    have hfit : p.next + r.len.toNat ≤ limit := by omega
    obtain ⟨q, hq⟩ := place_succeeds index hfit hnew
    obtain ⟨hadd, -⟩ := place_adds hq
    have hqk : q.names.keys = p.names.keys ++ [name x] := hadd.keys rfl
    have hqn : q.next = p.next + r.len.toNat := by simpa using hadd.next
    have hqnodup : (q.names.keys ++ items.map name).Nodup := by
      rw [hqk, List.append_assoc]
      exact hn
    obtain ⟨p', hp'⟩ := @ih q (index + 1) hqnodup (by omega)
    rw [List.zipIdx_cons, Traced.foldl_cons]
    exact ⟨p', Traced.result_bind_eq_ok_iff.mpr ⟨q, passStep_eq_ok_iff.mpr ⟨r, hx, hq⟩, hp'⟩⟩

end Pass

end Layout

/-! ## 4. Records end to end -/

/-- A record length below `2 ^ 32` is kept as it is. -/
theorem Record.toNat_len {r : Record} (h : r.bytes.size < 2 ^ 32) : r.len.toNat = r.bytes.size :=
  UInt32.toNat_ofNat_of_lt h

namespace Span

/-- Spans that follow each other without gaps, from an address to an address. -/
def Tiles (next : Nat) : List Span → Nat → Prop
  | [], stop => next = stop
  | s :: ss, stop => s.offset.toNat = next ∧ Tiles s.stop ss stop

theorem Tiles.append {a b c : Nat} {ss ts : List Span} (hs : Tiles a ss b) (ht : Tiles b ts c) :
    Tiles a (ss ++ ts) c := by
  induction ss generalizing a with
  | nil => cases hs; exact ht
  | cons s ss ih => exact ⟨hs.1, ih hs.2⟩

end Span

namespace Placed

/-- Records that follow each other without gaps, from an address to an address. -/
def Tiles (next : Nat) : List Placed → Nat → Prop
  | [], stop => next = stop
  | p :: ps, stop => p.offset.toNat = next ∧ Tiles p.stop ps stop

/-- The bytes of records end to end, after those of a buffer. -/
def append (b : Bytes) (ps : List Placed) : Bytes := ps.foldl (fun b p => b ++ p.record.bytes) b

theorem stop_span {p : Placed} (h : p.record.bytes.size < 2 ^ 32) : p.span.stop = p.stop := by
  rw [Span.stop, span, Record.toNat_len h, stop]

/-- The spans of a row lie end to end, however long its records are. -/
theorem tiles_spans_row {index next : Nat} {rs : List Record} (hl : next + total rs < 2 ^ 32) :
    Span.Tiles next ((row index next rs).map span) (next + total rs) := by
  induction rs generalizing index next with
  | nil => exact rfl
  | cons r rs ih =>
    rw [total_cons, ← Nat.add_assoc] at hl ⊢
    have hoff : (Offset.ofNat next).toNat = next := Offset.toNat_ofNat (by omega)
    have hstop : (span ⟨index, Offset.ofNat next, r⟩).stop = next + r.len.toNat := by
      rw [Span.stop, offset_span, hoff]
      rfl
    refine ⟨hoff, ?_⟩
    rw [hstop]
    exact ih hl

/-- Records whose lengths are kept as they are fill what their spans fill. -/
theorem tiles_of_spans {a b : Nat} {ps : List Placed} (hs : ∀ p ∈ ps, p.record.bytes.size < 2 ^ 32)
    (h : Span.Tiles a (ps.map span) b) : Tiles a ps b := by
  induction ps generalizing a with
  | nil => exact h
  | cons p ps ih =>
    obtain ⟨hp, hps⟩ := List.forall_mem_cons.mp hs
    obtain ⟨hoff, hrest⟩ := h
    rw [stop_span hp] at hrest
    exact ⟨hoff, ih hps hrest⟩

theorem Tiles.le {a b : Nat} {ps : List Placed} (h : Tiles a ps b) : a ≤ b := by
  induction ps generalizing a with
  | nil => exact Nat.le_of_eq h
  | cons p ps ih =>
    have := ih h.2
    have := h.1
    unfold stop at *
    omega

theorem Tiles.bounds {a b : Nat} {ps : List Placed} (h : Tiles a ps b) {p : Placed} (hp : p ∈ ps) :
    a ≤ p.offset.toNat ∧ p.stop ≤ b := by
  induction ps generalizing a with
  | nil => exact absurd hp List.not_mem_nil
  | cons q ps ih =>
    rcases List.mem_cons.mp hp with rfl | hp
    · exact ⟨Nat.le_of_eq h.1.symm, h.2.le⟩
    · have hb := ih h.2 hp
      have := h.1
      unfold stop at *
      omega

/-- **Records end to end do not overlap.** -/
theorem Tiles.disjoint {a b : Nat} {ps : List Placed} (h : Tiles a ps b) :
    ps.Pairwise fun p q => p.stop ≤ q.offset.toNat := by
  induction ps generalizing a with
  | nil => exact .nil
  | cons p ps ih => exact .cons (fun q hq => (h.2.bounds hq).1) (ih h.2)

theorem append_eq (b : Bytes) (ps : List Placed) : append b ps = b ++ append #[] ps := by
  induction ps generalizing b with
  | nil => simp [append]
  | cons p ps ih =>
    show append (b ++ p.record.bytes) ps = b ++ append (#[] ++ p.record.bytes) ps
    rw [ih, ih (#[] ++ p.record.bytes), Array.empty_append, Array.append_assoc]

/-- Records copied into a buffer one after another, each to its offset. -/
def copy (b : Bytes) (ps : List Placed) : Bytes :=
  ps.foldl (fun b p => b.overwrite p.offset.toNat p.record.bytes.toList) b

@[simp] theorem size_copy (b : Bytes) (ps : List Placed) : (copy b ps).size = b.size := by
  induction ps generalizing b with
  | nil => rfl
  | cons p ps ih => exact (ih _).trans (b.size_overwrite _ _)

/-- **Copying records that fill the rest of a buffer joins them to its first bytes**: each record is copied
right behind those before it, and the last one ends where the buffer does. -/
theorem copy_eq_append {done : Bytes} {rest : List UInt8} {ps : List Placed}
    (h : Tiles done.size ps (done.size + rest.length)) : copy (done ++ rest.toArray) ps = append done ps := by
  induction ps generalizing done rest with
  | nil =>
    obtain rfl : rest = [] := List.eq_nil_of_length_eq_zero (Nat.left_eq_add.mp h)
    exact Array.append_empty
  | cons p ps ih =>
    obtain ⟨hoff, htiles⟩ := h
    have hstop : p.stop = done.size + p.record.bytes.size := by rw [stop, hoff]
    have hlen : p.record.bytes.toList.length = p.record.bytes.size := Array.length_toList
    have hfit : p.record.bytes.toList.length ≤ rest.length := by
      have hle := htiles.le
      omega
    show copy ((done ++ rest.toArray).overwrite p.offset.toNat p.record.bytes.toList) ps =
      append (done ++ p.record.bytes) ps
    rw [hoff, Bytes.overwrite_append done hfit, Array.toArray_toList]
    refine ih ?_
    have hend : (done ++ p.record.bytes).size + (rest.drop p.record.bytes.toList.length).length =
        done.size + rest.length := by
      rw [Array.size_append, List.length_drop]
      omega
    rw [hend, Array.size_append, ← hstop]
    exact htiles

/-- **Each record stands at its offset.** -/
theorem holds_append {b : Bytes} {ps : List Placed} {stop : Nat} (h : Tiles b.size ps stop)
    {p : Placed} (hp : p ∈ ps) : Bytes.Holds (append b ps) p.record.bytes p.offset.toNat := by
  induction ps generalizing b with
  | nil => exact absurd hp List.not_mem_nil
  | cons q ps ih =>
    rcases List.mem_cons.mp hp with rfl | hp
    · rw [h.1]
      show Bytes.Holds (append (b ++ p.record.bytes) ps) _ _
      rw [append_eq]
      exact Bytes.holds_append _ _ _
    · refine ih (b := b ++ q.record.bytes) ?_ hp
      rw [Array.size_append, ← h.1]
      exact h.2

end Placed

end Menagerie
