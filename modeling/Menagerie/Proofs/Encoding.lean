import Menagerie.Proofs.Outcome
import Menagerie.Proofs.Writes
import Menagerie.Record

/-! # What a record is made of

* `Bytes.codes` -- the bytes of a text; **a text is encoded exactly when all its characters fit**
  (`ofText_eq_ok_iff`), and read back as itself (`toText_codes`);
* `Bytes.ofWords` -- words end to end, read back by `words` (`words_ofWords`);
* `Record.start` -- where a field starts in its record; **the header word of a slot is the start of
  its field, and the field stands there** (`word?_header`, `holds_field`);
* the three kinds: **a declaration is encoded exactly when its texts fit and its references lead to
  records already placed**, and the record is made of the fields one expects
  (`ofAnimal_eq_ok_iff`, `ofInst_eq_ok_iff`, `ofWorld_eq_ok_iff`).
-/

namespace Menagerie

namespace Bytes

/-! ## 1. Texts -/

/-- Every character of the text has a byte. -/
def Fits (s : String) : Prop := ∀ c ∈ s.toList, fits c

instance (s : String) : Decidable (Fits s) := List.decidableBAll (fits ·) s.toList

/-- The code points of a text as bytes. -/
def codes (s : String) : Bytes := (s.toList.map fun c => UInt8.ofNat c.toNat).toArray

@[simp] theorem size_codes (s : String) : (codes s).size = s.length := by
  rw [codes, List.size_toArray, List.length_map, String.length_toList]

theorem pushChars_eq_ok_iff {cs : List Char} {acc b : Bytes} :
    pushChars acc cs = .ok b ↔
      (∀ c ∈ cs, fits c) ∧ b = acc ++ (cs.map fun c => UInt8.ofNat c.toNat).toArray := by
  constructor
  · intro h
    have hf : ∀ c ∈ cs, fits c := by
      induction cs generalizing acc with
      | nil => exact fun c hc => absurd hc List.not_mem_nil
      | cons c cs ih =>
        rw [pushChars] at h
        split at h
        · rename_i hc
          exact List.forall_mem_cons.mpr ⟨hc, ih h⟩
        · cases h
    rw [pushChars_of_fits hf] at h
    cases h
    exact ⟨hf, rfl⟩
  · rintro ⟨hf, rfl⟩
    exact pushChars_of_fits hf acc

/-- **A text is encoded exactly when all its characters fit.** -/
theorem ofText_eq_ok_iff {s : String} {b : Bytes} : ofText s = .ok b ↔ Fits s ∧ b = codes s := by
  rw [ofText, pushChars_eq_ok_iff, Array.empty_append]
  rfl

theorem toText_codes {s : String} (h : Fits s) : toText (codes s) = s := by
  have hc : s.toList.map (charOf ∘ fun c => UInt8.ofNat c.toNat) = s.toList := by
    exact (List.map_congr_left fun c hc => charOf_ofNat (h c hc)).trans (List.map_id' _)
  rw [toText, codes, List.map_map, hc, String.ofList_toList]

/-! ## 2. Words end to end -/

/-- The bytes of words, end to end. -/
def ofWords (ws : List UInt32) : Bytes := ws.foldl pushWord #[]

theorem foldl_pushWord (b : Bytes) (ws : List UInt32) : ws.foldl pushWord b = b ++ ofWords ws := by
  induction ws generalizing b with
  | nil => simp [ofWords]
  | cons w ws ih =>
    rw [ofWords, List.foldl_cons, List.foldl_cons, ih, ih, pushWord_eq_append b,
      pushWord_eq_append #[], Array.empty_append, Array.append_assoc]

theorem ofWords_append (vs ws : List UInt32) : ofWords (vs ++ ws) = ofWords vs ++ ofWords ws := by
  rw [ofWords, List.foldl_append, foldl_pushWord]
  rfl

@[simp] theorem size_ofWords (ws : List UInt32) : (ofWords ws).size = 4 * ws.length := by
  induction ws with
  | nil => rfl
  | cons w ws ih =>
    rw [← List.singleton_append, ofWords_append, Array.size_append, ih, List.length_append]
    simp [ofWords]
    omega

/-- A word of a list stands at its place among the bytes of all of them. -/
theorem word?_ofWords {ws : List UInt32} {k : Nat} {w : UInt32} (h : ws[k]? = some w) :
    (ofWords ws).word? (4 * k) = some w := by
  obtain ⟨hk, rfl⟩ := List.getElem?_eq_some_iff.mp h
  have hsplit : ws = ws.take k ++ [ws[k]] ++ ws.drop (k + 1) := by simp
  have hlen : (ofWords (ws.take k)).size = 4 * k := by
    rw [size_ofWords, List.length_take_of_le (Nat.le_of_lt hk)]
  have hpart := holds_append (ofWords (ws.take k)) (ofWords [ws[k]]) (ofWords (ws.drop (k + 1)))
  rw [← ofWords_append, ← ofWords_append, ← hsplit, hlen] at hpart
  rw [← Nat.add_zero (4 * k), hpart.word? (by simp)]
  exact word?_pushWord #[] ws[k]

/-- **Words laid end to end are read back.** -/
theorem words_ofWords (ws : List UInt32) : words (ofWords ws) = ws := by
  have hread : ∀ k ∈ List.range ws.length, (ofWords ws).word? (4 * k) = some (ws.getD k 0) := by
    intro k hk
    have hk := List.mem_range.mp hk
    rw [word?_ofWords (List.getElem?_eq_getElem hk), List.getD_eq_getElem?_getD,
      List.getElem?_eq_getElem hk, Option.getD_some]
  rw [words, size_ofWords, Nat.mul_div_cancel_left _ (by decide), List.filterMap_congr hread,
    List.filterMap_eq_map']
  apply List.ext_getElem
  · simp
  · intro k _ hk
    simp [hk]

end Bytes

namespace Record

/-! ## 3. Header and fields -/

/-- Where field `i` starts, relative to its record; one past the last field this is the length of
the record. -/
def start (fields : List Bytes) (i : Nat) : Nat :=
  4 * fields.length + ((fields.take i).map Array.size).sum

theorem start_succ {fields : List Bytes} {i : Nat} {f : Bytes} (h : fields[i]? = some f) :
    start fields (i + 1) = start fields i + f.size := by
  rw [start, start, List.take_add_one, h, Option.toList_some, List.map_append, List.sum_append,
    List.map_singleton, List.sum_singleton, Nat.add_assoc]

@[simp] theorem size_ofWord (w : UInt32) : (ofWord w).size = 4 := by
  rw [ofWord, Bytes.size_pushWord]
  rfl

/-- The first field of an instance is its world word, and the next one starts right after it. -/
theorem start_after_world (w : UInt32) (name species : Bytes) :
    start [ofWord w, name, species] 1 = worldRefAt + 4 := by
  simp [start, worldRefAt]

theorem header_le_start (fields : List Bytes) (i : Nat) : 4 * fields.length ≤ start fields i :=
  Nat.le_add_right _ _

theorem start_mono {fields : List Bytes} {i j : Nat} (h : i ≤ j) :
    start fields i ≤ start fields j := by
  obtain ⟨k, rfl⟩ := Nat.exists_eq_add_of_le h
  rw [start, start, List.take_add, List.map_append, List.sum_append, ← Nat.add_assoc]
  exact Nat.le_add_right _ _

theorem getElem?_starts (pos : Nat) (fields : List Bytes) (i : Nat) (h : i < fields.length) :
    (starts pos fields)[i]? = some (pos + ((fields.take i).map Array.size).sum) := by
  induction fields generalizing pos i with
  | nil => simp at h
  | cons f fields ih =>
    cases i with
    | zero => simp [starts]
    | succ i =>
      rw [starts, List.getElem?_cons_succ, ih _ _ (by simpa using h)]
      simp [Nat.add_assoc]

@[simp] theorem length_starts (pos : Nat) (fields : List Bytes) :
    (starts pos fields).length = fields.length := by
  induction fields generalizing pos with
  | nil => rfl
  | cons f fields ih => rw [starts, List.length_cons, ih, List.length_cons]

theorem getElem?_header (kind : RecordKind) {fields : List Bytes} {i : Nat} (h : i < fields.length) :
    (ofFields kind fields).header[i]? = some (UInt32.ofNat (start fields i)) := by
  rw [ofFields, List.getElem?_map, getElem?_starts _ _ _ h]
  rfl

theorem foldl_append (b : Bytes) (fields : List Bytes) :
    fields.foldl (· ++ ·) b = b ++ fields.foldl (· ++ ·) #[] := by
  induction fields generalizing b with
  | nil => simp
  | cons f fields ih =>
    rw [List.foldl_cons, List.foldl_cons, ih, ih (#[] ++ f), Array.empty_append, Array.append_assoc]

theorem size_foldl_append (fields : List Bytes) :
    (fields.foldl (· ++ ·) (#[] : Bytes)).size = (fields.map Array.size).sum := by
  induction fields with
  | nil => rfl
  | cons f fields ih =>
    rw [List.foldl_cons, foldl_append, Array.size_append, ih, Array.empty_append, List.map_cons,
      List.sum_cons]

/-- A record is its header followed by its fields. -/
theorem bytes_ofFields (kind : RecordKind) (fields : List Bytes) :
    (ofFields kind fields).bytes =
      Bytes.ofWords (ofFields kind fields).header ++ fields.foldl (· ++ ·) #[] := by
  rw [ofFields, foldl_append]
  rfl

theorem size_header (kind : RecordKind) (fields : List Bytes) :
    (Bytes.ofWords (ofFields kind fields).header).size = 4 * fields.length := by
  rw [Bytes.size_ofWords, ofFields, List.length_map, length_starts]

theorem size_ofFields (kind : RecordKind) (fields : List Bytes) :
    (ofFields kind fields).bytes.size = start fields fields.length := by
  rw [bytes_ofFields, Array.size_append, size_header, size_foldl_append, start, List.take_length]

/-- **The header word of a slot is the start of its field.** -/
theorem word?_header (kind : RecordKind) {fields : List Bytes} {i : Nat} (h : i < fields.length) :
    (ofFields kind fields).bytes.word? (4 * i) = some (UInt32.ofNat (start fields i)) := by
  rw [bytes_ofFields, Bytes.word?_append_left (by rw [size_header]; omega)]
  exact Bytes.word?_ofWords (getElem?_header kind h)

/-- **A field stands at its start.** -/
theorem holds_field (kind : RecordKind) {fields : List Bytes} {i : Nat} {f : Bytes}
    (h : fields[i]? = some f) : Bytes.Holds (ofFields kind fields).bytes f (start fields i) := by
  obtain ⟨hi, rfl⟩ := List.getElem?_eq_some_iff.mp h
  have hsplit : fields = fields.take i ++ [fields[i]] ++ fields.drop (i + 1) := by simp
  have hfields : fields.foldl (· ++ ·) (#[] : Bytes) =
      (fields.take i).foldl (· ++ ·) #[] ++ fields[i] ++ (fields.drop (i + 1)).foldl (· ++ ·) #[] := by
    conv => lhs; rw [hsplit]
    rw [List.foldl_append, List.foldl_append, foldl_append, List.foldl_cons, List.foldl_nil]
  have hstart : start fields i = (Bytes.ofWords (ofFields kind fields).header ++
      (fields.take i).foldl (· ++ ·) #[]).size := by
    rw [Array.size_append, size_header, size_foldl_append, start]
  rw [bytes_ofFields, hfields, hstart, ← Array.append_assoc, ← Array.append_assoc]
  exact Bytes.holds_append _ _ _

/-! ## 4. The three kinds -/

theorem textField_eq_ok_iff {kind : RecordKind} {name field s : String} {b : Bytes} :
    textField kind name field s = .ok b ↔ Bytes.Fits s ∧ b = Bytes.codes s := by
  rw [← Bytes.ofText_eq_ok_iff, textField]
  cases Bytes.ofText s <;> simp [Except.mapError]

theorem speciesOffset_eq_ok_iff {g : Graph} {animals : Directory} {i : Instance} {o : Offset} :
    speciesOffset g animals i = .ok o ↔
      ∃ a, g.animal? i.species = some a ∧ animals.get? a.name = some o := by
  unfold speciesOffset
  split
  · rename_i h
    simp [h]
  · rename_i a h
    split <;> simp_all

theorem memberOffset_eq_ok_iff {g : Graph} {instances : Directory} {world : String} {r : Ref .inst}
    {o : Offset} : memberOffset g instances world r = .ok o ↔
      ∃ i, g.inst? r = some i ∧ instances.get? i.name = some o := by
  unfold memberOffset
  split
  · rename_i h
    simp [h]
  · rename_i i h
    split <;> simp_all

theorem ofAnimal_eq_ok_iff {a : Animal} {r : Record} :
    ofAnimal a = .ok r ↔ (Bytes.Fits a.gene ∧ Bytes.Fits a.name ∧ Bytes.Fits a.sound) ∧
      r = ofFields .animal [Bytes.codes a.gene, Bytes.codes a.name, Bytes.codes a.sound] := by
  simp only [ofAnimal, bind_eq_ok_iff, textField_eq_ok_iff]
  constructor
  · rintro ⟨_, ⟨hg, rfl⟩, _, ⟨hn, rfl⟩, _, ⟨hs, rfl⟩, h⟩
    cases h
    exact ⟨⟨hg, hn, hs⟩, rfl⟩
  · rintro ⟨⟨hg, hn, hs⟩, rfl⟩
    exact ⟨_, ⟨hg, rfl⟩, _, ⟨hn, rfl⟩, _, ⟨hs, rfl⟩, rfl⟩

theorem ofInst_eq_ok_iff {g : Graph} {animals : Directory} {i : Instance} {r : Record} :
    ofInst g animals i = .ok r ↔ ∃ a o, g.animal? i.species = some a ∧
      animals.get? a.name = some o ∧ Bytes.Fits i.name ∧
      r = ofFields .inst [ofWord Offset.unset.word, Bytes.codes i.name, ofWord o.word] := by
  simp only [ofInst, bind_eq_ok_iff, textField_eq_ok_iff, speciesOffset_eq_ok_iff]
  constructor
  · rintro ⟨o, ⟨a, ha, ho⟩, _, ⟨hn, rfl⟩, h⟩
    cases h
    exact ⟨a, o, ha, ho, hn, rfl⟩
  · rintro ⟨a, o, ha, ho, hn, rfl⟩
    exact ⟨o, ⟨a, ha, ho⟩, _, ⟨hn, rfl⟩, rfl⟩

theorem ofWorld_eq_ok_iff {g : Graph} {instances : Directory} {w : World} {r : Record} :
    ofWorld g instances w = .ok r ↔ ∃ os : List Offset,
      List.Forall₂ (fun m o => memberOffset g instances w.name m = .ok o) w.contains os ∧
      Bytes.Fits w.name ∧
      r = ofFields .world [Bytes.codes w.name, Bytes.ofWords (os.map (·.word))] := by
  simp only [ofWorld, bind_eq_ok_iff, textField_eq_ok_iff, mapM_eq_ok_iff]
  constructor
  · rintro ⟨_, ⟨hn, rfl⟩, os, hos, h⟩
    cases h
    exact ⟨os, hos, hn, by rw [Bytes.ofWords, List.foldl_map]⟩
  · rintro ⟨os, hos, hn, rfl⟩
    exact ⟨_, ⟨hn, rfl⟩, os, hos, by rw [Bytes.ofWords, List.foldl_map]; rfl⟩

end Record

/-! ## 5. How long a record is -/

/-- The bytes an animal takes: three header words and its texts. -/
def Animal.footprint (a : Animal) : Nat := 12 + a.gene.length + a.name.length + a.sound.length

/-- The bytes an instance takes: three header words, two references and its name. -/
def Instance.footprint (i : Instance) : Nat := 20 + i.name.length

/-- The bytes a world takes: two header words, its name and one word for each instance listed. -/
def World.footprint (w : World) : Nat := 8 + w.name.length + 4 * w.contains.length

namespace Record

variable {r : Record}

theorem size_of_ofAnimal {a : Animal} (h : ofAnimal a = .ok r) : r.bytes.size = a.footprint := by
  obtain ⟨-, rfl⟩ := ofAnimal_eq_ok_iff.mp h
  simp +arith [size_ofFields, start, Animal.footprint]

theorem size_of_ofInst {g : Graph} {animals : Directory} {i : Instance}
    (h : ofInst g animals i = .ok r) : r.bytes.size = i.footprint := by
  obtain ⟨a, o, -, -, -, rfl⟩ := ofInst_eq_ok_iff.mp h
  simp +arith [size_ofFields, start, Instance.footprint]

theorem size_of_ofWorld {g : Graph} {instances : Directory} {w : World}
    (h : ofWorld g instances w = .ok r) : r.bytes.size = w.footprint := by
  obtain ⟨os, hos, -, rfl⟩ := ofWorld_eq_ok_iff.mp h
  simp +arith [size_ofFields, start, World.footprint, hos.length_eq]

end Record

end Menagerie
