import Menagerie.Proofs.Encoding

/-! # Texts as bytes

A text of characters up to `U+00FF` and the buffer of its code points say the same.

* `Bytes.firstWide?` -- the first character of a text that has no byte: **encoding refuses the text exactly
  if there is one, and names it** (`ofText_eq_error_iff`, `Record.textField_eq_error_iff`);
* `Bytes.ofText_eq_ok_iff_toText` -- **a text is encoded as the buffer that is read as the text**, and every
  buffer is read as such a text;
* `Record.texts_correspond_to_bytes` -- both directions of a text field, and its error.
-/

namespace Menagerie

namespace Bytes

/-! ## 1. Characters without a byte -/

theorem fits_iff {s : String} : Fits s ↔ ∀ c ∈ s.toList, c.toNat ≤ 0xFF := by
  simp only [Fits, fits, decide_eq_true_eq]

/-- The first character of a text that has no byte. -/
def firstWide? (s : String) : Option Char := s.toList.find? (!fits ·)

theorem firstWide?_eq_none_iff {s : String} : firstWide? s = none ↔ Fits s := by
  rw [firstWide?, List.find?_eq_none]
  simp only [Bool.not_eq_true, Bool.not_eq_false', Fits]

/-- **The first character without a byte**: all before it have one. -/
theorem firstWide?_eq_some_iff {s : String} {ch : Char} :
    firstWide? s = some ch ↔ 0xFF < ch.toNat ∧
      ∃ before after, s.toList = before ++ ch :: after ∧ ∀ d ∈ before, d.toNat ≤ 0xFF := by
  rw [firstWide?, List.find?_eq_some_iff_append]
  simp only [fits, Bool.not_eq_true', Bool.not_not, decide_eq_true_eq, decide_eq_false_iff_not,
    Nat.not_le]

theorem pushChars_eq_error_iff {cs : List Char} {acc : Bytes} {ch : Char} :
    pushChars acc cs = .error ch ↔ cs.find? (!fits ·) = some ch := by
  induction cs generalizing acc with
  | nil => simp [pushChars]
  | cons d cs ih =>
    rw [pushChars, List.find?_cons]
    cases hd : fits d with
    | true => exact ih
    | false => simp

theorem ofText_eq_error_iff {s : String} {ch : Char} :
    ofText s = .error ch ↔ firstWide? s = some ch :=
  pushChars_eq_error_iff

/-! ## 2. Texts that are read -/

theorem toList_toText (b : Bytes) : (toText b).toList = b.toList.map charOf :=
  String.toList_ofList

/-- Every buffer is read as a text that can be encoded. -/
theorem fits_toText (b : Bytes) : Fits (toText b) := by
  intro c hc
  rw [toList_toText] at hc
  obtain ⟨x, -, rfl⟩ := List.mem_map.mp hc
  exact fits_charOf x

theorem codes_toText (b : Bytes) : codes (toText b) = b := by
  have hbytes : b.toList.map ((fun c : Char => UInt8.ofNat c.toNat) ∘ charOf) = b.toList :=
    (List.map_congr_left fun x _ => ofNat_charOf x).trans (List.map_id' _)
  rw [codes, toList_toText, List.map_map, hbytes, Array.toArray_toList]

/-- **Encoding and reading undo each other**: a text is encoded as the buffer that is read as the text. -/
theorem ofText_eq_ok_iff_toText {s : String} {b : Bytes} : ofText s = .ok b ↔ toText b = s := by
  rw [ofText_eq_ok_iff]
  refine ⟨fun h => ?_, fun h => ?_⟩
  · rw [h.2, toText_codes h.1]
  · rw [← h]
    exact ⟨fits_toText b, (codes_toText b).symm⟩

/-- The bytes of a buffer are the code points of the text that it is read as. -/
theorem map_toNat_toText (b : Bytes) : (toText b).toList.map Char.toNat = b.toList.map UInt8.toNat := by
  rw [toList_toText, List.map_map]
  exact List.map_congr_left fun x _ => toNat_charOf x

end Bytes

/-! ## 3. Text fields -/

namespace Record

/-- What is wrong with a text: its first character that has no byte. -/
def wide? (kind : RecordKind) (name field s : String) : Option CompileError :=
  (Bytes.firstWide? s).map (.unencodable kind name field)

variable {kind : RecordKind} {name field s : String}

theorem textField_eq_error_iff {e : CompileError} :
    textField kind name field s = .error e ↔ wide? kind name field s = some e := by
  simp only [wide?, Option.map_eq_some_iff, ← Bytes.ofText_eq_error_iff, textField]
  cases Bytes.ofText s <;> simp [Except.mapError]

theorem textField_eq_ok_iff_toText {b : Bytes} :
    textField kind name field s = .ok b ↔ Bytes.toText b = s := by
  rw [textField_eq_ok_iff, ← Bytes.ofText_eq_ok_iff, Bytes.ofText_eq_ok_iff_toText]

/-- **Texts of characters up to `U+00FF` and buffers correspond.** A text field is encoded exactly if all
its characters are at most `U+00FF`. It then has one byte for each character, the code point of that
character, and is read back as the text. Otherwise the error names the record, the field and the first
character above `U+00FF`. Every buffer is read as a text that is encoded as the buffer. -/
theorem texts_correspond_to_bytes (kind : RecordKind) (name field : String) :
    (∀ s, (∃ b, textField kind name field s = .ok b) ↔ ∀ c ∈ s.toList, c.toNat ≤ 0xFF) ∧
    (∀ s b, textField kind name field s = .ok b → b.size = s.length ∧
      b.toList.map UInt8.toNat = s.toList.map Char.toNat ∧ Bytes.toText b = s) ∧
    (∀ s e, textField kind name field s = .error e ↔ ∃ ch, e = .unencodable kind name field ch ∧
      0xFF < ch.toNat ∧ ∃ before after, s.toList = before ++ ch :: after ∧
        ∀ c ∈ before, c.toNat ≤ 0xFF) ∧
    ∀ b, textField kind name field (Bytes.toText b) = .ok b := by
  refine ⟨fun s => ?_, fun s b h => ?_, fun s e => ?_, fun b => textField_eq_ok_iff_toText.mpr rfl⟩
  · rw [← Bytes.fits_iff]
    simp only [textField_eq_ok_iff, exists_and_left, exists_eq, and_true]
  · obtain rfl := textField_eq_ok_iff_toText.mp h
    refine ⟨?_, (Bytes.map_toNat_toText b).symm, rfl⟩
    rw [← Bytes.size_codes, Bytes.codes_toText]
  · rw [textField_eq_error_iff, wide?, Option.map_eq_some_iff]
    simp only [← Bytes.firstWide?_eq_some_iff]
    refine ⟨fun h => ?_, fun h => ?_⟩
    · obtain ⟨ch, hch, he⟩ := h
      exact ⟨ch, he.symm, hch⟩
    · obtain ⟨ch, he, hch⟩ := h
      exact ⟨ch, hch, he.symm⟩

/-- A text with a character above ASCII takes one byte for it; of the two characters without a byte in the
other text the first is named. -/
theorem snowman_has_no_byte :
    (∃ b, textField .animal "cat" "sound" "caf\u00e9" = .ok b ∧ b.size = 4 ∧
      Bytes.toText b = "caf\u00e9") ∧
    textField .animal "cat" "sound" "m\u2603w\u0100" =
      .error (.unencodable .animal "cat" "sound" '\u2603') := by
  obtain ⟨hencoded, hbytes, hrefused, -⟩ := texts_correspond_to_bytes .animal "cat" "sound"
  refine ⟨?_, ?_⟩
  · obtain ⟨b, hb⟩ := (hencoded "caf\u00e9").mpr (Bytes.fits_iff.mp (by decide))
    obtain ⟨hsize, -, htext⟩ := hbytes _ b hb
    exact ⟨b, hb, hsize, htext⟩
  · refine (hrefused _ _).mpr ⟨'\u2603', rfl, by decide, ['m'], ['w', '\u0100'], by decide, ?_⟩
    exact List.forall_mem_singleton.mpr (by decide)

end Record

end Menagerie
