import Menagerie.Proofs.Slices

/-! # Bytes that are no word

A field that holds references is made of whole words. A view refuses an instance whose reference is not
exactly one word, but it reads a world's list word by word and stops where less than a word is left:

* `Bytes.ofWords_words` -- the words read from a buffer are the buffer up to the last multiple of four,
  and **all of it exactly if its size is one** (`ofWords_words_eq_iff`);
* `View.inst?_eq_some_iff` -- **an instance says every byte of its reference fields**;
* `View.world?_eq_some_iff` -- **a world says its list but for up to three bytes at the end**;
* `View.world_list_is_whole_iff` -- nothing of the list is dropped exactly if its size is a multiple of
  four. A list of five bytes reads as one word (`View.fifth_byte_is_dropped`).
-/

namespace Menagerie

/-! ## 1. The words of any buffer -/

namespace Bytes

/-- A word that is read is the stretch of its four bytes. -/
theorem extract_of_word? {b : Bytes} {pos : Nat} {w : UInt32} (h : b.word? pos = some w) :
    b.extract pos (pos + 4) = ofWords [w] := by
  have hsize : (ofWords [w]).size = 4 := size_ofWords [w]
  have hholds : Holds b (ofWords [w]) pos := by
    intro j hj
    rw [hsize] at hj
    have hword : (ofWords [w]).word? 0 = some w := word?_pushWord #[] w
    rw [getElem?_of_word? h hj, ← getElem?_of_word? hword hj, Nat.zero_add]
  rw [← hsize, hholds.extract_eq]

/-- Reading words one after another covers a buffer from its start on. -/
theorem ofWords_filterMap_range {b : Bytes} {n : Nat} (hn : 4 * n ≤ b.size) :
    ofWords ((List.range n).filterMap fun k => b.word? (4 * k)) = b.extract 0 (4 * n) := by
  induction n with
  | zero =>
    rw [Nat.mul_zero, Array.extract_zero]
    rfl
  | succ n ih =>
    obtain ⟨w, hw⟩ := Option.isSome_iff_exists.mp (isSome_word?.mpr (show 4 * n + 4 ≤ b.size by omega))
    have hlast : (List.filterMap (fun k => b.word? (4 * k)) [n]) = [w] :=
      List.filterMap_cons_some hw
    rw [List.range_succ, List.filterMap_append, hlast, ofWords_append, ih (by omega),
      ← extract_of_word? hw, Array.extract_append_extract, Nat.min_eq_left (Nat.zero_le _),
      Nat.max_eq_right (by omega)]
    rfl

/-- **The words read from a buffer are what it holds up to the last multiple of four.** -/
theorem ofWords_words (b : Bytes) : ofWords (words b) = b.extract 0 (4 * (b.size / 4)) :=
  ofWords_filterMap_range (Nat.mul_div_le b.size 4)

/-- What is left of a buffer behind its words. -/
def remainder (b : Bytes) : Bytes := b.extract (4 * (b.size / 4)) b.size

theorem size_remainder (b : Bytes) : (remainder b).size = b.size % 4 := by
  rw [remainder, Array.size_extract]
  omega

theorem words_append_remainder (b : Bytes) : ofWords (words b) ++ remainder b = b := by
  rw [ofWords_words, remainder, Array.extract_append_extract, Nat.min_eq_left (Nat.zero_le _),
    Nat.max_eq_right (Nat.mul_div_le _ _), Array.extract_size]

/-- **A buffer is its words and less than a word behind them, in one way only.** -/
theorem eq_ofWords_append_iff {b : Bytes} {ws : List UInt32} :
    (∃ rest : Bytes, b = ofWords ws ++ rest ∧ rest.size < 4) ↔ words b = ws := by
  constructor
  · rintro ⟨rest, rfl, hrest⟩
    have hsize : (ofWords ws ++ rest).size = 4 * ws.length + rest.size := by
      rw [Array.size_append, size_ofWords]
    have hcut : 4 * ((ofWords ws ++ rest).size / 4) = (ofWords ws).size := by
      rw [hsize, size_ofWords]
      omega
    have hwords : ofWords (words (ofWords ws ++ rest)) = ofWords ws := by
      rw [ofWords_words, hcut, Array.extract_append_left, Array.extract_size]
    rw [← words_ofWords (words (ofWords ws ++ rest)), hwords, words_ofWords]
  · rintro rfl
    refine ⟨remainder b, (words_append_remainder b).symm, ?_⟩
    rw [size_remainder]
    exact Nat.mod_lt _ (by decide)

/-- **All of a buffer is words exactly if its size is a multiple of four.** -/
theorem ofWords_words_eq_iff (b : Bytes) : ofWords (words b) = b ↔ 4 ∣ b.size := by
  constructor
  · intro h
    rw [← h, size_ofWords]
    exact Nat.dvd_mul_right 4 _
  · intro h
    rw [ofWords_words, Nat.mul_div_cancel' h, Array.extract_size]

end Bytes

namespace View

variable {v : View} {base : Offset}

/-! ## 2. References and lists -/

/-- **A reference is read exactly from a field that is its word.** -/
theorem reference?_eq_some_iff {i : Nat} {o : Offset} :
    v.reference? base i = some o ↔ v.field? base i = some (Record.ofWord o.word) := by
  refine ⟨fun h => ?_, reference?_of_field?⟩
  unfold reference? at h
  obtain ⟨f, hf, h⟩ := Option.bind_eq_some_iff.mp h
  split at h
  · rename_i hsize
    obtain ⟨w, hw, rfl⟩ := Option.map_eq_some_iff.mp h
    have hword := Bytes.extract_of_word? hw
    rw [Nat.zero_add, ← hsize, Array.extract_size] at hword
    rw [hf, hword]
    rfl
  · cases h

theorem inst?_eq_some_iff {e : InstEntry} :
    v.inst? base = some e ↔ v.startsRecord base .inst = true ∧
      v.text? base Slot.instName = some e.name ∧
      v.field? base Slot.instSpecies = some (Record.ofWord e.species.word) ∧
      v.field? base Slot.instWorld = some (Record.ofWord e.world.word) := by
  constructor
  · intro h
    unfold inst? at h
    obtain ⟨_, hguard, h⟩ := Option.bind_eq_some_iff.mp h
    obtain ⟨name, hname, h⟩ := Option.bind_eq_some_iff.mp h
    obtain ⟨species, hspecies, h⟩ := Option.bind_eq_some_iff.mp h
    obtain ⟨world, hworld, h⟩ := Option.bind_eq_some_iff.mp h
    cases h
    exact ⟨startsRecord_of_guard hguard, hname, reference?_eq_some_iff.mp hspecies,
      reference?_eq_some_iff.mp hworld⟩
  · rintro ⟨hstart, hname, hspecies, hworld⟩
    exact inst?_eq_some hstart hname (reference?_of_field? hspecies) (reference?_of_field? hworld)

/-- **A world is read whatever the size of its list**: the words of the list, and less than a word behind
them that is not said. -/
theorem world?_eq_some_iff {d : WorldEntry} :
    v.world? base = some d ↔ v.startsRecord base .world = true ∧
      v.text? base Slot.worldName = some d.name ∧
      ∃ list rest, v.field? base Slot.worldContains = some list ∧
        list = Bytes.ofWords (d.contains.map (·.word)) ++ rest ∧ rest.size < 4 := by
  have hmembers : ∀ list : Bytes, (Bytes.words list).map Offset.mk = d.contains ↔
      ∃ rest : Bytes, list = Bytes.ofWords (d.contains.map (·.word)) ++ rest ∧ rest.size < 4 := by
    intro list
    rw [Bytes.eq_ofWords_append_iff]
    constructor
    · intro h
      rw [← h, List.map_map]
      exact (List.map_id' _).symm
    · intro h
      rw [h, List.map_map]
      exact List.map_id' _
  constructor
  · intro h
    unfold world? at h
    obtain ⟨_, hguard, h⟩ := Option.bind_eq_some_iff.mp h
    obtain ⟨list, hlist, h⟩ := Option.bind_eq_some_iff.mp h
    obtain ⟨name, hname, h⟩ := Option.bind_eq_some_iff.mp h
    cases h
    obtain ⟨rest, hrest⟩ := (hmembers list).mp rfl
    exact ⟨startsRecord_of_guard hguard, hname, list, rest, hlist, hrest⟩
  · rintro ⟨hstart, hname, list, rest, hlist, hrest⟩
    have hwords := (hmembers list).mpr ⟨rest, hrest⟩
    rw [world?, guard_startsRecord hstart]
    simp only [hlist, hname, Option.pure_def, Option.bind_eq_bind, Option.bind_some, hwords]

/-! ## 3. What is dropped -/

/-- **A world's list is read to its end exactly if its size is a multiple of four.** Whatever its size, the
world is read: its members are the words of the list, and up to three bytes behind them are dropped. An
instance is read only if its two references are a word each, so nothing of it is dropped. -/
theorem world_list_is_whole_iff (v : View) (base : Offset) :
    (∀ d, v.world? base = some d ↔ v.startsRecord base .world = true ∧
      v.text? base Slot.worldName = some d.name ∧
      ∃ list rest, v.field? base Slot.worldContains = some list ∧
        list = Bytes.ofWords (d.contains.map (·.word)) ++ rest ∧ rest.size < 4) ∧
    (∀ d list, v.world? base = some d → v.field? base Slot.worldContains = some list →
      (list = Bytes.ofWords (d.contains.map (·.word)) ↔ 4 ∣ list.size)) ∧
    ∀ e, v.inst? base = some e ↔ v.startsRecord base .inst = true ∧
      v.text? base Slot.instName = some e.name ∧
      v.field? base Slot.instSpecies = some (Record.ofWord e.species.word) ∧
      v.field? base Slot.instWorld = some (Record.ofWord e.world.word) := by
  refine ⟨fun d => world?_eq_some_iff, fun d list hd hlist => ?_, fun e => inst?_eq_some_iff⟩
  obtain ⟨-, -, list', rest, hlist', hrest⟩ := world?_eq_some_iff.mp hd
  cases hlist.symm.trans hlist'
  rw [← Bytes.eq_ofWords_append_iff.mp ⟨rest, hrest⟩, ← Bytes.ofWords_words_eq_iff, eq_comm]

/-- The list of this world is eight bytes long, and reads as the two words that it is. -/
theorem eight_bytes_are_whole : ∃ v : View,
    v.bytes = #[8, 0, 0, 0, 8, 0, 0, 0, 1, 0, 0, 0, 2, 0, 0, 0] ∧ v.spans = #[⟨.world, ⟨0⟩, 16⟩] ∧
    v.world? ⟨0⟩ = some ⟨"", [⟨1⟩, ⟨2⟩]⟩ ∧
    v.field? ⟨0⟩ Slot.worldContains = some (Bytes.ofWords [1, 2]) := by
  obtain ⟨v, hv⟩ : ∃ v : View, v = ⟨#[8, 0, 0, 0, 8, 0, 0, 0, 1, 0, 0, 0, 2, 0, 0, 0],
    #[⟨.world, ⟨0⟩, 16⟩]⟩ := ⟨_, rfl⟩
  have hworld : v.world? ⟨0⟩ = some ⟨"", [⟨1⟩, ⟨2⟩]⟩ := by
    rw [hv]
    decide +kernel
  have hlist : v.field? ⟨0⟩ Slot.worldContains = some #[1, 0, 0, 0, 2, 0, 0, 0] := by
    rw [hv]
    decide +kernel
  refine ⟨v, by rw [hv], by rw [hv], hworld, hlist.trans (congrArg some ?_)⟩
  exact ((world_list_is_whole_iff v ⟨0⟩).2.1 _ _ hworld hlist).mpr (by decide)

/-- The list of this world is five bytes long. It reads as the word of the first four, and the fifth byte
is dropped. -/
theorem fifth_byte_is_dropped : ∃ v : View,
    v.bytes = #[8, 0, 0, 0, 8, 0, 0, 0, 1, 0, 0, 0, 2] ∧ v.spans = #[⟨.world, ⟨0⟩, 13⟩] ∧
    Increasing v.spans ∧ v.world? ⟨0⟩ = some ⟨"", [⟨1⟩]⟩ ∧
    v.field? ⟨0⟩ Slot.worldContains = some #[1, 0, 0, 0, 2] ∧
    #[1, 0, 0, 0, 2] ≠ Bytes.ofWords (([⟨1⟩] : List Offset).map (·.word)) :=
  ⟨⟨#[8, 0, 0, 0, 8, 0, 0, 0, 1, 0, 0, 0, 2], #[⟨.world, ⟨0⟩, 13⟩]⟩, rfl, rfl,
    List.pairwise_singleton _ _, by decide +kernel, by decide +kernel, by decide +kernel⟩

end View

end Menagerie
