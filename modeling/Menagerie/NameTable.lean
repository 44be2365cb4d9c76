import Menagerie.Offset
import Std.Data.TreeMap

/-! # Ordered maps

A directory rests on a map from names to offsets that remembers the order of insertion. `OrderedMap`
lists the operations that are used of it, and `OrderedMap.KeepsOrder` says what is relied on: **the
listing grows at its end, and no name comes twice in it**; every other answer is read off the listing.

`NameTable` is such a map: an array of the entries in order, and a search tree beside it that only
speeds up the lookup of a name (`NameTable.keepsOrder`).
-/

namespace Menagerie

/-! ## 1. What is asked of a map -/

/-- The operations of a map from names to offsets whose entries have an order. A name is added only
where it is vacant. -/
structure OrderedMap (μ : Type) where
  empty : μ
  get? : μ → String → Option Offset
  add : (m : μ) → (name : String) → Offset → get? m name = none → μ
  nth? : μ → Nat → Option (String × Offset)
  size : μ → Nat
  toList : μ → List (String × Offset)

/-- **The order of insertion is kept**, and the map answers what its listing says. -/
structure OrderedMap.KeepsOrder {μ : Type} (ops : OrderedMap μ) : Prop where
  toList_empty : ops.toList ops.empty = []
  /-- A new name comes last, and the entries before it stay as they are. -/
  toList_add : ∀ m name offset (h : ops.get? m name = none),
    ops.toList (ops.add m name offset h) = ops.toList m ++ [(name, offset)]
  /-- No name comes twice. -/
  nodup : ∀ m, ((ops.toList m).map (·.1)).Nodup
  get?_eq_some_iff : ∀ m name offset, ops.get? m name = some offset ↔ (name, offset) ∈ ops.toList m
  nth?_eq : ∀ m i, ops.nth? m i = (ops.toList m)[i]?
  size_eq : ∀ m, ops.size m = (ops.toList m).length

/-! ## 2. An array with a search tree -/

section Lookup

variable {l : List (String × Offset)} {name : String}

theorem lookup_concat (l : List (String × Offset)) (a n : String) (o : Offset) :
    (l ++ [(a, o)]).lookup n = (l.lookup n).or (if n == a then some o else none) := by
  induction l with
  | nil => simp only [List.nil_append, List.lookup_cons, List.lookup_nil]; split <;> simp_all
  | cons e l ih =>
    rcases e with ⟨b, p⟩
    simp only [List.cons_append, List.lookup_cons]
    split <;> simp_all

theorem lookup_eq_none_iff : l.lookup name = none ↔ name ∉ l.map (·.1) := by
  rw [List.lookup_eq_none_iff]
  simp only [List.mem_map, not_exists, not_and, bne_iff_ne]
  exact ⟨fun h p hp e => h p hp e.symm, fun h p hp e => h p hp e.symm⟩

/-- Where no name comes twice, a search from the front finds every entry. -/
theorem lookup_eq_some_iff (hl : (l.map (·.1)).Nodup) {o : Offset} :
    l.lookup name = some o ↔ (name, o) ∈ l := by
  induction l with
  | nil => simp
  | cons e l ih =>
    obtain ⟨n, q⟩ := e
    simp only [List.map_cons, List.nodup_cons] at hl
    rw [List.lookup_cons, List.mem_cons]
    by_cases hn : name = n
    · subst hn
      have hm : (name, o) ∉ l := fun h => hl.1 (List.mem_map.mpr ⟨_, h, rfl⟩)
      simp [hm, eq_comm]
    · have hb : (name == n) = false := by simpa using hn
      simp [hb, hn, ih hl.2]

theorem nodup_concat (hl : (l.map (·.1)).Nodup) (hn : l.lookup name = none) (o : Offset) :
    ((l ++ [(name, o)]).map (·.1)).Nodup := by
  rw [List.map_append, List.map_singleton, List.nodup_append]
  refine ⟨hl, by simp, fun a ha b hb e => lookup_eq_none_iff.mp hn ?_⟩
  have ha' : a = name := e.trans (List.mem_singleton.mp hb)
  rwa [← ha']

/-- A tree that answers as the list does goes on to do so when both get a new name. -/
theorem getElem?_insert_eq_lookup {t : Std.TreeMap String Offset} (ht : ∀ n, t[n]? = l.lookup n)
    (hn : l.lookup name = none) (o : Offset) (n : String) :
    (t.insert name o)[n]? = (l ++ [(name, o)]).lookup n := by
  rw [Std.TreeMap.getElem?_insert, lookup_concat]
  by_cases e : name = n
  · subst e; simp [hn]
  · have e' : (n == name) = false := by simpa using fun h => e h.symm
    simp [e, e', ht n]

end Lookup

/-- Names with their offsets in order, no name twice. The tree answers what a search of the entries from
the front would answer. -/
structure NameTable where
  entries : Array (String × Offset)
  index : Std.TreeMap String Offset
  nodup : (entries.toList.map (·.1)).Nodup
  index_eq : ∀ name, index[name]? = entries.toList.lookup name

namespace NameTable

/-- The table without entries. -/
def empty : NameTable where
  entries := #[]
  index := ∅
  nodup := List.nodup_nil
  index_eq := by simp

/-- The offset of a name. -/
def get? (t : NameTable) (name : String) : Option Offset := t.index[name]?

/-- The table with a vacant name added at the end. -/
def add (t : NameTable) (name : String) (offset : Offset) (h : t.get? name = none) : NameTable where
  entries := t.entries.push (name, offset)
  index := t.index.insert name offset
  nodup := by
    rw [Array.toList_push]
    exact nodup_concat t.nodup ((t.index_eq name).symm.trans h) offset
  index_eq n := by
    rw [Array.toList_push]
    exact getElem?_insert_eq_lookup t.index_eq ((t.index_eq name).symm.trans h) offset n

/-- The entry at a position. -/
def nth? (t : NameTable) (i : Nat) : Option (String × Offset) := t.entries[i]?

/-- The number of entries. -/
def size (t : NameTable) : Nat := t.entries.size

/-- The entries in order. -/
def toList (t : NameTable) : List (String × Offset) := t.entries.toList

/-- The table as an ordered map. -/
def ops : OrderedMap NameTable := { empty, get?, add, nth?, size, toList }

/-- **The array and the tree keep the order of insertion.** -/
theorem keepsOrder : ops.KeepsOrder where
  toList_empty := rfl
  toList_add _ _ _ _ := Array.toList_push
  nodup t := t.nodup
  get?_eq_some_iff t name offset := by
    show t.index[name]? = some offset ↔ _
    rw [t.index_eq name]
    exact lookup_eq_some_iff t.nodup
  nth?_eq _ _ := Array.getElem?_toList.symm
  size_eq _ := Array.length_toList.symm

end NameTable

end Menagerie
