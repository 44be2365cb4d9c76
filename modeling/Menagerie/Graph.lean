import Menagerie.Kind

/-! # Graphs

A graph declares animals, instances of them, worlds that list instances, and transfers of
instances between worlds. Declarations refer to each other by position: `Ref k` is a position
among the declarations of kind `k`, as wide as a word. Nothing forces a reference to be in range;
`animal?`, `inst?` and `world?` look it up.
-/

namespace Menagerie

/-- A reference to the declaration of kind `k` at a position. -/
structure Ref (k : RecordKind) where
  word : UInt32
deriving DecidableEq, Repr, Inhabited

namespace Ref

variable {k : RecordKind}

/-- The position. -/
def index (r : Ref k) : Nat := r.word.toNat

/-- The reference to a position below `2 ^ 32`; larger positions are reduced modulo `2 ^ 32`. -/
def ofNat (n : Nat) : Ref k := ⟨UInt32.ofNat n⟩

/-- A reference is written with its kind, as in `animal #3`. -/
def text (r : Ref k) : String := k.numbered r.index

theorem index_lt (r : Ref k) : r.index < 0x100000000 := r.word.toNat_lt

@[simp] theorem index_ofNat {n : Nat} (h : n < 0x100000000) : (ofNat n : Ref k).index = n :=
  UInt32.toNat_ofNat_of_lt h

/-- Reducing a position does not raise it above a bound. -/
theorem index_ofNat_lt {n bound : Nat} (h : n < bound) : (ofNat n : Ref k).index < bound := by
  rw [index, ofNat, UInt32.toNat_ofNat']
  exact Nat.lt_of_le_of_lt (Nat.mod_le _ _) h

theorem index_inj {r r' : Ref k} : r.index = r'.index ↔ r = r' :=
  ⟨fun h => congrArg mk (UInt32.toNat_inj.mp h), congrArg index⟩

theorem index_beq (r r' : Ref k) : (r.index == r'.index) = (r == r') := by
  rw [Bool.eq_iff_iff, beq_iff_eq, beq_iff_eq, index_inj]

@[simp] theorem ofNat_index (r : Ref k) : ofNat r.index = r := index_inj.mp (index_ofNat r.index_lt)

end Ref

/-- A species. -/
structure Animal where
  name : String
  gene : String
  sound : String
deriving DecidableEq, Repr, Inhabited

/-- One individual of a species. -/
structure Instance where
  name : String
  species : Ref .animal
deriving DecidableEq, Repr, Inhabited

/-- A place and the instances that start out there. -/
structure World where
  name : String
  contains : List (Ref .inst)
deriving DecidableEq, Repr, Inhabited

/-- An instance moves to a world. -/
structure Transfer where
  subject : Ref .inst
  destination : Ref .world
deriving DecidableEq, Repr, Inhabited

/-- Everything declared, each kind in the order of declaration. -/
structure Graph where
  animals : Array Animal := #[]
  instances : Array Instance := #[]
  worlds : Array World := #[]
  transfers : Array Transfer := #[]
deriving DecidableEq, Repr, Inhabited

namespace Graph

/-- The animal a reference names. -/
def animal? (g : Graph) (r : Ref .animal) : Option Animal := g.animals[r.index]?

/-- The instance a reference names. -/
def inst? (g : Graph) (r : Ref .inst) : Option Instance := g.instances[r.index]?

/-- The world a reference names. -/
def world? (g : Graph) (r : Ref .world) : Option World := g.worlds[r.index]?

/-- The name of the declaration of kind `k` at a position. -/
def name? (g : Graph) (k : RecordKind) (index : Nat) : Option String :=
  match k with
  | .animal => g.animals[index]?.map (·.name)
  | .inst => g.instances[index]?.map (·.name)
  | .world => g.worlds[index]?.map (·.name)

/-- How many records the graph declares; a transfer is not a record. -/
def recordCount (g : Graph) : Nat :=
  g.animals.size + g.instances.size + g.worlds.size

end Graph

end Menagerie
