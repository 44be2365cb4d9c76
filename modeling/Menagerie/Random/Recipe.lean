import Menagerie.Bytes.Text
import Menagerie.Graph
import Menagerie.Random.ChaCha

/-! # Random graphs

A `Recipe` says how many declarations of each kind a random graph has and how long its texts may
be. Every instance has a species and is listed by exactly one world, so a recipe with instances
gets at least one animal and one world. Names begin with their position, so they are distinct.
-/

namespace Menagerie

/-- The proportions of a random graph. -/
structure Recipe where
  animals : Nat := 4
  instances : Nat := 8
  worlds : Nat := 3
  transfers : Nat := 4
  /-- The length of the longest text. -/
  maxText : Nat := 12
deriving DecidableEq, Repr, Inhabited

namespace Recipe

variable {σ : Type}

/-! ## 1. Draws -/

/-- A text: its length, then its characters, any that have a byte. -/
def text (src : Source σ) (r : Recipe) : StateM σ String := do
  let len ← src.below (r.maxText + 1)
  let bytes ← (List.range len).mapM fun _ => src.byte
  pure (String.ofList (bytes.map Bytes.charOf))

/-- A name: a letter for the kind, the position, a dash, and a text. The dash ends the position, so
no text can turn it into another one. -/
def name (src : Source σ) (r : Recipe) (letter : String) (index : Nat) : StateM σ String := do
  let s ← r.text src
  pure (letter ++ toString index ++ "-" ++ s)

/-- The animal at a position. -/
def animal (src : Source σ) (r : Recipe) (index : Nat) : StateM σ Animal := do
  let name ← r.name src "a" index
  let gene ← r.text src
  let sound ← r.text src
  pure { name, gene, sound }

/-- The instance at a position, and the position of the world that lists it. -/
def inst (src : Source σ) (r : Recipe) (animals worlds : Nat) (index : Nat) : StateM σ (Instance × Nat) := do
  let species ← src.below animals
  let name ← r.name src "i" index
  let home ← src.below worlds
  pure ({ name, species := .ofNat species }, home)

/-- The instances whose home is the world at a position, in order. -/
def residents (homes : List Nat) (world : Nat) : List (Ref .inst) :=
  homes.zipIdx.filterMap fun (home, i) => if home = world then some (.ofNat i) else none

/-- The world at a position, given the homes of the instances. -/
def world (src : Source σ) (r : Recipe) (homes : List Nat) (index : Nat) : StateM σ World := do
  let name ← r.name src "w" index
  pure { name, contains := residents homes index }

/-- A transfer. -/
def transfer (src : Source σ) (r : Recipe) (worlds : Nat) : StateM σ Transfer := do
  let subject ← src.below r.instances
  let destination ← src.below worlds
  pure ⟨.ofNat subject, .ofNat destination⟩

/-! ## 2. Graphs -/

/-- At least one, if there are instances to provide for. -/
def provided (r : Recipe) (n : Nat) : Nat := if 0 < r.instances then max n 1 else n

/-- A random graph. -/
def draw (src : Source σ) (r : Recipe) : StateM σ Graph := do
  let animalCount := r.provided r.animals
  let worldCount := r.provided r.worlds
  let transferCount := if 0 < r.instances then r.transfers else 0
  let animals ← (List.range animalCount).mapM (r.animal src)
  let housed ← (List.range r.instances).mapM (r.inst src animalCount worldCount)
  let worlds ← (List.range worldCount).mapM (r.world src (housed.map (·.2)))
  let transfers ← (List.range transferCount).mapM fun _ => r.transfer src worldCount
  pure
    { animals := animals.toArray
      instances := (housed.map (·.1)).toArray
      worlds := worlds.toArray
      transfers := transfers.toArray }

/-- The random graph of a seed. -/
def graph (r : Recipe) (seed : UInt64) : Graph :=
  (r.draw ChaCha.source (ChaCha.Stream.ofSeed seed)).1

/-- A graph of ordinary size. -/
def reference : Recipe :=
  { animals := 200, instances := 2000, worlds := 50, transfers := 200, maxText := 16 }

/-- A large graph. -/
def stress : Recipe :=
  { animals := 1000, instances := 20000, worlds := 500, transfers := 5000, maxText := 24 }

end Recipe

end Menagerie
