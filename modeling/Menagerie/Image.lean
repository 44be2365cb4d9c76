import Menagerie.Layout

/-! # Images

An image is a layout's bytes with the world references settled: each world's offset is written
into the instances it lists, worlds in order and entries in order. An instance listed more than
once ends up with the last world that lists it, or is an error if the configuration is strict.
-/

namespace Menagerie

/-- The memory a program starts with, and the tables that address it. -/
structure Image where
  bytes : Bytes
  animals : Directory
  instances : Directory
  worlds : Directory
  spans : Array Span

namespace Image

/-! ## 1. Settling world references -/

/-- A world's claim to an instance: the world, its offset, and the instance it lists. -/
structure Claim where
  world : String
  offset : Offset
  member : Ref .inst
deriving DecidableEq, Repr, Inhabited

/-- All claims of the worlds of a graph, given the offsets of the worlds in order. -/
def claims (g : Graph) (offsets : List Offset) : List Claim :=
  (g.worlds.toList.zip offsets).flatMap fun (w, offset) =>
    w.contains.map fun r => ⟨w.name, offset, r⟩

/-- The bytes so far, and for the offset of each instance claimed so far the world that claimed it
last. -/
structure Settling where
  bytes : Bytes
  holder : Std.TreeMap Nat String

/-- What becomes of a claim to an instance that `holder` claimed before: it is refused if the
configuration is strict, and reported otherwise. -/
def contest (strict : Bool) (g : Graph) (c : Claim) : Option String → Traced Unit
  | none => pure ()
  | some holder =>
    let name := ((g.inst? c.member).map (·.name)).getD "?"
    if strict then Traced.fail (.duplicatePlacement name holder c.world)
    else Traced.log (.placedAgain name holder c.world)

/-- Writes a world's offset into the record of an instance it claims. -/
def patch (c : Claim) (inst : Offset) (bytes : Bytes) : Traced Bytes :=
  match bytes.writeWord (inst.toNat + worldRefAt) c.offset.word with
  | (none, _) => Traced.fail (.unresolved (.listing c.world) (.outsideImage inst))
  | (some (), bytes) => ⟨[.patched c.world inst], .ok bytes⟩

/-- Settles one claim. -/
def settle (strict : Bool) (g : Graph) (instances : Directory) : Settling → Claim → Traced Settling
  | ⟨bytes, holder⟩, c => do
    let inst ← Record.memberOffset g instances c.world c.member
    contest strict g c holder[inst.toNat]?
    let bytes ← patch c inst bytes
    pure ⟨bytes, holder.insert inst.toNat c.world⟩

/-- The image of a layout of a graph. -/
def ofLayout (strict : Bool) (g : Graph) (l : Layout) : Traced Image := do
  let s ← Traced.foldl (settle strict g l.instances) ⟨l.bytes, ∅⟩ (claims g l.worldOffsets)
  Traced.log (.built l.animals.size l.instances.size l.worlds.size l.total)
  pure { bytes := s.bytes, animals := l.animals, instances := l.instances, worlds := l.worlds, spans := l.spans }

/-- The image of a graph. -/
def ofGraph (c : ImageConfig) (g : Graph) : Traced Image := do
  let l ← Layout.ofGraph c g
  ofLayout c.strict g l

/-! ## 2. Reading -/

/-- The view of the image. -/
def view (i : Image) : View := ⟨i.bytes, i.spans⟩

/-- The size of the image. -/
def size (i : Image) : Nat := i.bytes.size

/-- The names of the records of a kind. -/
def directory (i : Image) : RecordKind → Directory
  | .animal => i.animals
  | .inst => i.instances
  | .world => i.worlds

/-- The word at an address. -/
def word? (i : Image) (a : Offset) : Option UInt32 := i.bytes.wordAt? a

/-- The world reference word of the instance at an offset, unset or not. -/
def worldOf? (i : Image) (inst : Offset) : Option Offset := do
  let a ← inst.add? worldRefAt
  (i.word? a).map Offset.mk

/-- The animal of a name. -/
def animalNamed? (i : Image) (name : String) : Option Animal :=
  i.animals.get? name >>= i.view.animal?

/-- The instance of a name. -/
def instNamed? (i : Image) (name : String) : Option InstEntry :=
  i.instances.get? name >>= i.view.inst?

/-- The world of a name. -/
def worldNamed? (i : Image) (name : String) : Option WorldEntry :=
  i.worlds.get? name >>= i.view.world?

end Image

end Menagerie
