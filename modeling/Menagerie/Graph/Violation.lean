import Menagerie.Graph
import Std.Data.TreeMap
import Std.Data.TreeSet

/-! # Structural faults of a graph

`Graph.violations` lists every fault, in a fixed order:

1. names declared twice, among animals, then instances, then worlds;
2. instances whose species does not exist;
3. walking the worlds' lists, entries that name no instance, and instances listed again;
4. transfers whose subject or destination does not exist.
-/

namespace Menagerie

/-- The two references of a transfer. -/
inductive TransferEnd where
  | subject
  | destination
deriving DecidableEq, Repr, Inhabited

/-- The word for an end of a transfer in messages. -/
def TransferEnd.label : TransferEnd → String
  | subject => "instance"
  | destination => "to"

/-- One structural fault. -/
inductive Violation where
  /-- A name occurred earlier among the declarations of its kind. -/
  | duplicateName (kind : RecordKind) (name : String)
  /-- The species of an instance is out of range. -/
  | unknownSpecies (inst : String)
  /-- The entry at a position of a world's list is out of range. -/
  | unknownInstance (world : String) (position : Nat)
  /-- An instance is listed again, after world `first` listed it first. -/
  | duplicatePlacement (inst first second : String)
  /-- A reference of the transfer at a position is out of range. -/
  | unknownTransferTarget (position : Nat) (side : TransferEnd)
deriving DecidableEq, Repr, Inhabited

/-- The wording of a fault. -/
def Violation.message : Violation → String
  | duplicateName kind name => s!"duplicate {kind.label} name '{name}'"
  | unknownSpecies inst => s!"instance '{inst}' has an unknown species"
  | unknownInstance world position => s!"world '{world}' contains an unknown instance at {position}"
  | duplicatePlacement inst first second =>
    s!"instance '{inst}' is placed in '{first}' and again in '{second}'"
  | unknownTransferTarget position side =>
    s!"transfer {position} has an unknown '{side.label}' target"

/-- One entry of a world's list: the world's name, the position in its list, and the instance
listed there. -/
structure Listing where
  world : String
  position : Nat
  member : Ref .inst
deriving DecidableEq, Repr, Inhabited

namespace Graph

/-- All entries of all worlds' lists, worlds in order and entries in order. -/
def listings (g : Graph) : List Listing :=
  g.worlds.toList.flatMap fun w => w.contains.zipIdx.map fun (r, position) => ⟨w.name, position, r⟩

/-- One fault for each name that is in `seen` or occurred earlier in the list. -/
def repeatedNames (kind : RecordKind) (seen : Std.TreeSet String) : List String → List Violation
  | [] => []
  | n :: ns =>
    if seen.contains n then .duplicateName kind n :: repeatedNames kind seen ns
    else repeatedNames kind (seen.insert n) ns

/-- One fault for each instance whose species is out of range. -/
def speciesFaults (g : Graph) : List Violation :=
  g.instances.toList.filterMap fun i =>
    match g.animal? i.species with
    | some _ => none
    | none => some (.unknownSpecies i.name)

/-- The faults of a walk over listings; `first` maps each instance listed so far to the world that
listed it first. -/
def listingFaults (g : Graph) (first : Std.TreeMap Nat String) : List Listing → List Violation
  | [] => []
  | l :: ls =>
    match g.inst? l.member with
    | none => .unknownInstance l.world l.position :: listingFaults g first ls
    | some i =>
      match first[l.member.index]? with
      | some w => .duplicatePlacement i.name w l.world :: listingFaults g first ls
      | none => listingFaults g (first.insert l.member.index l.world) ls

/-- The faults of the transfer at a position: the subject's before the destination's. -/
def transferFaults (g : Graph) (t : Transfer) (position : Nat) : List Violation :=
  (if (g.inst? t.subject).isNone then [.unknownTransferTarget position .subject] else []) ++
    (if (g.world? t.destination).isNone then [.unknownTransferTarget position .destination] else [])

/-- All structural faults of the graph. -/
def violations (g : Graph) : List Violation :=
  repeatedNames .animal ∅ (g.animals.toList.map (·.name)) ++
  repeatedNames .inst ∅ (g.instances.toList.map (·.name)) ++
  repeatedNames .world ∅ (g.worlds.toList.map (·.name)) ++
  g.speciesFaults ++
  g.listingFaults ∅ g.listings ++
  g.transfers.toList.zipIdx.flatMap fun (t, position) => g.transferFaults t position

end Graph

end Menagerie
