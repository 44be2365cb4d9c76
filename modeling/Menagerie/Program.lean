import Menagerie.Expr
import Menagerie.Image

/-! # Programs

`Program.emit` turns a graph and an image into a program: one store per transfer, then one
narration per instance, then `return 0`. Every narration is walked at compile time over the memory
as the stores will leave it, so that a program that cannot narrate is not emitted. The image may
have been built from another graph; records are found in it by name.
-/

namespace Menagerie

/-! ## 1. Settings and results -/

/-- The names and page counts of the module. -/
structure EmitConfig where
  narratorModule : String := "main"
  narratorField : String := "log"
  entryPoint : String := "add"
  memoryExport : String := "memory"
  initialPages : Nat := 1
  maxPages : Nat := 256
deriving DecidableEq, Repr, Inhabited

/-- The pages a memory of `len` bytes starts with: as many as it takes, and no fewer than asked
for. -/
def EmitConfig.pagesFor (c : EmitConfig) (len : Nat) : Nat :=
  max ((len + (pageSize - 1)) / pageSize) c.initialPages

/-- One transfer as a store: the world's offset `value` goes to the address `target`. -/
structure Store where
  inst : String
  world : String
  target : Offset
  value : Offset
deriving DecidableEq, Repr, Inhabited

/-- The addresses of the five parts of an instance's narration. -/
structure Narrated where
  inst : String
  args : Cue Offset
deriving DecidableEq, Repr, Inhabited

/-- The page counts of a memory. -/
structure Pages where
  initial : Nat
  maximum : Nat
deriving DecidableEq, Repr, Inhabited

/-- A program with the memory it starts from. -/
structure Program where
  image : Image
  stores : List Store
  narrations : List Narrated
  body : List Instruction
  pages : Pages

/-- The names of the narrated instances, in order. -/
def Program.order (p : Program) : List String := p.narrations.map (·.inst)

/-! ## 2. Transfers -/

namespace Store

/-- The store of the transfer at a position. -/
def ofTransfer (g : Graph) (img : Image) (t : Transfer) (position : Nat) : Except CompileError Store := do
  let missing (side : TransferEnd) (target : Target) : CompileError :=
    .unresolved (.transfer position side) target
  let some i := g.inst? t.subject
    | throw (missing .subject (.outOfRange .inst t.subject.index))
  let some w := g.world? t.destination
    | throw (missing .destination (.outOfRange .world t.destination.index))
  let some inst := img.instances.get? i.name
    | throw (missing .subject (.absent .inst i.name))
  let some world := img.worlds.get? w.name
    | throw (missing .destination (.absent .world w.name))
  let some target := inst.add? worldRefAt
    | throw (missing .subject (.unaddressable inst))
  pure { inst := i.name, world := w.name, target, value := world }

/-- The store as an instruction: the address of the instance is the constant part of the access. -/
def instruction (s : Store) : Instruction :=
  .store (UInt32.ofNat worldRefAt) (.const (s.target.word - UInt32.ofNat worldRefAt)) (.ofOffset s.value)

/-- The memory after a store. -/
def perform (mem : Bytes) (s : Store) : Except CompileError Bytes :=
  match mem.writeWord s.target.toNat s.value.word with
  | (some (), mem) => .ok mem
  | (none, _) => .error (.unresolved (.stored s.inst) (.storeOutside s.target))

end Store

/-! ## 3. Narrations -/

namespace Narrated

/-- The address of a field, by one step of the walk. -/
def field (v : View) (inst : String) (link : Link) (base : Offset) (slot : Nat) :
    Except CompileError Offset :=
  match v.bytes.fieldAddress? base slot with
  | none => .error (.dereference inst link (.headerUnreadable slot base))
  | some a =>
    if v.bytes.size < a.toNat then .error (.dereference inst link (.pastEnd a)) else .ok a

/-- The record that the reference word at an address leads to, by one step of the walk. -/
def follow (v : View) (inst : String) (link : Link) (a : Offset) (kind : RecordKind) :
    Except CompileError Offset :=
  match v.word? a with
  | none => .error (.dereference inst link (.wordOutside a))
  | some w =>
    let target := Offset.mk w
    if target.isUnset then .error (.dereference inst link .unset)
    else if v.startsRecord target kind then .ok target
    else .error (.dereference inst link (.notARecord target kind))

/-- The walk from an instance at `base` to the five parts of its narration. -/
def resolve (v : View) (inst : String) (base : Offset) : Except CompileError Narrated := do
  let worldRef ← field v inst .worldHeader base Slot.instWorld
  let world ← follow v inst .world worldRef .world
  let speciesRef ← field v inst .speciesHeader base Slot.instSpecies
  let animal ← follow v inst .species speciesRef .animal
  let worldName ← field v inst .worldName world Slot.worldName
  let gene ← field v inst .animalGene animal Slot.animalGene
  let animalName ← field v inst .animalName animal Slot.animalName
  let instName ← field v inst .instName base Slot.instName
  let sound ← field v inst .animalSound animal Slot.animalSound
  pure ⟨inst, ⟨worldName, gene, animalName, instName, sound⟩⟩

/-- The narration of an instance of the graph, with the instance's offset in the image. -/
def ofInst (img : Image) (v : View) (i : Instance) : Except CompileError (Offset × Narrated) := do
  let some base := img.instances.get? i.name
    | throw (.unresolved (.narrated i.name) .noOffset)
  let n ← resolve v i.name base
  pure (base, n)

end Narrated

/-! ## 4. The program -/

namespace Program

/-- The page counts for an image, which must not exceed the maximum. -/
def pagesOf (c : EmitConfig) (img : Image) : Except CompileError Pages :=
  if c.maxPages < c.pagesFor img.size then .error (.overflow img.size (c.maxPages * pageSize))
  else .ok ⟨c.pagesFor img.size, c.maxPages⟩

/-- The store of a transfer, reported. -/
def lower (g : Graph) (img : Image) (t : Transfer) (position : Nat) : Traced Store := do
  let s ← Store.ofTransfer g img t position
  Traced.log (.lowered s.inst s.world s.target s.value)
  pure s

/-- The narration of an instance, reported. -/
def narrate (img : Image) (v : View) (i : Instance) : Traced (Offset × Narrated) := do
  let (base, n) ← Narrated.ofInst img v i
  Traced.log (.resolved n.inst n.args)
  pure (base, n)

/-- The body: the stores, then the narrations of the instances at the given offsets, then the
return. -/
def assemble (stores : List Store) (bases : List Offset) : List Instruction :=
  stores.map Store.instruction ++ bases.map (fun b => .narrate (Expr.narration b)) ++ [.ret (.const 0)]

/-- The program of a graph over an image. -/
def emit (c : EmitConfig) (img : Image) (g : Graph) : Traced Program := do
  let pages ← pagesOf c img
  let stores ← Traced.mapM (fun (t, position) => lower g img t position) g.transfers.toList.zipIdx
  let memory ← (stores.foldlM Store.perform img.bytes : Except CompileError Bytes)
  let found ← Traced.mapM (narrate img ⟨memory, img.spans⟩) g.instances.toList
  let narrations := found.map (·.2)
  let body := assemble stores (found.map (·.1))
  Traced.log (.emitted stores.length narrations.length body.length pages.initial)
  pure { image := img, stores, narrations, body, pages }

end Program

end Menagerie
