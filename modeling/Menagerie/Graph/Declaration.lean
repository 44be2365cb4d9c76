import Menagerie.Graph

/-! # Declaring a graph step by step

`Graph.declare` adds one declaration and returns a reference to it. Declarations are only ever
appended, so **a reference returned earlier keeps naming the same declaration**, as long as a word can
count the declarations.
-/

namespace Menagerie

/-- One declaration. -/
inductive Declaration where
  | animal (a : Animal)
  | inst (i : Instance)
  | world (w : World)
  | transfer (t : Transfer)
deriving DecidableEq, Repr, Inhabited

namespace Graph

/-- The graph with one more animal, and the reference to it. -/
def addAnimal (g : Graph) (a : Animal) : Ref .animal × Graph :=
  (.ofNat g.animals.size, { g with animals := g.animals.push a })

/-- The graph with one more instance, and the reference to it. -/
def addInst (g : Graph) (i : Instance) : Ref .inst × Graph :=
  (.ofNat g.instances.size, { g with instances := g.instances.push i })

/-- The graph with one more world, and the reference to it. -/
def addWorld (g : Graph) (w : World) : Ref .world × Graph :=
  (.ofNat g.worlds.size, { g with worlds := g.worlds.push w })

/-- The graph with one more transfer, which nothing can refer to. -/
def addTransfer (g : Graph) (t : Transfer) : Graph :=
  { g with transfers := g.transfers.push t }

/-- The graph with one more declaration, and the reference to it if it is a record. -/
def declare (g : Graph) : Declaration → Option ((k : RecordKind) × Ref k) × Graph
  | .animal a => let (r, g') := g.addAnimal a; (some ⟨.animal, r⟩, g')
  | .inst i => let (r, g') := g.addInst i; (some ⟨.inst, r⟩, g')
  | .world w => let (r, g') := g.addWorld w; (some ⟨.world, r⟩, g')
  | .transfer t => (none, g.addTransfer t)

/-- All declarations made after those of `g`, in order, with the reference each one returned. -/
def declareAll (g : Graph) : List Declaration → List (Option ((k : RecordKind) × Ref k)) × Graph
  | [] => ([], g)
  | d :: ds =>
    let (r, g') := g.declare d
    let (rs, g'') := g'.declareAll ds
    (r :: rs, g'')

/-- The graph of a list of declarations. -/
def ofDeclarations (ds : List Declaration) : Graph :=
  (({} : Graph).declareAll ds).2

end Graph

end Menagerie
