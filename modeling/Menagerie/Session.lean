import Menagerie.Compiler
import Menagerie.Graph.Declaration

/-! # Sessions

A session keeps a list of declarations, the settings, and what was made last: an image, a program
and a machine. Each may be replaced on its own, so a program can be emitted over an image that was
built before the graph changed. A step that fails keeps what was there.
-/

namespace Menagerie

/-- The things a session may not have yet. -/
inductive Part where
  | image
  | program
  | machine
deriving DecidableEq, Repr, Inhabited

/-- The state of a session. -/
structure Session where
  declarations : Array Declaration := #[]
  compiler : Compiler := {}
  image : Option Image := none
  program : Option Program := none
  machine : Option Machine := none

namespace Session

/-! ## 1. Declarations and settings -/

/-- The graph declared so far. -/
def graph (s : Session) : Graph := Graph.ofDeclarations s.declarations.toList

/-- Adds a declaration; the answer is the reference to it. -/
def declare (s : Session) (d : Declaration) : Option ((k : RecordKind) × Ref k) × Session :=
  ((s.graph.declare d).1, { s with declarations := s.declarations.push d })

/-- Drops the last declaration; the answer is whether there was one. -/
def undo (s : Session) : Bool × Session :=
  (!s.declarations.isEmpty, { s with declarations := s.declarations.pop })

/-- Replaces the image settings. -/
def withImageConfig (s : Session) (c : ImageConfig) : Session :=
  { s with compiler := { s.compiler with image := c } }

/-- Replaces the program settings. -/
def withEmitConfig (s : Session) (c : EmitConfig) : Session :=
  { s with compiler := { s.compiler with emit := c } }

/-! ## 2. Making things -/

/-- Keeps a program that was made. -/
def keepProgram (s : Session) : Except CompileError Program → Session
  | .ok p => { s with program := some p }
  | .error _ => s

/-- Builds the image of the graph. -/
def build (s : Session) : Except CompileError Image × Session :=
  let r := (Image.ofGraph s.compiler.image s.graph).result
  match r with
  | .ok i => (r, { s with image := some i })
  | .error _ => (r, s)

/-- Emits the graph over the image kept. -/
def emit (s : Session) : Except Part (Except CompileError Program) × Session :=
  match s.image with
  | none => (.error .image, s)
  | some i =>
    let r := (Program.emit s.compiler.emit i s.graph).result
    (.ok r, s.keepProgram r)

/-- Compiles the graph; the image kept is not touched. -/
def compile (s : Session) : Except CompileError Program × Session :=
  let r := (s.compiler.compile s.graph).result
  (r, s.keepProgram r)

/-- The module text of the program kept. -/
def text (s : Session) : Except Part String :=
  match s.program with
  | none => .error .program
  | some p => .ok (ModuleText.render s.compiler.emit p)

/-! ## 3. Running -/

/-- Starts a machine from an image, if there is one. -/
def start (s : Session) (missing : Part) : Option Image → Except Part Machine × Session
  | none => (.error missing, s)
  | some i => (.ok (.ofImage i), { s with machine := some (.ofImage i) })

/-- Starts a machine from the image of the program kept. -/
def boot (s : Session) : Except Part Machine × Session :=
  s.start .program (s.program.map (·.image))

/-- Starts a machine from the image kept. -/
def bootImage (s : Session) : Except Part Machine × Session :=
  s.start .image s.image

/-- Runs a body on the machine; the answer is the run and the machine after it. -/
def exec (s : Session) (body : List Instruction) : Except Part (Run × Machine) × Session :=
  match s.machine with
  | none => (.error .machine, s)
  | some m =>
    let (r, m) := m.run body
    (.ok (r, m), { s with machine := some m })

/-- Runs the program kept on the machine. -/
def run (s : Session) : Except Part (Run × Machine) × Session :=
  match s.program with
  | none => (.error .program, s)
  | some p => s.exec p.body

/-- The value of an expression over the machine's memory. -/
def eval (s : Session) (e : Expr) : Except Part (Except Trap UInt32) :=
  match s.machine with
  | none => .error .machine
  | some m => .ok (m.eval e)

end Session

end Menagerie
