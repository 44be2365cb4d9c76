import Menagerie.Machine
import Menagerie.ModuleText

/-! # Compilers

A compiler reports the structural faults of a graph, builds its image, and emits its program over
that image. A fault alone does not stop it: only what cannot be laid out or emitted does.
-/

namespace Menagerie

/-- The settings of a compilation. -/
structure Compiler where
  image : ImageConfig := {}
  emit : EmitConfig := {}
deriving DecidableEq, Repr, Inhabited

namespace Compiler

/-- The report of a graph's structural faults. -/
def reportFaults (g : Graph) : Traced Unit :=
  ⟨g.violations.map .violated, .ok ()⟩

/-- The program of a graph. -/
def compile (c : Compiler) (g : Graph) : Traced Program := do
  reportFaults g
  let img ← Image.ofGraph c.image g
  Program.emit c.emit img g

/-- The module text of a graph's program. -/
def compileText (c : Compiler) (g : Graph) : Traced String :=
  ModuleText.render c.emit <$> c.compile g

end Compiler

end Menagerie
