import Menagerie.Cue
import Menagerie.View

/-! # Narrations

A running program hands out five addresses per narration. `Narration.decode?` turns them back into
text: each address must be the start of the field its position in the cue stands for.
-/

namespace Menagerie

/-- The five texts of a narration. -/
abbrev Narration := Cue String

namespace Narration

/-- The texts behind five addresses. -/
def decode? (v : View) (args : Cue Offset) : Option Narration := do
  let world ← v.textAt? args.world .world Slot.worldName
  let gene ← v.textAt? args.gene .animal Slot.animalGene
  let animal ← v.textAt? args.animal .animal Slot.animalName
  let inst ← v.textAt? args.inst .inst Slot.instName
  let sound ← v.textAt? args.sound .animal Slot.animalSound
  pure ⟨world, gene, animal, inst, sound⟩

/-- The sentence of a narration. -/
def sentence (n : Narration) : String :=
  s!"In {n.world}, {n.inst} the {n.animal} ({n.gene}) says {n.sound}"

end Narration

end Menagerie
