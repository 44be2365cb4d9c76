/-! # Cues

A narration is made of five parts: the world, then the species' gene and name, the instance, and
the sound. `Cue α` holds one `α` for each part, in that order: the expressions that compute the
addresses of the parts, the addresses, or the texts found there.
-/

namespace Menagerie

/-- One value for each of the five parts of a narration. -/
structure Cue (α : Type) where
  world : α
  gene : α
  animal : α
  inst : α
  sound : α
deriving DecidableEq, Repr, Inhabited

namespace Cue

variable {α β : Type}

/-- The five values in order. -/
def toList (c : Cue α) : List α := [c.world, c.gene, c.animal, c.inst, c.sound]

/-- A function applied to each part. -/
def map (f : α → β) (c : Cue α) : Cue β :=
  ⟨f c.world, f c.gene, f c.animal, f c.inst, f c.sound⟩

/-- A computation run on each part in order; the first failure ends it. -/
def mapM {m : Type → Type} [Monad m] (f : α → m β) (c : Cue α) : m (Cue β) := do
  let world ← f c.world
  let gene ← f c.gene
  let animal ← f c.animal
  let inst ← f c.inst
  let sound ← f c.sound
  pure ⟨world, gene, animal, inst, sound⟩

@[simp] theorem toList_map (f : α → β) (c : Cue α) : (c.map f).toList = c.toList.map f := rfl

end Cue

end Menagerie
