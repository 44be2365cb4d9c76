import Menagerie.Bytes.Address
import Menagerie.Cue
import Menagerie.Kind

/-! # Expressions and instructions

Programs compute addresses with three operations on 32-bit words: constants, addition, and loads
from memory at an address plus a constant. Addition wraps around; a load outside memory traps.
-/

namespace Menagerie

/-! ## 1. Expressions -/

/-- An expression that computes a word. -/
inductive Expr where
  | const (value : UInt32)
  | load (offset : UInt32) (address : Expr)
  | add (left right : Expr)
deriving DecidableEq, Repr, Inhabited

namespace Expr

/-- The number of operations in an expression. -/
def size : Expr → Nat
  | const _ => 1
  | load _ e => 1 + e.size
  | add l r => 1 + l.size + r.size

/-- The constant of an offset. -/
def ofOffset (o : Offset) : Expr := const o.word

/-- The address of the field behind a header slot: the base plus the header word, the slot given in
bytes. -/
def field (base : Expr) (slot : UInt32) : Expr := add base (load slot base)

/-- The five address expressions that narrate the instance at an offset: they follow the instance's
world and species references and then one header word each. -/
def narration (inst : Offset) : Cue Expr :=
  let slot (i : Nat) : UInt32 := UInt32.ofNat (Bytes.slotAt i)
  let base := ofOffset inst
  let world := load 0 (base.field (slot Slot.instWorld))
  let animal := load 0 (base.field (slot Slot.instSpecies))
  { world := world.field (slot Slot.worldName)
    gene := animal.field (slot Slot.animalGene)
    animal := animal.field (slot Slot.animalName)
    inst := base.field (slot Slot.instName)
    sound := animal.field (slot Slot.animalSound) }

end Expr

/-! ## 2. Traps -/

/-- Why a program stops early. -/
inductive Trap where
  /-- An access at an address does not lie inside memory. -/
  | outOfBounds (address size : Nat)
  /-- The body came to its end without a return. -/
  | missingReturn
deriving DecidableEq, Repr, Inhabited

/-- The wording of a trap. -/
def Trap.message : Trap → String
  | outOfBounds address size =>
    let shown := Numeral.hexLiteral address
    s!"out-of-bounds access at {shown} (memory is {size} bytes)"
  | missingReturn => "function body ended without return"

/-- The word an expression computes. -/
def Expr.eval (mem : Bytes) : Expr → Except Trap UInt32
  | const v => .ok v
  | add l r => do
    let a ← l.eval mem
    let b ← r.eval mem
    pure (a + b)
  | load offset e => do
    let a ← e.eval mem
    let ea := a.toNat + offset.toNat
    match mem.word? ea with
    | some w => pure w
    | none => .error (.outOfBounds ea mem.size)

/-! ## 3. Instructions -/

/-- One instruction of a program. -/
inductive Instruction where
  /-- Writes a word at an address plus a constant. -/
  | store (offset : UInt32) (address value : Expr)
  /-- Hands the five parts of a narration to the outside. -/
  | narrate (args : Cue Expr)
  /-- Ends the program with a value. -/
  | ret (value : Expr)
deriving DecidableEq, Repr, Inhabited

end Menagerie
