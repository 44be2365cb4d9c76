import Menagerie.Cue
import Menagerie.Error

/-! # What a compilation reports on the way

An `Event` is one line of the report a compilation keeps while it works, whether or not it
succeeds in the end. `Event.level` grades it and `Event.message` words it; the rest of its content
is in the constructor.
-/

namespace Menagerie

/-- How much attention an event asks for. -/
inductive Level where
  | debug
  | info
  | warn
deriving DecidableEq, Repr, Inhabited

/-- One step of a compilation worth a line in its report. -/
inductive Event where
  /-- The graph has a structural fault. -/
  | violated (fault : Violation)
  /-- A record received its place. -/
  | allocated (kind : RecordKind) (name : String) (offset : Offset) (len : UInt32)
  /-- An instance is listed again; the later world takes it from the world before. -/
  | placedAgain (inst first second : String)
  /-- A world's offset was written into an instance it lists. -/
  | patched (world : String) (inst : Offset)
  /-- The image is complete. -/
  | built (animals instances worlds bytes : Nat)
  /-- A transfer became a store. -/
  | lowered (inst world : String) (target value : Offset)
  /-- The five addresses of an instance's narration are known. -/
  | resolved (inst : String) (args : Cue Offset)
  /-- The program is complete. -/
  | emitted (stores narrations instructions pages : Nat)
deriving DecidableEq, Repr, Inhabited

namespace Event

/-- The level of an event. -/
def level : Event → Level
  | violated _ => .warn
  | placedAgain _ _ _ => .warn
  | built _ _ _ _ => .info
  | emitted _ _ _ _ => .info
  | allocated _ _ _ _ => .debug
  | patched _ _ => .debug
  | lowered _ _ _ _ => .debug
  | resolved _ _ => .debug

/-- The wording of an event. -/
def message : Event → String
  | violated _ => "graph failed upstream validation"
  | allocated _ _ _ _ => "allocated record"
  | placedAgain _ _ _ => "instance placed twice, last world wins"
  | patched _ _ => "patched world reference"
  | built _ _ _ _ => "memory image built"
  | lowered _ _ _ _ => "lowered transfer"
  | resolved _ _ => "resolved narration"
  | emitted _ _ _ _ => "program emitted"

end Event

end Menagerie
