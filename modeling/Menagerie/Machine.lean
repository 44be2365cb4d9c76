import Menagerie.Narration
import Menagerie.Program

/-! # The reference machine

The machine runs a body of instructions over a memory. A run is a value: its outcome, the
narration calls in order, each with the memory as it stood at the call, and the memory it leaves.
Everything done before a trap stays done.
-/

namespace Menagerie

/-! ## 1. One instruction -/

/-- What one instruction does to a memory it has read. -/
inductive Step where
  /-- A word is written at a position inside memory. -/
  | write (pos : Nat) (value : UInt32)
  /-- A narration is handed out. -/
  | call (args : Cue UInt32)
  /-- The run ends, by a return or by a trap. -/
  | stop (outcome : Except Trap UInt32)
deriving Repr, Inhabited

namespace Step

/-- A computation that either goes on with a step or traps. -/
def ofExcept {α : Type} (next : α → Step) : Except Trap α → Step
  | .ok a => next a
  | .error t => stop (.error t)

end Step

namespace Instruction

/-- The position and the value of a store: the address is computed first, then the value, and last
the position is checked. -/
def storeArgs (mem : Bytes) (offset : UInt32) (address value : Expr) : Except Trap (Nat × UInt32) := do
  let a ← address.eval mem
  let v ← value.eval mem
  let pos := a.toNat + offset.toNat
  if pos + 4 ≤ mem.size then pure (pos, v) else .error (.outOfBounds pos mem.size)

/-- What an instruction does, given the memory it reads. -/
def step (mem : Bytes) : Instruction → Step
  | store offset address value =>
    Step.ofExcept (fun (pos, v) => .write pos v) (storeArgs mem offset address value)
  | narrate args => Step.ofExcept .call (args.mapM (Expr.eval mem))
  | ret value => .stop (value.eval mem)

end Instruction

/-! ## 2. Runs -/

/-- A narration call and the memory at its moment. -/
structure Call where
  args : Cue UInt32
  memory : Bytes
deriving DecidableEq, Repr, Inhabited

/-- A finished run. -/
structure Run where
  outcome : Except Trap UInt32
  calls : List Call
  memory : Bytes
deriving Repr, Inhabited

/-- The run of a body over a memory. -/
def Run.ofBody (mem : Bytes) : List Instruction → Run
  | [] => ⟨.error .missingReturn, [], mem⟩
  | i :: rest =>
    match i.step mem with
    | .write pos value => ofBody (mem.setWord pos value) rest
    | .call args =>
      let r := ofBody mem rest
      { r with calls := ⟨args, mem⟩ :: r.calls }
    | .stop outcome => ⟨outcome, [], mem⟩

/-- A memory and the spans of the records in it. -/
structure Machine where
  memory : Bytes
  spans : Array Span
deriving DecidableEq, Repr, Inhabited

namespace Machine

/-- A machine whose memory is an image. -/
def ofImage (i : Image) : Machine := ⟨i.bytes, i.spans⟩

/-- The view of the machine's memory. -/
def view (m : Machine) : View := ⟨m.memory, m.spans⟩

/-- Runs a body: the run, and the machine after it. -/
def run (m : Machine) (body : List Instruction) : Run × Machine :=
  let r := Run.ofBody m.memory body
  (r, { m with memory := r.memory })

/-- Runs a body and hands each narration to a sink as it is called. The sink is a function of its state,
of a view of the memory at that moment and of the five addresses. The outcome comes with the sink's
last state and the machine after the run. -/
def runInto {σ : Type} (sink : σ → View → Cue UInt32 → σ) (s : σ) (m : Machine) :
    List Instruction → Except Trap UInt32 × σ × Machine
  | [] => (.error .missingReturn, s, m)
  | i :: rest =>
    match i.step m.memory with
    | .write pos value => runInto sink s { m with memory := m.memory.setWord pos value } rest
    | .call args => runInto sink (sink s m.view args) m rest
    | .stop outcome => (outcome, s, m)

/-- The value of an expression over the machine's memory. -/
def eval (m : Machine) (e : Expr) : Except Trap UInt32 := e.eval m.memory

/-- What a call narrates, read from the memory at its moment; the spans say what lies there. -/
def narration? (spans : Array Span) (c : Call) : Option Narration :=
  Narration.decode? ⟨c.memory, spans⟩ (c.args.map Offset.mk)

/-- The narrations of a run's calls that can be read. -/
def narrations (m : Machine) (r : Run) : List Narration :=
  r.calls.filterMap (narration? m.spans)

/-- The arguments of a run's calls that cannot be read. -/
def unread (m : Machine) (r : Run) : List (Cue UInt32) :=
  (r.calls.filter fun c => (narration? m.spans c).isNone).map (·.args)

end Machine

end Menagerie
