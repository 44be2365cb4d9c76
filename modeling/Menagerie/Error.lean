import Menagerie.Graph.Violation
import Menagerie.Offset
import Menagerie.Text.Printable

/-! # Why a compilation fails

A `CompileError` names the cause; `CompileError.message` is its only wording.

* `Site` -- the place in the graph that holds a reference, `Target` -- what that reference named
  in vain;
* `Link` -- one step of the walk from an instance to the five parts of its narration, `Fault` --
  what stopped the walk there.
-/

namespace Menagerie

/-! ## 1. References that lead nowhere -/

/-- The place that holds an unresolved reference. -/
inductive Site where
  /-- The species of an instance. -/
  | species (inst : String)
  /-- An entry of a world's list. -/
  | listing (world : String)
  /-- One end of the transfer at a position. -/
  | transfer (position : Nat) (side : TransferEnd)
  /-- The instance itself, when it is to be narrated. -/
  | narrated (inst : String)
  /-- The world reference word of a transferred instance. -/
  | stored (inst : String)
deriving DecidableEq, Repr, Inhabited

namespace Site

/-- The kind of record the place belongs to; a transfer counts as its instance's. -/
def record : Site → RecordKind
  | listing _ => .world
  | _ => .inst

/-- The name of the record the place belongs to; a transfer has its position for a name. -/
def name : Site → String
  | species inst => inst
  | listing world => world
  | transfer position _ => s!"transfer #{position}"
  | narrated inst => inst
  | stored inst => inst

/-- The field of the record. -/
def field : Site → String
  | species _ => "species"
  | listing _ => "contains"
  | transfer _ side => side.label
  | narrated _ => "name"
  | stored _ => "world"

end Site

/-- What an unresolved reference named. -/
inductive Target where
  /-- A position beyond the declarations of its kind. -/
  | outOfRange (kind : RecordKind) (index : Nat)
  /-- A declared record that has not been laid out. -/
  | unassigned (kind : RecordKind) (name : String)
  /-- A declared record that the image does not hold. -/
  | absent (kind : RecordKind) (name : String)
  /-- A narrated instance that the image does not hold. -/
  | noOffset
  /-- An instance whose world reference word leaves the address space. -/
  | unaddressable (inst : Offset)
  /-- An instance whose world reference word lies outside the image. -/
  | outsideImage (inst : Offset)
  /-- A store that falls outside the image. -/
  | storeOutside (target : Offset)
deriving DecidableEq, Repr, Inhabited

/-- The wording of a target. -/
def Target.text : Target → String
  | outOfRange kind index => kind.numbered index
  | unassigned kind name => s!"{kind.label} '{name}' with no assigned offset"
  | absent kind name => s!"{kind.label} '{name}' with no offset"
  | noOffset => "no assigned offset"
  | unaddressable inst => s!"instance at {inst.text}"
  | outsideImage inst => s!"instance at {inst.text} outside the image"
  | storeOutside target => s!"store target {target.text} outside the image"

/-! ## 2. Walks that stop -/

/-- The steps of the walk from an instance to the parts of its narration. -/
inductive Link where
  | worldHeader
  | world
  | speciesHeader
  | species
  | worldName
  | animalGene
  | animalName
  | instName
  | animalSound
deriving DecidableEq, Repr, Inhabited

/-- The wording of a step. -/
def Link.label : Link → String
  | worldHeader => "world-ref header"
  | world => "world-ref"
  | speciesHeader => "species header"
  | species => "species"
  | worldName => "world name"
  | animalGene => "animal gene"
  | animalName => "animal name"
  | instName => "instance name"
  | animalSound => "animal sound"

/-- What stops a walk. -/
inductive Fault where
  /-- The reference word is unset. -/
  | unset
  /-- The header word of a slot cannot be followed. -/
  | headerUnreadable (slot : Nat) (base : Offset)
  /-- The header word leads beyond the image. -/
  | pastEnd (address : Offset)
  /-- The reference word lies outside the image. -/
  | wordOutside (address : Offset)
  /-- The reference does not lead to the start of a record of the kind wanted. -/
  | notARecord (target : Offset) (kind : RecordKind)
deriving DecidableEq, Repr, Inhabited

/-- The wording of a fault. -/
def Fault.text : Fault → String
  | unset => "unset: no world placed or transferred it"
  | headerUnreadable slot base => s!"header slot {slot} of {base.text} unreadable"
  | pastEnd address => s!"field address {address.text} past end of image"
  | wordOutside address => s!"reference word at {address.text} outside image"
  | notARecord target kind => s!"{target.text} is not the start of a {kind.label} record"

/-! ## 3. All causes -/

/-- Why a compilation fails. -/
inductive CompileError where
  /-- A reference leads nowhere. -/
  | unresolved (site : Site) (target : Target)
  /-- An instance cannot be narrated. -/
  | dereference (inst : String) (link : Link) (fault : Fault)
  /-- The records do not fit. -/
  | overflow (required limit : Nat)
  /-- A text holds a character that has no byte. -/
  | unencodable (record : RecordKind) (name field : String) (ch : Char)
  /-- A name is declared twice among the records of one kind. -/
  | duplicateName (record : RecordKind) (name : String)
  /-- An instance is listed twice where that is refused. -/
  | duplicatePlacement (inst first second : String)
deriving DecidableEq, Repr, Inhabited

/-- The wording of a compile error. -/
def CompileError.message : CompileError → String
  | unresolved site target =>
    s!"unresolved reference: {site.record.label} '{site.name}' field '{site.field}' points at {target.text}"
  | dereference inst link fault =>
    s!"cannot narrate instance '{inst}': {link.label} failed: {fault.text}"
  | overflow required limit =>
    s!"memory image overflow: requires {required} bytes, limit is {limit} bytes"
  | unencodable record name field ch =>
    let shown := Text.quoted ch
    let code := Numeral.codePoint ch
    s!"{record.label} '{name}' field '{field}' contains {shown} ({code}), which has no single-byte encoding"
  | duplicateName record name => s!"duplicate {record.label} name '{name}'"
  | duplicatePlacement inst first second =>
    s!"instance '{inst}' placed in world '{first}' and again in '{second}'"

end Menagerie
