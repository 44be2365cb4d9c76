/-! # Kinds of record

An image holds three kinds of record. Each kind has a fixed number of fields, and every record
begins with one header slot per field; `Slot` names the slots by their content.
-/

namespace Menagerie

/-- What a record describes: a species, one individual, or a place that lists individuals. -/
inductive RecordKind where
  | animal
  | inst
  | world
deriving DecidableEq, Repr, Inhabited

namespace RecordKind

/-- The word for the kind in messages. -/
def label : RecordKind → String
  | animal => "animal"
  | inst => "instance"
  | world => "world"

/-- The wording for the declaration of a kind at a position, as in `animal #3`. -/
def numbered (kind : RecordKind) (index : Nat) : String := s!"{kind.label} #{index}"

/-- The number of header slots of a record. -/
def slots : RecordKind → Nat
  | animal => 3
  | inst => 3
  | world => 2

theorem slots_pos (kind : RecordKind) : 0 < kind.slots := by
  cases kind <;> decide

/-- The kinds in the order in which their records are laid out. -/
def passes : List RecordKind := [animal, inst, world]

end RecordKind

/-! ## Header slots by content -/

namespace Slot

/-- The gene of an animal. -/
def animalGene : Nat := 0

/-- The name of an animal. -/
def animalName : Nat := 1

/-- The sound of an animal. -/
def animalSound : Nat := 2

/-- The reference word to the world an instance is in. -/
def instWorld : Nat := 0

/-- The name of an instance. -/
def instName : Nat := 1

/-- The reference word to the species of an instance. -/
def instSpecies : Nat := 2

/-- The name of a world. -/
def worldName : Nat := 0

/-- The reference words of the instances a world lists. -/
def worldContains : Nat := 1

end Slot

/-- The distance from the start of an instance record to its world reference word: the word is the
first field after the three header slots. -/
def worldRefAt : Nat := 12

end Menagerie
