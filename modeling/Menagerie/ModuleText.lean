import Menagerie.Program

/-! # Module text

A program is written as a WebAssembly module in text form: it imports the narrator, declares the
memory with the image as its data, exports the memory and the entry point, and defines the entry
function with the program's body.

Each nested form stands on a line of its own, indented by one blank per level; operands follow on
the next level and a closing parenthesis ends the form. Constants are written as signed numbers,
an offset only if it is not zero.
-/

namespace Menagerie.ModuleText

/-! ## 1. Literals -/

/-- A byte of the data literal: itself if it is printable and neither quote nor backslash, else a
backslash and two hexadecimal digits. -/
def dataByte (b : UInt8) : String :=
  if 0x20 ≤ b ∧ b ≤ 0x7e ∧ b ≠ 0x22 ∧ b ≠ 0x5c then (Bytes.charOf b).toString
  else "\\" ++ Numeral.hexByte b

/-- The content of the data literal. -/
def dataText (b : Bytes) : String :=
  String.join (b.toList.map dataByte)

/-- The text with every occurrence of a character replaced. -/
def replace (old : Char) (new : String) (s : String) : String :=
  String.join (s.toList.map fun ch => if ch = old then new else ch.toString)

/-- The content of a name literal. Backslashes are doubled first, so the ones that are then put before
the quotes stay single. -/
def escapeName (s : String) : String :=
  replace '"' "\\\"" (replace '\\' "\\\\" s)

/-- A name literal with its quotes. -/
def nameText (s : String) : String :=
  "\"" ++ escapeName s ++ "\""

/-! ## 2. Code -/

/-- The indentation of a level. -/
def indent (depth : Nat) : String :=
  String.ofList (List.replicate depth ' ')

/-- A line at a level. -/
def line (depth : Nat) (s : String) : String :=
  indent depth ++ s ++ "\n"

/-- The offset of an access, left out if it is zero. -/
def offsetText (offset : UInt32) : String :=
  if offset = 0 then "" else " offset=" ++ toString offset.toNat

/-- An expression at a level. -/
def exprText (depth : Nat) : Expr → String
  | .const v => line depth ("(i32.const " ++ toString (Numeral.signed v) ++ ")")
  | .load offset e =>
    line depth ("(i32.load" ++ offsetText offset) ++ exprText (depth + 1) e ++ line depth ")"
  | .add l r =>
    line depth "(i32.add" ++ exprText (depth + 1) l ++ exprText (depth + 1) r ++ line depth ")"

/-- An instruction at a level. -/
def instructionText (depth : Nat) : Instruction → String
  | .store offset address value =>
    line depth ("(i32.store" ++ offsetText offset) ++ exprText (depth + 1) address ++
      exprText (depth + 1) value ++ line depth ")"
  | .narrate args =>
    line depth "(call $narrate" ++ String.join (args.toList.map (exprText (depth + 1))) ++ line depth ")"
  | .ret value =>
    line depth "(return" ++ exprText (depth + 1) value ++ line depth ")"

/-! ## 3. The module -/

/-- The text of a module. -/
def render (c : EmitConfig) (p : Program) : String :=
  line 0 "(module" ++
  line 1 ("(import " ++ nameText c.narratorModule ++ " " ++ nameText c.narratorField ++
    " (func $narrate (param i32 i32 i32 i32 i32)))") ++
  line 1 ("(memory $mem " ++ toString p.pages.initial ++ " " ++ toString p.pages.maximum ++ ")") ++
  line 1 ("(data (i32.const 0) \"" ++ dataText p.image.bytes ++ "\")") ++
  line 1 ("(export " ++ nameText c.memoryExport ++ " (memory $mem))") ++
  line 1 ("(export " ++ nameText c.entryPoint ++ " (func $entry))") ++
  line 1 "(func $entry (result i32)" ++
  String.join (p.body.map (instructionText 2)) ++
  line 1 ")" ++
  line 0 ")"

end Menagerie.ModuleText
