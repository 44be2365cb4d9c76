import Menagerie.ModuleText
import Mathlib.Data.List.Infix

/-! # Reading module text back

The text of a module says everything about the module that it was written from. This is shown by a
reader that takes the text apart again: the four names, the page counts, the bytes of the image,
and the body of the entry function.

* Two kinds of literal are read: in a name a backslash guards the next character, in the data it
  announces a byte in hexadecimal.
* A constant is an integer with a sign, taken modulo the number of words; an offset that is not
  written is zero.
* Between tokens the reader does not look at blanks and line ends, so it does not rely on the
  indentation.

Every reader takes off the blanks that follow what it reads, so every text it meets starts with a
character that counts. **What is written is read**: for each form of the text there is one lemma,
`r (skip (text ++ rest)) = some (value, skip rest)`, and the lemma of a form is put together from
those of its parts.
-/

namespace Menagerie.ModuleText

/-! ## 1. Readers -/

/-- A reader takes a value off the front of a text and leaves the rest. -/
abbrev Reader (α : Type) := StateT (List Char) Option α

/-- What a module says. -/
structure Contents where
  narratorModule : String
  narratorField : String
  memoryExport : String
  entryPoint : String
  pages : Pages
  image : Bytes
  body : List Instruction
deriving DecidableEq, Repr, Inhabited

/-- What the module of a program says under a configuration. -/
def Contents.ofProgram (c : EmitConfig) (p : Program) : Contents where
  narratorModule := c.narratorModule
  narratorField := c.narratorField
  memoryExport := c.memoryExport
  entryPoint := c.entryPoint
  pages := p.pages
  image := p.image.bytes
  body := p.body

/-- The characters that separate tokens. -/
def isBlank (c : Char) : Bool := c == ' ' || c == '\n'

/-- The text from its first character that is not blank. -/
def skip (cs : List Char) : List Char := cs.dropWhile isBlank

/-- The digit a character stands for in hexadecimal. -/
def hexValue? (c : Char) : Option Nat :=
  if c.isDigit then some (c.toNat - '0'.toNat)
  else if 'a' ≤ c ∧ c ≤ 'f' then some (c.toNat - 'a'.toNat + 10)
  else none

/-- The characters of a name up to its closing quote. -/
def nameChars? : List Char → Option (List Char × List Char)
  | [] => none
  | '"' :: rest => some ([], rest)
  | '\\' :: c :: rest => (nameChars? rest).map fun (s, rest) => (c :: s, rest)
  | c :: rest => (nameChars? rest).map fun (s, rest) => (c :: s, rest)

/-- The bytes of the data up to its closing quote. -/
def dataBytes? : List Char → Option (List UInt8 × List Char)
  | [] => none
  | '"' :: rest => some ([], rest)
  | '\\' :: high :: low :: rest => do
    let high ← hexValue? high
    let low ← hexValue? low
    (dataBytes? rest).map fun (b, rest) => (UInt8.ofNat (high * 16 + low) :: b, rest)
  | c :: rest => (dataBytes? rest).map fun (b, rest) => (UInt8.ofNat c.toNat :: b, rest)

namespace Reader

/-- A fixed text. -/
def token (s : String) : Reader Unit := fun cs =>
  (s.toList.isPrefixOf? cs).map fun rest => ((), skip rest)

/-- A literal: a quote, and then what is read up to the closing one. -/
def quoted {α : Type} (content : List Char → Option (α × List Char)) : Reader α
  | '"' :: cs => (content cs).map fun (a, rest) => (a, skip rest)
  | _ => none

/-- A natural number in decimal. -/
def number : Reader Nat := fun cs =>
  let digits := cs.takeWhile Char.isDigit
  if digits = [] then none
  else some (Nat.ofDigitChars 10 digits 0, skip (cs.dropWhile Char.isDigit))

/-- An integer in decimal. -/
def integer : Reader Int :=
  (do token "-"; let n ← number; pure (-n)) <|> (do let n ← number; pure n)

/-- A name literal. -/
def name : Reader String := do
  let cs ← quoted nameChars?
  pure (String.ofList cs)

/-- The offset of an access, zero if it is not written. -/
def offset : Reader UInt32 :=
  (do token "offset="; let n ← number; pure (UInt32.ofNat n)) <|> pure 0

/-- An expression; `fuel` bounds how deep it is nested. -/
def expr : Nat → Reader Expr
  | 0 => failure
  | fuel + 1 =>
    (do token "(i32.const "
        let z ← integer
        token ")"
        pure (.const (UInt32.ofInt z))) <|>
    (do token "(i32.load"
        let o ← offset
        let address ← expr fuel
        token ")"
        pure (.load o address)) <|>
    (do token "(i32.add"
        let left ← expr fuel
        let right ← expr fuel
        token ")"
        pure (.add left right))

/-- An instruction whose expressions are nested no deeper than `fuel`. -/
def instruction (fuel : Nat) : Reader Instruction :=
  (do token "(i32.store"
      let o ← offset
      let address ← expr fuel
      let value ← expr fuel
      token ")"
      pure (.store o address value)) <|>
  (do token "(call $narrate"
      let world ← expr fuel
      let gene ← expr fuel
      let animal ← expr fuel
      let inst ← expr fuel
      let sound ← expr fuel
      token ")"
      pure (.narrate ⟨world, gene, animal, inst, sound⟩)) <|>
  (do token "(return"
      let value ← expr fuel
      token ")"
      pure (.ret value))

/-- Instructions up to the closing parenthesis of their function. -/
def body : Nat → Reader (List Instruction)
  | 0 => failure
  | fuel + 1 =>
    (do token ")"; pure []) <|>
    (do let i ← instruction fuel
        let rest ← body fuel
        pure (i :: rest))

/-- The import of the narrator: its module and its field. -/
def narrator : Reader (String × String) := do
  token "(import "
  let narratorModule ← name
  let narratorField ← name
  token "(func $narrate (param i32 i32 i32 i32 i32)))"
  pure (narratorModule, narratorField)

/-- The declaration of the memory. -/
def memory : Reader Pages := do
  token "(memory $mem "
  let initial ← number
  let maximum ← number
  token ")"
  pure ⟨initial, maximum⟩

/-- The data of the memory. -/
def data : Reader Bytes := do
  token "(data (i32.const 0) "
  let bytes ← quoted dataBytes?
  token ")"
  pure bytes.toArray

/-- The name under which something is exported. -/
def exported (what : String) : Reader String := do
  token "(export "
  let s ← name
  token what
  pure s

/-- The end of the text. -/
def ended : Reader Unit
  | [] => some ((), [])
  | _ => none

/-- A whole module, with nothing after it. -/
def contents (fuel : Nat) : Reader Contents := do
  token "(module"
  let imported ← narrator
  let pages ← memory
  let image ← data
  let memoryExport ← exported "(memory $mem))"
  let entryPoint ← exported "(func $entry))"
  token "(func $entry (result i32)"
  let body ← body fuel
  token ")"
  ended
  pure { narratorModule := imported.1, narratorField := imported.2, memoryExport, entryPoint, pages,
         image, body }

end Reader

/-- The contents of a module, read from its text. No expression is nested deeper than the text is
long. -/
def read? (text : String) : Option Contents :=
  ((Reader.contents text.length).run (skip text.toList)).map Prod.fst

/-! ## 2. Blanks and tokens -/

/-- Whether a text starts with a character that counts. -/
def isSolid (cs : List Char) : Bool := cs.head?.any fun c => !isBlank c

theorem skip_space (cs : List Char) : skip (' ' :: cs) = skip cs := rfl

theorem skip_newline (cs : List Char) : skip ('\n' :: cs) = skip cs := rfl

theorem skip_of_solid {cs : List Char} (h : isSolid cs) (rest : List Char) :
    skip (cs ++ rest) = cs ++ rest := by
  cases cs with
  | nil => cases h
  | cons c cs =>
    have hc : isBlank c = false := by simpa [isSolid] using h
    simp [skip, hc]

/-- The indentation of a line is not looked at. -/
theorem skip_line (depth : Nat) (s : String) (rest : List Char) :
    skip ((line depth s).toList ++ rest) = skip (s.toList ++ '\n' :: rest) := by
  have hblank : ∀ c ∈ List.replicate depth ' ', isBlank c := by
    intro c hc
    rw [List.eq_of_mem_replicate hc]
    rfl
  simp only [line, indent, String.toList_append, String.toList_ofList, List.append_assoc]
  exact List.dropWhile_append_of_pos hblank

theorem toList_space : " ".toList = [' '] := by decide

theorem length_line (depth : Nat) (s : String) : (line depth s).length = depth + s.length + 1 := by
  have hnewline : "\n".length = 1 := by decide
  simp [line, indent, String.length_append, hnewline]

namespace Reader

variable {α β : Type} {r : Reader α} {cs cs' : List Char} {a : α}

theorem bind_eq (h : r cs = some (a, cs')) (k : α → Reader β) : (r >>= k) cs = k a cs' := by
  show (r cs).bind _ = _
  rw [h]
  rfl

theorem bind_none (h : r cs = none) (k : α → Reader β) : (r >>= k) cs = none := by
  show (r cs).bind _ = _
  rw [h]
  rfl

theorem orElse_some (h : r cs = some (a, cs')) (r' : Reader α) :
    (r <|> r') cs = some (a, cs') := by
  show (r cs).orElse _ = _
  rw [h]
  rfl

theorem orElse_none (h : r cs = none) (r' : Reader α) : (r <|> r') cs = r' cs := by
  show (r cs).orElse _ = _
  rw [h]
  rfl

/-- A token is read where it is written. -/
theorem token_text {s : String} (h : isSolid s.toList) (rest : List Char) :
    token s (skip (s.toList ++ rest)) = some ((), skip rest) := by
  have hrest : s.toList.isPrefixOf? (s.toList ++ rest) = some rest :=
    List.isPrefixOf?_eq_some_iff_append_eq.mpr rfl
  rw [skip_of_solid h, token, hrest]
  rfl

/-- A token is not read where another one is written that differs from it before either ends. -/
theorem token_other {s t : String} (h : isSolid t.toList)
    (hne : ¬ s.toList <+: t.toList ∧ ¬ t.toList <+: s.toList) (rest : List Char) :
    token s (skip (t.toList ++ rest)) = none := by
  have hrest : s.toList.isPrefixOf? (t.toList ++ rest) = none := by
    rw [Option.eq_none_iff_forall_ne_some]
    intro zs hzs
    have hs : s.toList <+: t.toList ++ rest := ⟨zs, List.isPrefixOf?_eq_some_iff_append_eq.mp hzs⟩
    rcases List.prefix_or_prefix_of_prefix hs (List.prefix_append t.toList rest) with hst | hts
    · exact hne.1 hst
    · exact hne.2 hts
  rw [skip_of_solid h, token, hrest]
  rfl

/-- So an alternative that starts with that token is passed over. -/
theorem orElse_other {s t : String} (h : isSolid t.toList)
    (hne : ¬ s.toList <+: t.toList ∧ ¬ t.toList <+: s.toList) (k : Unit → Reader α) (r' : Reader α)
    (rest : List Char) :
    ((token s >>= k) <|> r') (skip (t.toList ++ rest)) = r' (skip (t.toList ++ rest)) :=
  orElse_none (bind_none (token_other h hne rest) k) r'

end Reader

/-! ## 3. Numbers -/

theorem isBlank_of_isDigit {c : Char} (h : c.isDigit) : isBlank c = false := by
  have hspace : c ≠ ' ' := by
    intro hc
    subst hc
    exact absurd h (by decide)
  have hnewline : c ≠ '\n' := by
    intro hc
    subst hc
    exact absurd h (by decide)
  simp [isBlank, hspace, hnewline]

theorem isDigit_of_mem_digits {n : Nat} {c : Char} (h : c ∈ Nat.toDigits 10 n) : c.isDigit :=
  Nat.isDigit_of_mem_toDigits (by decide) (by decide) h

theorem digits_eq_cons (n : Nat) : ∃ c cs, Nat.toDigits 10 n = c :: cs ∧ c.isDigit := by
  obtain ⟨c, cs, hcs⟩ := List.exists_cons_of_ne_nil (Nat.toDigits_ne_nil (n := n) (b := 10))
  have hc : c ∈ Nat.toDigits 10 n := by simp [hcs]
  exact ⟨c, cs, hcs, isDigit_of_mem_digits hc⟩

theorem solid_digits (n : Nat) : isSolid (Nat.toDigits 10 n) := by
  obtain ⟨c, cs, hcs, hc⟩ := digits_eq_cons n
  simp [isSolid, hcs, isBlank_of_isDigit hc]

/-- The integer of a word stands for that word. -/
theorem ofInt_signed (w : UInt32) : UInt32.ofInt (Numeral.signed w) = w := by
  have hw := w.toNat_lt
  apply UInt32.toNat_inj.mp
  simp only [UInt32.ofInt, UInt32.toNat_ofNat', Numeral.signed]
  split <;> omega

namespace Reader

/-- A number is read if no further digit follows it. -/
theorem number_digits (n : Nat) {rest : List Char} (h : ∀ c ∈ rest.head?, c.isDigit = false) :
    number (skip (Nat.toDigits 10 n ++ rest)) = some (n, skip rest) := by
  have hdigits : ∀ c ∈ Nat.toDigits 10 n, c.isDigit := fun c hc => isDigit_of_mem_digits hc
  have hstop : rest.takeWhile Char.isDigit = [] ∧ rest.dropWhile Char.isDigit = rest := by
    cases rest with
    | nil => exact ⟨rfl, rfl⟩
    | cons c cs => simp [h c rfl]
  rw [skip_of_solid (solid_digits n), number, List.takeWhile_append_of_pos hdigits,
    List.dropWhile_append_of_pos hdigits, hstop.1, hstop.2, List.append_nil,
    if_neg Nat.toDigits_ne_nil, Nat.ofDigitChars_ten_toDigits]

theorem number_text (n : Nat) {rest : List Char} (h : ∀ c ∈ rest.head?, c.isDigit = false) :
    number (skip ((toString n).toList ++ rest)) = some (n, skip rest) := by
  rw [Nat.toString_eq_ofList_toDigits, String.toList_ofList]
  exact number_digits n h

/-- The digits of a number do not start with a sign. -/
theorem token_minus_digits (n : Nat) (rest : List Char) :
    token "-" (skip (Nat.toDigits 10 n ++ rest)) = none := by
  obtain ⟨c, cs, hcs, hdigit⟩ := digits_eq_cons n
  have hc : '-' ≠ c := by
    intro hc
    subst hc
    exact absurd hdigit (by decide)
  rw [skip_of_solid (solid_digits n), hcs]
  simp [token, List.isPrefixOf?, hc]

/-- An integer is read if no further digit follows it. -/
theorem integer_text (z : Int) {rest : List Char} (h : ∀ c ∈ rest.head?, c.isDigit = false) :
    integer (skip ((toString z).toList ++ rest)) = some (z, skip rest) := by
  rw [Int.toString_eq_repr, Int.repr_eq_if, integer]
  split
  · rename_i hz
    rw [Nat.toList_repr, orElse_none (bind_none (token_minus_digits z.toNat rest) _),
      bind_eq (number_digits z.toNat h)]
    show some ((z.toNat : Int), skip rest) = _
    rw [Int.toNat_of_nonneg hz]
  · rename_i hz
    rw [String.toList_append, Nat.toList_repr, List.append_assoc]
    apply orElse_some
    rw [bind_eq (token_text (by decide) _), bind_eq (number_digits (-z).toNat h)]
    show some (-((-z).toNat : Int), skip rest) = _
    rw [Int.toNat_of_nonneg (by omega), Int.neg_neg]

end Reader

/-! ## 4. Literals -/

/-- A character of a name literal: a backslash stands before a quote or a backslash. -/
def nameChar (c : Char) : String :=
  if c = '"' ∨ c = '\\' then "\\" ++ c.toString else c.toString

theorem toList_replace (old : Char) (new s : String) : (replace old new s).toList =
    s.toList.flatMap fun ch => (if ch = old then new else ch.toString).toList := by
  rw [replace, String.toList_join, List.flatMap_map]

/-- **The two replacements are one pass over the characters**: what the first one leaves of a character is
changed by the second one only if the character is a quote. -/
theorem escapeName_eq (s : String) : escapeName s = String.join (s.toList.map nameChar) := by
  have hchar : ∀ ch : Char, ((if ch = '\\' then "\\\\" else ch.toString).toList.flatMap
      fun ch => (if ch = '"' then "\\\"" else ch.toString).toList) = (nameChar ch).toList := by
    intro ch
    by_cases hbackslash : ch = '\\'
    · rw [hbackslash]
      decide
    · by_cases hquote : ch = '"'
      · rw [hquote]
        decide
      · have hplain : ¬ (ch = '"' ∨ ch = '\\') := not_or.mpr ⟨hquote, hbackslash⟩
        rw [if_neg hbackslash, nameChar, if_neg hplain, Char.toString_eq_singleton,
          String.toList_singleton, List.flatMap_singleton, if_neg hquote, Char.toString_eq_singleton,
          String.toList_singleton]
  apply String.toList_inj.mp
  rw [escapeName, toList_replace, toList_replace, List.flatMap_assoc, String.toList_join,
    List.flatMap_map, funext hchar]

/-- The literal of a name: its characters, each guarded if it has to be, between quotes. -/
theorem toList_nameText (s : String) :
    (nameText s).toList = '"' :: ((String.join (s.toList.map nameChar)).toList ++ ['"']) := by
  have hquote : "\"".toList = ['"'] := by decide
  rw [nameText, escapeName_eq, String.toList_append, String.toList_append, hquote]
  rfl

theorem nameChars?_nameChar (c : Char) (rest : List Char) :
    nameChars? ((nameChar c).toList ++ rest) =
      (nameChars? rest).map fun (s, rest) => (c :: s, rest) := by
  rw [nameChar]
  split
  · rw [String.toList_append, Char.toString_eq_singleton, String.toList_singleton]
    show nameChars? ('\\' :: c :: rest) = _
    rw [nameChars?]
  · rename_i hc
    rw [not_or] at hc
    rw [Char.toString_eq_singleton, String.toList_singleton]
    show nameChars? (c :: rest) = _
    rw [nameChars?]
    · exact hc.1
    · intro _ _ h
      exact absurd h hc.2

/-- **A name is read whatever its characters are.** -/
theorem nameChars?_text (cs rest : List Char) :
    nameChars? ((String.join (cs.map nameChar)).toList ++ '"' :: rest) = some (cs, rest) := by
  induction cs with
  | nil => rfl
  | cons c cs ih =>
    rw [List.map_cons, String.join_cons, String.toList_append, List.append_assoc,
      nameChars?_nameChar, ih]
    rfl

theorem hexValue?_digitChar {d : Nat} (h : d < 16) : hexValue? (Nat.digitChar d) = some d := by
  decide +revert

theorem charOf_ne {b b' : UInt8} (h : b ≠ b') : Bytes.charOf b ≠ Bytes.charOf b' := by
  intro hc
  apply h
  rw [← Bytes.ofNat_charOf b, hc, Bytes.ofNat_charOf]

theorem toList_hexByte (b : UInt8) : (Numeral.hexByte b).toList =
    [Nat.digitChar (b.toNat / 16), Nat.digitChar (b.toNat % 16)] :=
  String.toList_ofList

theorem dataBytes?_dataByte (b : UInt8) (rest : List Char) :
    dataBytes? ((dataByte b).toList ++ rest) =
      (dataBytes? rest).map fun (s, rest) => (b :: s, rest) := by
  have hb := b.toNat_lt
  rw [dataByte]
  split
  · rename_i hplain
    obtain ⟨-, -, hquote, hbackslash⟩ := hplain
    rw [Char.toString_eq_singleton, String.toList_singleton]
    show dataBytes? (Bytes.charOf b :: rest) = _
    rw [dataBytes?, Bytes.ofNat_charOf]
    · exact charOf_ne hquote
    · intro _ _ _ h
      exact absurd h (charOf_ne hbackslash)
  · have hdigits : UInt8.ofNat (b.toNat / 16 * 16 + b.toNat % 16) = b := by
      rw [Nat.div_add_mod', UInt8.ofNat_toNat]
    rw [String.toList_append, toList_hexByte, List.append_assoc]
    show dataBytes? ('\\' :: Nat.digitChar (b.toNat / 16) :: Nat.digitChar (b.toNat % 16) :: rest) = _
    rw [dataBytes?, hexValue?_digitChar (by omega), hexValue?_digitChar (by omega)]
    simp only [Option.bind_eq_bind, Option.bind_some, hdigits]

/-- **The data is read whatever its bytes are.** -/
theorem dataBytes?_text (bs : List UInt8) (rest : List Char) :
    dataBytes? ((String.join (bs.map dataByte)).toList ++ '"' :: rest) = some (bs, rest) := by
  induction bs with
  | nil => rfl
  | cons b bs ih =>
    rw [List.map_cons, String.join_cons, String.toList_append, List.append_assoc,
      dataBytes?_dataByte, ih]
    rfl

namespace Reader

theorem quoted_text {α : Type} {content : List Char → Option (α × List Char)}
    {text rest : List Char} {a : α} (h : content (text ++ '"' :: rest) = some (a, rest)) :
    quoted content (skip ('"' :: (text ++ '"' :: rest))) = some (a, skip rest) := by
  show (content (text ++ '"' :: rest)).map _ = _
  rw [h]
  rfl

theorem name_text (s : String) (rest : List Char) :
    name (skip ((nameText s).toList ++ rest)) = some (s, skip rest) := by
  simp only [toList_nameText, List.append_assoc, List.cons_append, List.nil_append]
  rw [name, bind_eq (quoted_text (nameChars?_text s.toList rest)), String.ofList_toList]
  rfl

end Reader

/-! ## 5. Code -/

/-- Every expression opens with a parenthesis. -/
theorem exprText_opens (depth : Nat) (e : Expr) (rest : List Char) :
    ∃ cs, skip ((exprText depth e).toList ++ rest) = skip ("(".toList ++ cs) := by
  cases e <;>
  · simp only [exprText, String.toList_append, List.append_assoc, skip_line]
    exact ⟨_, rfl⟩

theorem instructionText_opens (depth : Nat) (i : Instruction) (rest : List Char) :
    ∃ cs, skip ((instructionText depth i).toList ++ rest) = skip ("(".toList ++ cs) := by
  cases i <;>
  · simp only [instructionText, String.toList_append, List.append_assoc, skip_line]
    exact ⟨_, rfl⟩

theorem instructionText_length_pos (depth : Nat) (i : Instruction) :
    0 < (instructionText depth i).length := by
  cases i <;>
  · simp only [instructionText, String.length_append, length_line]
    omega

namespace Reader

theorem offset_text (o : UInt32) (depth : Nat) (e : Expr) (rest : List Char) :
    offset (skip ((offsetText o).toList ++ '\n' :: ((exprText depth e).toList ++ rest))) =
      some (o, skip ((exprText depth e).toList ++ rest)) := by
  rw [offsetText, offset]
  split
  · rename_i ho
    obtain ⟨cs, hcs⟩ := exprText_opens depth e rest
    rw [ho]
    show (_ <|> _ : Reader UInt32) (skip ((exprText depth e).toList ++ rest)) = _
    rw [hcs, orElse_other (by decide) (by decide)]
    rfl
  · have hdigit : ∀ c ∈ ('\n' :: ((exprText depth e).toList ++ rest)).head?, c.isDigit = false := by
      simp
    have hspace : " offset=".toList = ' ' :: "offset=".toList := by decide
    rw [String.toList_append, hspace, List.append_assoc, List.cons_append, skip_space]
    apply orElse_some
    rw [bind_eq (token_text (by decide) _), bind_eq (number_text o.toNat hdigit), UInt32.ofNat_toNat]
    rfl

theorem close_text (depth : Nat) (rest : List Char) :
    token ")" (skip ((line depth ")").toList ++ rest)) = some ((), skip rest) := by
  rw [skip_line, token_text (by decide)]
  rfl

/-- **An expression is read at any depth**, if the fuel is not less than its length. -/
theorem expr_text (e : Expr) {depth fuel : Nat} (h : (exprText depth e).length ≤ fuel)
    (rest : List Char) :
    expr fuel (skip ((exprText depth e).toList ++ rest)) = some (e, skip rest) := by
  -- In each case the alternatives before the right one are passed over, and then the parts are read
  -- one by one; a part is shorter than the whole, so there is fuel left for it.
  induction e generalizing depth fuel rest with
  | const v =>
    simp only [exprText, length_line] at h
    obtain ⟨fuel, rfl⟩ := Nat.exists_eq_add_one_of_ne_zero (by omega : fuel ≠ 0)
    have hdigit : ∀ c ∈ (")".toList ++ '\n' :: rest).head?, c.isDigit = false := by simp
    simp only [exprText, skip_line, String.toList_append, List.append_assoc]
    rw [expr]
    apply orElse_some
    rw [bind_eq (token_text (by decide) _), bind_eq (integer_text _ hdigit),
      bind_eq (token_text (by decide) _), ofInt_signed]
    rfl
  | load o e ih =>
    simp only [exprText, length_line, String.length_append] at h
    obtain ⟨fuel, rfl⟩ := Nat.exists_eq_add_one_of_ne_zero (by omega : fuel ≠ 0)
    have he : (exprText (depth + 1) e).length ≤ fuel := by omega
    simp only [exprText, skip_line, String.toList_append, List.append_assoc]
    rw [expr, orElse_other (by decide) (by decide)]
    apply orElse_some
    rw [bind_eq (token_text (by decide) _), bind_eq (offset_text o _ e _), bind_eq (ih he _),
      bind_eq (close_text depth rest)]
    rfl
  | add l r ihl ihr =>
    simp only [exprText, length_line, String.length_append] at h
    obtain ⟨fuel, rfl⟩ := Nat.exists_eq_add_one_of_ne_zero (by omega : fuel ≠ 0)
    have hl : (exprText (depth + 1) l).length ≤ fuel := by omega
    have hr : (exprText (depth + 1) r).length ≤ fuel := by omega
    simp only [exprText, skip_line, String.toList_append, List.append_assoc]
    rw [expr, orElse_other (by decide) (by decide), orElse_other (by decide) (by decide),
      bind_eq (token_text (by decide) _), skip_newline, bind_eq (ihl hl _), bind_eq (ihr hr _),
      bind_eq (close_text depth rest)]
    rfl

-- The reader takes more than is ever written: blanks may be missing, a constant need not be signed.
example : expr 2 "(i32.load(i32.const 4294967295))".toList =
    some (.load 0 (.const 0xFFFFFFFF), []) := by
  decide +kernel

/-- Every instruction is read. -/
theorem instruction_text (i : Instruction) {depth fuel : Nat}
    (h : (instructionText depth i).length ≤ fuel) (rest : List Char) :
    instruction fuel (skip ((instructionText depth i).toList ++ rest)) = some (i, skip rest) := by
  cases i with
  | store o address value =>
    simp only [instructionText, String.length_append] at h
    have ha : (exprText (depth + 1) address).length ≤ fuel := by omega
    have hv : (exprText (depth + 1) value).length ≤ fuel := by omega
    simp only [instructionText, skip_line, String.toList_append, List.append_assoc]
    rw [instruction]
    apply orElse_some
    rw [bind_eq (token_text (by decide) _), bind_eq (offset_text o _ address _),
      bind_eq (expr_text address ha _), bind_eq (expr_text value hv _), bind_eq (close_text depth rest)]
    rfl
  | narrate args =>
    obtain ⟨world, gene, animal, inst, sound⟩ := args
    simp only [instructionText, Cue.toList, List.map_cons, List.map_nil, String.join_cons,
      String.join_nil, String.length_append] at h
    have hargs : ∀ e ∈ [world, gene, animal, inst, sound], (exprText (depth + 1) e).length ≤ fuel := by
      simp
      omega
    simp only [instructionText, Cue.toList, List.map_cons, List.map_nil, String.join_cons,
      String.join_nil, String.append_empty, skip_line, String.toList_append, List.append_assoc]
    rw [instruction, orElse_other (by decide) (by decide)]
    apply orElse_some
    rw [bind_eq (token_text (by decide) _), skip_newline, bind_eq (expr_text world (hargs _ (by simp)) _),
      bind_eq (expr_text gene (hargs _ (by simp)) _), bind_eq (expr_text animal (hargs _ (by simp)) _),
      bind_eq (expr_text inst (hargs _ (by simp)) _), bind_eq (expr_text sound (hargs _ (by simp)) _),
      bind_eq (close_text depth rest)]
    rfl
  | ret value =>
    simp only [instructionText, String.length_append] at h
    have hv : (exprText (depth + 1) value).length ≤ fuel := by omega
    simp only [instructionText, skip_line, String.toList_append, List.append_assoc]
    rw [instruction, orElse_other (by decide) (by decide), orElse_other (by decide) (by decide),
      bind_eq (token_text (by decide) _), skip_newline, bind_eq (expr_text value hv _),
      bind_eq (close_text depth rest)]
    rfl

/-- Every body is read, up to the parenthesis that ends it. -/
theorem body_text (is : List Instruction) {depth fuel : Nat} (outer : Nat)
    (h : (String.join (is.map (instructionText depth))).length < fuel) (rest : List Char) :
    body fuel (skip ((String.join (is.map (instructionText depth))).toList ++
      ((line outer ")").toList ++ rest))) = some (is, skip rest) := by
  induction is generalizing fuel with
  | nil =>
    obtain ⟨fuel, rfl⟩ := Nat.exists_eq_add_one_of_ne_zero (by omega : fuel ≠ 0)
    rw [body]
    apply orElse_some
    rw [List.map_nil, String.join_nil, String.toList_empty, List.nil_append,
      bind_eq (close_text outer rest)]
    rfl
  | cons i is ih =>
    rw [List.map_cons, String.join_cons] at h ⊢
    rw [String.length_append] at h
    obtain ⟨fuel, rfl⟩ := Nat.exists_eq_add_one_of_ne_zero (by omega : fuel ≠ 0)
    have hi : (instructionText depth i).length ≤ fuel := by omega
    have his : (String.join (is.map (instructionText depth))).length < fuel := by
      have := instructionText_length_pos depth i
      omega
    rw [String.toList_append, List.append_assoc, body]
    -- an instruction is not mistaken for the end of the function
    obtain ⟨cs, hcs⟩ := instructionText_opens depth i
      ((String.join (is.map (instructionText depth))).toList ++ ((line outer ")").toList ++ rest))
    rw [hcs, orElse_other (by decide) (by decide), ← hcs, bind_eq (instruction_text i hi _),
      bind_eq (ih his)]
    rfl

end Reader

/-! ## 6. The module -/

namespace Reader

theorem narrator_text (s t : String) (rest : List Char) :
    narrator (skip ((line 1 ("(import " ++ nameText s ++ " " ++ nameText t ++
      " (func $narrate (param i32 i32 i32 i32 i32)))")).toList ++ rest)) = some ((s, t), skip rest) := by
  have hparam : " (func $narrate (param i32 i32 i32 i32 i32)))".toList =
      ' ' :: "(func $narrate (param i32 i32 i32 i32 i32)))".toList := by decide
  simp only [skip_line, String.toList_append, List.append_assoc, hparam, toList_space, List.cons_append,
    List.nil_append]
  rw [narrator, bind_eq (token_text (by decide) _), bind_eq (name_text s _), skip_space,
    bind_eq (name_text t _), skip_space, bind_eq (token_text (by decide) _)]
  rfl

theorem memory_text (p : Pages) (rest : List Char) :
    memory (skip ((line 1 ("(memory $mem " ++ toString p.initial ++ " " ++ toString p.maximum ++
      ")")).toList ++ rest)) = some (p, skip rest) := by
  simp only [skip_line, String.toList_append, List.append_assoc, toList_space, List.cons_append,
    List.nil_append]
  rw [memory, bind_eq (token_text (by decide) _), bind_eq (number_text p.initial (by simp)), skip_space,
    bind_eq (number_text p.maximum (by simp)), bind_eq (token_text (by decide) _)]
  rfl

theorem data_text (b : Bytes) (rest : List Char) :
    data (skip ((line 1 ("(data (i32.const 0) \"" ++ dataText b ++ "\")")).toList ++ rest)) =
      some (b, skip rest) := by
  have hopen : "(data (i32.const 0) \"".toList = "(data (i32.const 0) ".toList ++ ['"'] := by decide
  have hclose : "\")".toList = '"' :: ")".toList := by decide
  simp only [skip_line, String.toList_append, List.append_assoc, hopen, hclose, List.cons_append,
    List.nil_append]
  rw [data, bind_eq (token_text (by decide) _), dataText,
    bind_eq (quoted_text (dataBytes?_text b.toList _)), bind_eq (token_text (by decide) _)]
  rfl

theorem exported_text (s : String) {what : String} (h : isSolid what.toList) (rest : List Char) :
    exported what (skip ((line 1 ("(export " ++ nameText s ++ (" " ++ what))).toList ++ rest)) =
      some (s, skip rest) := by
  simp only [skip_line, String.toList_append, List.append_assoc, toList_space, List.cons_append,
    List.nil_append]
  rw [exported, bind_eq (token_text (by decide) _), bind_eq (name_text s _), skip_space,
    bind_eq (token_text h _)]
  rfl

/-- A whole module is read, if the fuel exceeds the length of its body. -/
theorem contents_text (c : EmitConfig) (p : Program) {fuel : Nat}
    (h : (String.join (p.body.map (instructionText 2))).length < fuel) :
    contents fuel (skip (render c p).toList) = some (Contents.ofProgram c p, []) := by
  have hmemory : " (memory $mem))" = " " ++ "(memory $mem))" := by decide
  have hentry : " (func $entry))" = " " ++ "(func $entry))" := by decide
  rw [render, hmemory, hentry, ← List.append_nil (String.toList _)]
  -- The text is taken apart into its lines only; each form's lemma knows its own line.
  simp only [String.toList_append (t := line _ _), String.toList_append (t := String.join _),
    List.append_assoc]
  rw [skip_line, contents, bind_eq (token_text (by decide) _), skip_newline,
    bind_eq (narrator_text _ _ _), bind_eq (memory_text _ _), bind_eq (data_text _ _),
    bind_eq (exported_text _ (by decide) _), bind_eq (exported_text _ (by decide) _), skip_line,
    bind_eq (token_text (by decide) _), skip_newline, bind_eq (body_text p.body 1 h _),
    bind_eq (close_text 0 [])]
  rfl

end Reader

/-- The text of a module is read as what was written. -/
theorem read?_render (c : EmitConfig) (p : Program) :
    read? (render c p) = some (Contents.ofProgram c p) := by
  have hfuel : (String.join (p.body.map (instructionText 2))).length < (render c p).length := by
    simp only [render, String.length_append, length_line]
    omega
  rw [read?, StateT.run, Reader.contents_text c p hfuel]
  rfl

/-- **The module text determines the module.** One reader finds the four names, the page counts,
the bytes of the image and the body in the text of every program under every configuration. So two
texts are the same exactly if all of these are the same. -/
theorem text_determines_module :
    (∀ c p, read? (render c p) = some (Contents.ofProgram c p)) ∧
    ∀ c c' p p', render c p = render c' p' ↔
      c.narratorModule = c'.narratorModule ∧ c.narratorField = c'.narratorField ∧
      c.memoryExport = c'.memoryExport ∧ c.entryPoint = c'.entryPoint ∧
      p.pages = p'.pages ∧ p.image.bytes = p'.image.bytes ∧ p.body = p'.body := by
  refine ⟨read?_render, fun c c' p p' => ⟨fun h => ?_, fun h => ?_⟩⟩
  · have hread : Contents.ofProgram c p = Contents.ofProgram c' p' := by
      apply Option.some_inj.mp
      rw [← read?_render, ← read?_render, h]
    simpa only [Contents.ofProgram, Contents.mk.injEq] using hread
  · obtain ⟨hmodule, hfield, hmemory, hentry, hpages, hbytes, hbody⟩ := h
    rw [render, render, hmodule, hfield, hmemory, hentry, hpages, hbytes, hbody]

end Menagerie.ModuleText
