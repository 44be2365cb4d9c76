import Menagerie.Proofs.ModuleReading

/-! # Literals in module text

A string literal of module text stands between quotes and is made of elements:

* a character that is no control, and neither quote nor backslash, stands for itself;
* a backslash and one of six characters stands for a tab, a line end, a return, a quote of either kind
  or a backslash;
* a backslash and two hexadecimal digits stand for a byte;
* `\u` and a hexadecimal number in braces stand for the character with that code point.

A literal denotes bytes, characters being taken in UTF-8.

* `LiteralBody`, `Literal` -- the literals and what they denote;
* `literal_nameText_iff` -- **a name is written as a literal exactly if it has no control characters**, and
  the literal then denotes the name and nothing else; controls are written as they are
  (`tab_breaks_name`);
* `literal_dataText` -- the data is written as a literal whatever its bytes are;
* `names_denote_themselves_iff` -- the four names in the text of a module.
-/

namespace Menagerie.ModuleText

/-! ## 1. Literals and what they denote -/

/-- A character that is no control. -/
def isGraphic (ch : Char) : Bool := 0x20 ≤ ch.toNat && ch.toNat != 0x7F

/-- What a backslash and a character stand for. -/
def escape? : Char → Option Char
  | 't' => some '\t'
  | 'n' => some '\n'
  | 'r' => some '\r'
  | '"' => some '"'
  | '\'' => some '\''
  | '\\' => some '\\'
  | _ => none

/-- The value of a hexadecimal digit in lower or upper case. -/
def hexDigit? (ch : Char) : Option Nat :=
  (hexValue? ch).or (if 'A' ≤ ch ∧ ch ≤ 'F' then some (ch.toNat - 'A'.toNat + 10) else none)

/-- The number with given hexadecimal digits. -/
def hexNumber (digits : List Nat) : Nat := digits.foldl (fun n d => 16 * n + d) 0

/-- **The elements of a literal** one after the other, and the bytes they denote. -/
inductive LiteralBody : List Char → List UInt8 → Prop where
  | nil : LiteralBody [] []
  | char {ch : Char} {text : List Char} {bytes : List UInt8} (hg : isGraphic ch = true) (hq : ch ≠ '"')
      (hb : ch ≠ '\\') (h : LiteralBody text bytes) :
      LiteralBody (ch :: text) (String.utf8EncodeChar ch ++ bytes)
  | escape {letter ch : Char} {text : List Char} {bytes : List UInt8} (he : escape? letter = some ch)
      (h : LiteralBody text bytes) :
      LiteralBody ('\\' :: letter :: text) (String.utf8EncodeChar ch ++ bytes)
  | byte {high low : Char} {m n : Nat} {text : List Char} {bytes : List UInt8}
      (hm : hexDigit? high = some m) (hn : hexDigit? low = some n) (h : LiteralBody text bytes) :
      LiteralBody ('\\' :: high :: low :: text) (UInt8.ofNat (m * 16 + n) :: bytes)
  | scalar {digits : List Char} {values : List Nat} {text : List Char} {bytes : List UInt8}
      (hd : digits.map hexDigit? = values.map some) (hne : digits ≠ [])
      (hv : (hexNumber values).isValidChar) (h : LiteralBody text bytes) :
      LiteralBody ('\\' :: 'u' :: '\x7b' :: (digits ++ '\x7d' :: text))
        (String.utf8EncodeChar (Char.ofNat (hexNumber values)) ++ bytes)

/-- **A literal**: elements between quotes, and the bytes it denotes. -/
def Literal (text : List Char) (bytes : List UInt8) : Prop :=
  ∃ body, text = '"' :: (body ++ ['"']) ∧ LiteralBody body bytes

/-! ## 2. Names -/

/-- A character of a name is one element if it is no control, and none otherwise. -/
theorem literalBody_nameChar_iff {ch : Char} {rest : List Char} {bytes : List UInt8} :
    LiteralBody ((nameChar ch).toList ++ rest) bytes ↔ isGraphic ch = true ∧
      ∃ bytes', bytes = String.utf8EncodeChar ch ++ bytes' ∧ LiteralBody rest bytes' := by
  by_cases hc : ch = '"' ∨ ch = '\\'
  · have htext : (nameChar ch).toList ++ rest = '\\' :: ch :: rest := by
      rw [nameChar, if_pos hc, String.toList_append, Char.toString_eq_singleton, String.toList_singleton]
      rfl
    have hescape : escape? ch = some ch := by
      rcases hc with rfl | rfl <;> rfl
    have hdigit : hexDigit? ch = none := by
      rcases hc with rfl | rfl <;> decide
    have hgraphic : isGraphic ch = true := by
      rcases hc with rfl | rfl <;> decide
    rw [htext]
    refine ⟨fun h => ⟨hgraphic, ?_⟩, fun h => ?_⟩
    · cases h with
      | char _ _ hb => exact absurd rfl hb
      | escape he h =>
        rw [hescape] at he
        cases he
        exact ⟨_, rfl, h⟩
      | byte hm =>
        rw [hdigit] at hm
        cases hm
      | scalar => exact absurd hc (by decide)
    · obtain ⟨-, bytes', rfl, h⟩ := h
      exact .escape hescape h
  · have htext : (nameChar ch).toList ++ rest = ch :: rest := by
      rw [nameChar, if_neg hc, Char.toString_eq_singleton, String.toList_singleton]
      rfl
    rw [not_or] at hc
    rw [htext]
    refine ⟨fun h => ?_, fun h => ?_⟩
    · cases h with
      | char hg _ _ h => exact ⟨hg, _, rfl, h⟩
      | escape | byte | scalar => exact absurd rfl hc.2
    · obtain ⟨hg, bytes', rfl, h⟩ := h
      exact .char hg hc.1 hc.2 h

theorem literalBody_name_iff {cs : List Char} {bytes : List UInt8} :
    LiteralBody (String.join (cs.map nameChar)).toList bytes ↔
      (∀ ch ∈ cs, isGraphic ch = true) ∧ bytes = cs.flatMap String.utf8EncodeChar := by
  induction cs generalizing bytes with
  | nil =>
    refine ⟨fun h => ?_, fun h => ?_⟩
    · cases h
      exact ⟨List.forall_mem_nil _, rfl⟩
    · rw [h.2]
      exact .nil
  | cons ch cs ih =>
    rw [List.map_cons, String.join_cons, String.toList_append, literalBody_nameChar_iff,
      List.forall_mem_cons, List.flatMap_cons]
    simp only [ih]
    refine ⟨fun h => ?_, fun h => ?_⟩
    · obtain ⟨hg, bytes', rfl, hcs, rfl⟩ := h
      exact ⟨⟨hg, hcs⟩, rfl⟩
    · obtain ⟨⟨hg, hcs⟩, rfl⟩ := h
      exact ⟨hg, _, rfl, hcs, rfl⟩

/-- **A name is written as a literal exactly if none of its characters is a control.** The literal then
denotes the name, and nothing else. -/
theorem literal_nameText_iff {s : String} {bytes : List UInt8} :
    Literal (nameText s).toList bytes ↔
      (∀ ch ∈ s.toList, isGraphic ch = true) ∧ bytes = s.toList.flatMap String.utf8EncodeChar := by
  rw [← literalBody_name_iff, Literal, toList_nameText]
  refine ⟨fun h => ?_, fun h => ⟨_, rfl, h⟩⟩
  obtain ⟨body, hbody, h⟩ := h
  rw [List.append_cancel_right (List.cons.inj hbody).2]
  exact h

/-- **A control in a name breaks the literal**: it is written as it is, and no element begins with it. -/
theorem tab_breaks_name : nameText "a\tb" = "\"a\tb\"" ∧
    ∀ bytes, ¬ Literal (nameText "a\tb").toList bytes := by
  refine ⟨by decide, fun bytes h => ?_⟩
  have htab := (literal_nameText_iff.mp h).1 '\t' (by decide)
  exact absurd htab (by decide)

/-! ## 3. Data -/

/-- A byte of the data is one element. -/
theorem literalBody_dataByte (b : UInt8) {text : List Char} {bytes : List UInt8}
    (h : LiteralBody text bytes) : LiteralBody ((dataByte b).toList ++ text) (b :: bytes) := by
  have hlt := b.toNat_lt
  rw [dataByte]
  split
  · rename_i hplain
    obtain ⟨hlow, hhigh, hquote, hbackslash⟩ := hplain
    rw [UInt8.le_iff_toNat_le] at hlow hhigh
    change 32 ≤ b.toNat at hlow
    change b.toNat ≤ 126 at hhigh
    have hgraphic : isGraphic (Bytes.charOf b) = true := by
      simp only [isGraphic, Bytes.toNat_charOf, Bool.and_eq_true, decide_eq_true_eq, bne_iff_ne]
      omega
    have hbytes : String.utf8EncodeChar (Bytes.charOf b) = [b] := by
      have hascii : (Bytes.charOf b).toNat ≤ 127 := by
        rw [Bytes.toNat_charOf]
        omega
      rw [String.utf8EncodeChar_eq_singleton
        (Char.utf8Size_eq_one_iff.mpr (UInt32.le_iff_toNat_le.mpr hascii))]
      exact congrArg (fun x => [x]) (Bytes.ofNat_charOf b)
    rw [Char.toString_eq_singleton, String.toList_singleton]
    show LiteralBody (Bytes.charOf b :: text) ([b] ++ bytes)
    rw [← hbytes]
    exact .char hgraphic (charOf_ne hquote) (charOf_ne hbackslash) h
  · have hdigit : ∀ d, d < 16 → hexDigit? (Nat.digitChar d) = some d := by
      intro d hd
      rw [hexDigit?, hexValue?_digitChar hd, Option.some_or]
    have hbyte := LiteralBody.byte (hdigit (b.toNat / 16) (by omega)) (hdigit (b.toNat % 16) (by omega)) h
    rw [Nat.div_add_mod', UInt8.ofNat_toNat] at hbyte
    rw [String.toList_append, toList_hexByte, List.append_assoc]
    exact hbyte

/-- **The data is written as a literal whatever its bytes are**, and the literal denotes them. -/
theorem literal_dataText (b : Bytes) : Literal ('"' :: ((dataText b).toList ++ ['"'])) b.toList := by
  refine ⟨_, rfl, ?_⟩
  rw [dataText]
  induction b.toList with
  | nil => exact .nil
  | cons x xs ih =>
    rw [List.map_cons, String.join_cons, String.toList_append]
    exact literalBody_dataByte x ih

/-! ## 4. Modules -/

/-- **The four names in the text of a module.** They stand between texts that do not depend on them. Each
is written as a literal exactly if none of its characters is a control; the literal then denotes the
name, and nothing else. -/
theorem names_denote_themselves_iff (p : Program) : ∃ t₀ t₁ t₂ t₃ t₄ : String, ∀ c : EmitConfig,
    render c p = t₀ ++ nameText c.narratorModule ++ t₁ ++ nameText c.narratorField ++ t₂ ++
      nameText c.memoryExport ++ t₃ ++ nameText c.entryPoint ++ t₄ ∧
    ∀ s ∈ [c.narratorModule, c.narratorField, c.memoryExport, c.entryPoint], ∀ bytes,
      Literal (nameText s).toList bytes ↔
        (∀ ch ∈ s.toList, isGraphic ch = true) ∧ bytes = s.toList.flatMap String.utf8EncodeChar := by
  refine ⟨line 0 "(module" ++ indent 1 ++ "(import ", " ",
    " (func $narrate (param i32 i32 i32 i32 i32)))" ++ "\n" ++
      line 1 ("(memory $mem " ++ toString p.pages.initial ++ " " ++ toString p.pages.maximum ++ ")") ++
      line 1 ("(data (i32.const 0) \"" ++ dataText p.image.bytes ++ "\")") ++ indent 1 ++ "(export ",
    " (memory $mem))" ++ "\n" ++ indent 1 ++ "(export ",
    " (func $entry))" ++ "\n" ++ line 1 "(func $entry (result i32)" ++
      String.join (p.body.map (instructionText 2)) ++ line 1 ")" ++ line 0 ")", fun c => ⟨?_, ?_⟩⟩
  · simp only [render, line, String.append_assoc]
  · intro s _ bytes
    exact literal_nameText_iff

end Menagerie.ModuleText
