import Menagerie.Bytes

/-! # One-byte text

Text is stored one byte per character, the byte being the code point. Only characters up to
`U+00FF` have such a byte; encoding refuses the first character beyond. Every byte is the code
point of a character, so decoding cannot fail.
-/

namespace Menagerie.Bytes

/-- Whether a character has a byte of its own. -/
def fits (c : Char) : Bool := c.toNat ≤ 0xFF

/-- The bytes of a text appended to a buffer, or the first character that has none. -/
def pushChars (acc : Bytes) : List Char → Except Char Bytes
  | [] => .ok acc
  | c :: cs => if fits c then pushChars (acc.push (UInt8.ofNat c.toNat)) cs else .error c

/-- The bytes of a text, or its first character that has no byte. -/
def ofText (s : String) : Except Char Bytes :=
  pushChars #[] s.toList

/-- The character whose code point a byte is. -/
def charOf (b : UInt8) : Char := Char.ofNat b.toNat

/-- The text whose characters have the buffer's bytes as code points. -/
def toText (b : Bytes) : String :=
  String.ofList (b.toList.map charOf)

/-! ## The two directions -/

theorem pushChars_of_fits {cs : List Char} (h : ∀ c ∈ cs, fits c) (acc : Bytes) :
    pushChars acc cs = .ok (acc ++ (cs.map fun c => UInt8.ofNat c.toNat).toArray) := by
  induction cs generalizing acc with
  | nil => simp [pushChars]
  | cons c cs ih =>
    obtain ⟨hc, hcs⟩ := List.forall_mem_cons.mp h
    rw [pushChars, if_pos hc, ih hcs]
    simp

theorem toNat_charOf (b : UInt8) : (charOf b).toNat = b.toNat := by
  have h := b.toNat_lt
  have hv : b.toNat.isValidChar := Or.inl (by omega)
  have hchar : Char.ofNat b.toNat = Char.ofNatAux b.toNat hv := dif_pos hv
  rw [charOf, hchar]
  rfl

theorem fits_charOf (b : UInt8) : fits (charOf b) := by
  have h := b.toNat_lt
  simp only [fits, toNat_charOf, decide_eq_true_eq]
  omega

/-- A character that fits is the character of its byte. -/
theorem charOf_ofNat {c : Char} (h : fits c) : charOf (UInt8.ofNat c.toNat) = c := by
  have hc : c.toNat ≤ 0xFF := by simpa [fits] using h
  apply Char.ext
  apply UInt32.toNat_inj.mp
  show (charOf (UInt8.ofNat c.toNat)).toNat = c.toNat
  rw [toNat_charOf, UInt8.toNat_ofNat']
  omega

theorem ofNat_charOf (b : UInt8) : UInt8.ofNat (charOf b).toNat = b := by
  rw [toNat_charOf]
  simp

end Menagerie.Bytes
