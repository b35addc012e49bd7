/-!
# Reading and writing UTF-8

A file is a run of bytes and a template is a run of characters, and the names on a disk are runs of bytes
like the files. `pieces` reads the bytes from the front: each step takes either the bytes of one character,
or an ill-formed part, which is the longest run that begins a character and that the next byte does not
continue, or else a single byte that begins none. Overlong forms, surrogates and values past the last code
point are excluded by the range of the byte behind the lead byte, so an ill-formed part is known to be one
as early as possible.

`text?` accepts well-formed bytes only. `lossy` accepts all bytes and writes one replacement character
for each ill-formed part, which keeps the well-formed text around it. `encode` is the way back: it writes
the bytes of a text.
-/

namespace TemplateLint.Utf8

/-- What a lead byte promises: the bits it carries itself, the range of the byte behind it, and how
many bytes follow in all. -/
structure Lead where
  bits : Nat
  low : UInt8
  high : UInt8
  follow : Nat
  deriving DecidableEq, Repr

/-- The bytes that can begin a character. -/
def lead? (b : UInt8) : Option Lead :=
  if b ≤ 0x7F then some ⟨b.toNat, 0x80, 0xBF, 0⟩
  else if 0xC2 ≤ b ∧ b ≤ 0xDF then some ⟨b.toNat - 0xC0, 0x80, 0xBF, 1⟩
  else if b = 0xE0 then some ⟨0, 0xA0, 0xBF, 2⟩
  else if b = 0xED then some ⟨0xD, 0x80, 0x9F, 2⟩
  else if 0xE1 ≤ b ∧ b ≤ 0xEF then some ⟨b.toNat - 0xE0, 0x80, 0xBF, 2⟩
  else if b = 0xF0 then some ⟨0, 0x90, 0xBF, 3⟩
  else if b = 0xF4 then some ⟨4, 0x80, 0x8F, 3⟩
  else if 0xF1 ≤ b ∧ b ≤ 0xF3 then some ⟨b.toNat - 0xF0, 0x80, 0xBF, 3⟩
  else none

/-- Reads the given number of bytes behind a lead byte, the first of them in the given range. The
answer is the character, or nothing for an ill-formed part, and the bytes that were not taken. -/
def readTail (low high : UInt8) (bits : Nat) : Nat → List UInt8 → Option Char × List UInt8
  | 0, bytes => (some (Char.ofNat bits), bytes)
  | _ + 1, [] => (none, [])
  | n + 1, b :: bytes =>
    if low ≤ b ∧ b ≤ high then readTail 0x80 0xBF (bits * 64 + (b.toNat - 0x80)) n bytes
    else (none, b :: bytes)

theorem readTail_length_le (low high : UInt8) (bits n : Nat) (bytes : List UInt8) :
    (readTail low high bits n bytes).2.length ≤ bytes.length := by
  induction n generalizing low high bits bytes with
  | zero => simp [readTail]
  | succ n ih =>
    cases bytes with
    | nil => simp [readTail]
    | cons b bytes =>
      simp only [readTail]
      split
      · exact Nat.le_succ_of_le (ih ..)
      · simp

/-- Reads one character, or one ill-formed part, whose first byte is given. -/
def readPiece (b : UInt8) (bytes : List UInt8) : Option Char × List UInt8 :=
  match lead? b with
  | some lead => readTail lead.low lead.high lead.bits lead.follow bytes
  | none => (none, bytes)

theorem readPiece_length_le (b : UInt8) (bytes : List UInt8) :
    (readPiece b bytes).2.length ≤ bytes.length := by
  unfold readPiece
  split
  · exact readTail_length_le ..
  · exact Nat.le_refl _

/-- The characters of a run of bytes in order, with nothing in place of each ill-formed part. -/
def pieces : List UInt8 → List (Option Char)
  | [] => []
  | b :: bytes => (readPiece b bytes).1 :: pieces (readPiece b bytes).2
termination_by bytes => bytes.length
decreasing_by
  have := readPiece_length_le b bytes
  simp only [List.length_cons]
  omega

/-- Stands for what cannot be read. -/
def replacement : Char := '\ufffd'

/-- The bytes of a text. -/
def encode (text : String) : List UInt8 :=
  text.toList.flatMap String.utf8EncodeChar

/-- The text of a run of bytes, with one replacement character for each ill-formed part. -/
def lossy (bytes : List UInt8) : String :=
  String.ofList ((pieces bytes).map fun piece => piece.getD replacement)

/-- The text of a run of bytes, if it is well formed throughout. -/
def text? (bytes : List UInt8) : Option String :=
  ((pieces bytes).mapM id).map String.ofList

/-- The text of a file, whatever its bytes are. -/
def decodeLossy (bytes : ByteArray) : String :=
  lossy bytes.data.toList

/-- The text of a file whose bytes are well formed. -/
def decode? (bytes : ByteArray) : Option String :=
  text? bytes.data.toList

end TemplateLint.Utf8
