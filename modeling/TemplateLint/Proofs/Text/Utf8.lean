import Mathlib.Data.List.Basic
import Mathlib.Tactic.IntervalCases
import TemplateLint.Text.Utf8

/-!
# What bytes say

A run of bytes is made of the bytes of characters and of ill-formed parts. Where no character stands, the
ill-formed part is as many bytes as some character begins with, or one byte if there are none such
(`Utf8.IllFormed`). This says what decoding is to give without saying how bytes are read, with the bytes
of a character as the only thing that is given (`Utf8.Says`), and it says it of one text only.

Reading goes by lead bytes. A lead byte with later bytes in its ranges is a character, and every
character is of this kind, so a reader that stops at the first byte out of range has taken the longest
run that a character can begin with. The range of the byte behind the lead is what keeps overlong forms,
surrogates and numbers that are too large out (`Utf8.encode_of_lead`, `Utf8.encode_cases`).
-/

namespace TemplateLint.Utf8

/-- So many bytes, the first of them in the given range and the others in that of all later bytes. -/
inductive IsTail : UInt8 → UInt8 → Nat → List UInt8 → Prop where
  | nil {low high : UInt8} : IsTail low high 0 []
  | cons {low high b : UInt8} {n : Nat} {tail : List UInt8} (range : low ≤ b ∧ b ≤ high)
      (later : IsTail 0x80 0xBF n tail) : IsTail low high (n + 1) (b :: tail)

/-- The number that bytes behind a lead byte make with its bits. -/
def value (bits : Nat) (tail : List UInt8) : Nat :=
  tail.foldl (fun number b => number * 64 + (b.toNat - 0x80)) bits

theorem value_cons (bits : Nat) (b : UInt8) (tail : List UInt8) :
    value bits (b :: tail) = value (bits * 64 + (b.toNat - 0x80)) tail :=
  List.foldl_cons ..

/-! ### Lead bytes -/

theorem lead?_one {n : Nat} (h : n < 128) : lead? (UInt8.ofNat n) = some ⟨n, 0x80, 0xBF, 0⟩ := by
  interval_cases n <;> rfl

theorem lead?_two {n : Nat} (h : 2 ≤ n ∧ n < 32) :
    lead? (UInt8.ofNat (0xC0 + n)) = some ⟨n, 0x80, 0xBF, 1⟩ := by
  obtain ⟨hlow, hhigh⟩ := h
  interval_cases n <;> rfl

theorem lead?_three {n : Nat} (h : n < 16) : lead? (UInt8.ofNat (0xE0 + n)) =
    some ⟨n, if n = 0 then 0xA0 else 0x80, if n = 13 then 0x9F else 0xBF, 2⟩ := by
  interval_cases n <;> rfl

theorem lead?_four {n : Nat} (h : n < 5) : lead? (UInt8.ofNat (0xF0 + n)) =
    some ⟨n, if n = 0 then 0x90 else 0x80, if n = 4 then 0x8F else 0xBF, 3⟩ := by
  interval_cases n <;> rfl

theorem lead?_cases {b : UInt8} {lead : Lead} (h : lead? b = some lead) :
    (∃ n < 128, b = UInt8.ofNat n) ∨ (∃ n, (2 ≤ n ∧ n < 32) ∧ b = UInt8.ofNat (0xC0 + n)) ∨
      (∃ n < 16, b = UInt8.ofNat (0xE0 + n)) ∨ ∃ n < 5, b = UInt8.ofNat (0xF0 + n) := by
  have hb {n : Nat} (hn : n = b.toNat) : b = UInt8.ofNat n := by rw [hn, UInt8.ofNat_toNat]
  unfold lead? at h
  simp only [UInt8.le_iff_toNat_le, ← UInt8.toNat_inj, UInt8.reduceToNat] at h
  by_cases hone : b.toNat < 128
  · exact .inl ⟨b.toNat, hone, hb rfl⟩
  by_cases htwo : 0xC2 ≤ b.toNat ∧ b.toNat < 0xE0
  · exact .inr (.inl ⟨b.toNat - 0xC0, by omega, hb (by omega)⟩)
  by_cases hthree : 0xE0 ≤ b.toNat ∧ b.toNat < 0xF0
  · exact .inr (.inr (.inl ⟨b.toNat - 0xE0, by omega, hb (by omega)⟩))
  by_cases hfour : 0xF0 ≤ b.toNat ∧ b.toNat < 0xF5
  · exact .inr (.inr (.inr ⟨b.toNat - 0xF0, by omega, hb (by omega)⟩))
  · simp (disch := omega) only [if_neg, reduceCtorEq] at h

/-! ### The bytes of a character -/

theorem toNat_ofNat {n : Nat} (h : n.isValidChar) : (Char.ofNat n).val.toNat = n := by
  rw [Char.ofNat, dif_pos h]
  rfl

/-- A lead byte with all its later bytes is a character. -/
theorem encode_of_lead {b : UInt8} {lead : Lead} {tail : List UInt8} (h : lead? b = some lead)
    (htail : IsTail lead.low lead.high lead.follow tail) :
    String.utf8EncodeChar (Char.ofNat (value lead.bits tail)) = b :: tail := by
  generalize hnumber : value lead.bits tail = number
  rcases lead?_cases h with ⟨n, hn, rfl⟩ | ⟨n, hn, rfl⟩ | ⟨n, hn, rfl⟩ | ⟨n, hn, rfl⟩
  · rw [lead?_one hn] at h
    cases h
    cases htail
    have hnumber : n = number := hnumber
    subst hnumber
    have hvalid : n.isValidChar := .inl (by omega)
    rw [String.utf8EncodeChar, toNat_ofNat hvalid, if_pos (by omega)]
  · rw [lead?_two hn] at h
    cases h
    obtain _ | @⟨_, _, x, _, _, hx, _ | _⟩ := htail
    simp only [UInt8.le_iff_toNat_le, UInt8.reduceToNat] at hx
    have hnumber : n * 64 + (x.toNat - 0x80) = number := hnumber
    have hvalid : number.isValidChar := .inl (by omega)
    rw [String.utf8EncodeChar, toNat_ofNat hvalid, if_neg (by omega), if_pos (by omega)]
    simp only [List.cons.injEq, ← UInt8.toNat_inj, UInt8.toNat_ofNat', and_true]
    omega
  · rw [lead?_three hn] at h
    cases h
    obtain _ | @⟨_, _, x, _, _, hx, _ | @⟨_, _, y, _, _, hy, _ | _⟩⟩ := htail
    simp only [UInt8.le_iff_toNat_le, UInt8.reduceToNat, apply_ite UInt8.toNat] at hx hy
    have hnumber : (n * 64 + (x.toNat - 0x80)) * 64 + (y.toNat - 0x80) = number := hnumber
    have hrange : 0x80 ≤ x.toNat ∧ x.toNat < 0xC0 ∧ 0x800 ≤ number ∧ number.isValidChar := by
      unfold Nat.isValidChar
      split_ifs at hx <;> omega
    rw [String.utf8EncodeChar, toNat_ofNat hrange.2.2.2, if_neg (by omega), if_neg (by omega),
      if_pos (by omega)]
    simp only [List.cons.injEq, ← UInt8.toNat_inj, UInt8.toNat_ofNat', and_true]
    omega
  · rw [lead?_four hn] at h
    cases h
    obtain _ | @⟨_, _, x, _, _, hx, _ | @⟨_, _, y, _, _, hy, _ | @⟨_, _, z, _, _, hz, _ | _⟩⟩⟩ := htail
    simp only [UInt8.le_iff_toNat_le, UInt8.reduceToNat, apply_ite UInt8.toNat] at hx hy hz
    have hnumber : ((n * 64 + (x.toNat - 0x80)) * 64 + (y.toNat - 0x80)) * 64 + (z.toNat - 0x80) = number :=
      hnumber
    have hrange : 0x80 ≤ x.toNat ∧ x.toNat < 0xC0 ∧ 0x10000 ≤ number ∧ number.isValidChar := by
      unfold Nat.isValidChar
      split_ifs at hx <;> omega
    rw [String.utf8EncodeChar, toNat_ofNat hrange.2.2.2, if_neg (by omega), if_neg (by omega),
      if_neg (by omega)]
    simp only [List.cons.injEq, ← UInt8.toNat_inj, UInt8.toNat_ofNat', and_true]
    omega

/-- The byte behind a lead byte that has six bits of a number. -/
def later (number : Nat) : UInt8 :=
  UInt8.ofNat (0x80 + number % 64)

theorem toNat_later (number : Nat) : (later number).toNat = 0x80 + number % 64 := by
  rw [later, UInt8.toNat_ofNat']
  omega

theorem later_mem (number : Nat) : 0x80 ≤ later number ∧ later number ≤ 0xBF := by
  simp only [UInt8.le_iff_toNat_le, toNat_later, UInt8.reduceToNat]
  omega

/-- Every character has a lead byte and later bytes that make its number. -/
theorem exists_lead (c : Char) : ∃ b lead tail, lead? b = some lead ∧
    IsTail lead.low lead.high lead.follow tail ∧ value lead.bits tail = c.toNat := by
  have hvalid : c.toNat.isValidChar := c.valid
  generalize c.toNat = number at hvalid
  unfold Nat.isValidChar at hvalid
  by_cases hone : number < 0x80
  · exact ⟨_, _, [], lead?_one hone, .nil, rfl⟩
  by_cases htwo : number < 0x800
  · refine ⟨_, _, [later number], lead?_two (n := number / 64) (by omega), .cons (later_mem _) .nil, ?_⟩
    simp only [value, List.foldl, toNat_later]
    omega
  by_cases hthree : number < 0x10000
  · refine ⟨_, _, [later (number / 64), later number], lead?_three (n := number / 4096) (by omega),
      .cons ?_ (.cons (later_mem _) .nil), ?_⟩
    · simp only [UInt8.le_iff_toNat_le, apply_ite UInt8.toNat, toNat_later, UInt8.reduceToNat]
      split_ifs <;> omega
    · simp only [value, List.foldl, toNat_later]
      omega
  · refine ⟨_, _, [later (number / 4096), later (number / 64), later number],
      lead?_four (n := number / 262144) (by omega),
      .cons ?_ (.cons (later_mem _) (.cons (later_mem _) .nil)), ?_⟩
    · simp only [UInt8.le_iff_toNat_le, apply_ite UInt8.toNat, toNat_later, UInt8.reduceToNat]
      split_ifs <;> omega
    · simp only [value, List.foldl, toNat_later]
      omega

/-- The bytes of a character are a lead byte with all its later bytes. -/
theorem encode_cases (c : Char) : ∃ b lead tail, String.utf8EncodeChar c = b :: tail ∧
    lead? b = some lead ∧ IsTail lead.low lead.high lead.follow tail ∧ Char.ofNat (value lead.bits tail) = c := by
  obtain ⟨b, lead, tail, hlead, htail, hvalue⟩ := exists_lead c
  have hchar : Char.ofNat (value lead.bits tail) = c := by rw [hvalue, Char.ofNat_toNat]
  exact ⟨b, lead, tail, by rw [← encode_of_lead hlead htail, hchar], hlead, htail, hchar⟩

/-! ### Ill-formed parts -/

/-- Bytes that a character begins with. -/
def Begins (part : List UInt8) : Prop :=
  ∃ c, part <+: String.utf8EncodeChar c

/-- An ill-formed part in front of more bytes, as long as it can be: no character stands there, and the
part is as many bytes as some character begins with, or a single one. -/
structure IllFormed (part rest : List UInt8) : Prop where
  ne_nil : part ≠ []
  no_character : ∀ c, ¬ String.utf8EncodeChar c <+: part ++ rest
  begins : Begins part ∨ part.length = 1
  longest : ∀ more, more ≠ [] → more <+: rest → ¬ Begins (part ++ more)

/-- What bytes say: the characters that are there, and one replacement character in the place of each
ill-formed part. -/
inductive Says : List UInt8 → List Char → Prop where
  | nil : Says [] []
  | character (c : Char) {rest : List UInt8} {text : List Char} (behind : Says rest text) :
      Says (String.utf8EncodeChar c ++ rest) (c :: text)
  | illFormed {part rest : List UInt8} {text : List Char} (ill : IllFormed part rest)
      (behind : Says rest text) : Says (part ++ rest) (replacement :: text)

/-- There is only one ill-formed part at the front of bytes. -/
theorem IllFormed.unique {part rest part' rest' : List UInt8} (h : IllFormed part rest)
    (h' : IllFormed part' rest') (heq : part ++ rest = part' ++ rest') : part = part' ∧ rest = rest' := by
  -- A longer one would be more bytes than any character begins with.
  have hshorter {a r b s : List UInt8} (ha : IllFormed a r) (hb : IllFormed b s) {more : List UInt8}
      (hsplit : b = a ++ more) (hrest : r = more ++ s) : more = [] := by
    by_contra hne
    rcases hb.begins with hbegins | hlength
    · exact ha.longest more hne ⟨s, hrest.symm⟩ (hsplit ▸ hbegins)
    · have hpos := List.length_pos_iff.2 ha.ne_nil
      have hmore := List.length_pos_iff.2 hne
      rw [hsplit, List.length_append] at hlength
      omega
  rcases List.append_eq_append_iff.1 heq with ⟨more, hpart, hrest⟩ | ⟨more, hpart, hrest⟩
  · have hmore := hshorter h h' hpart hrest
    subst hmore
    exact ⟨by simpa using hpart.symm, by simpa using hrest⟩
  · have hmore := hshorter h' h hpart hrest
    subst hmore
    exact ⟨by simpa using hpart, by simpa using hrest.symm⟩

/-! ### Reading -/

theorem readTail_append {low high : UInt8} {n : Nat} {tail : List UInt8} (h : IsTail low high n tail)
    (bits : Nat) (rest : List UInt8) :
    readTail low high bits n (tail ++ rest) = (some (Char.ofNat (value bits tail)), rest) := by
  induction h generalizing bits with
  | nil => rfl
  | cons range _ ih => rw [List.cons_append, readTail, if_pos range, ih, value_cons]

theorem exists_tail {low high : UInt8} (h : low ≤ high) (n : Nat) : ∃ tail, IsTail low high n tail := by
  induction n generalizing low high with
  | zero => exact ⟨[], .nil⟩
  | succ n ih =>
    obtain ⟨tail, htail⟩ := ih (show (0x80 : UInt8) ≤ 0xBF by decide)
    exact ⟨low :: tail, .cons ⟨UInt8.le_refl low, h⟩ htail⟩

/-- Bytes begin with all that a lead byte needs, or reading ends where they do not go on like that. -/
theorem readTail_cases {low high : UInt8} (h : low ≤ high) (bits n : Nat) (bytes : List UInt8) :
    (∃ tail rest, IsTail low high n tail ∧ bytes = tail ++ rest) ∨
      ∃ part rest, bytes = part ++ rest ∧ readTail low high bits n bytes = (none, rest) ∧
        (∃ more, IsTail low high n (part ++ more)) ∧
        ∀ b more, rest = b :: more → ∀ tail, IsTail low high n tail → ¬ part ++ [b] <+: tail := by
  induction n generalizing low high bits bytes with
  | zero => exact .inl ⟨[], bytes, .nil, rfl⟩
  | succ n ih =>
    cases bytes with
    | nil => exact .inr ⟨[], [], rfl, rfl, exists_tail h _, by simp⟩
    | cons b bytes =>
      by_cases hrange : low ≤ b ∧ b ≤ high
      · rcases ih (show (0x80 : UInt8) ≤ 0xBF by decide) (bits * 64 + (b.toNat - 0x80)) bytes with
          ⟨tail, rest, htail, rfl⟩ | ⟨part, rest, rfl, hread, ⟨more, hmore⟩, hends⟩
        · exact .inl ⟨b :: tail, rest, .cons hrange htail, rfl⟩
        · refine .inr ⟨b :: part, rest, rfl, ?_, ⟨more, .cons hrange hmore⟩, ?_⟩
          · rw [readTail, if_pos hrange, hread]
          · rintro x others hrest _ (_ | ⟨_, htail⟩) hfront
            rw [List.cons_append, List.cons_prefix_cons] at hfront
            exact hends x others hrest _ htail hfront.2
      · refine .inr ⟨[], b :: bytes, rfl, ?_, exists_tail h _, ?_⟩
        · rw [readTail, if_neg hrange]
        · rintro x others hrest _ (_ | ⟨hx, _⟩) hfront
          rw [List.nil_append, List.cons_prefix_cons] at hfront
          cases hrest
          exact hrange (hfront.1 ▸ hx)

theorem low_le_high {b : UInt8} {lead : Lead} (h : lead? b = some lead) : lead.low ≤ lead.high := by
  rcases lead?_cases h with ⟨n, hn, rfl⟩ | ⟨n, hn, rfl⟩ | ⟨n, hn, rfl⟩ | ⟨n, hn, rfl⟩
  · rw [lead?_one hn] at h
    cases h
    exact (by decide : (0x80 : UInt8) ≤ 0xBF)
  · rw [lead?_two hn] at h
    cases h
    exact (by decide : (0x80 : UInt8) ≤ 0xBF)
  · rw [lead?_three hn] at h
    cases h
    interval_cases n <;> decide
  · rw [lead?_four hn] at h
    cases h
    interval_cases n <;> decide

theorem readPiece_encode {b : UInt8} {bytes rest : List UInt8} {c : Char}
    (h : b :: bytes = String.utf8EncodeChar c ++ rest) : readPiece b bytes = (some c, rest) := by
  obtain ⟨first, lead, tail, hbytes, hlead, htail, hchar⟩ := encode_cases c
  rw [hbytes, List.cons_append, List.cons.injEq] at h
  obtain ⟨rfl, rfl⟩ := h
  rw [readPiece, hlead]
  show readTail lead.low lead.high lead.bits lead.follow (tail ++ rest) = _
  rw [readTail_append htail, hchar]

/-- One character is read, or an ill-formed part. -/
theorem readPiece_cases (b : UInt8) (bytes : List UInt8) :
    (∃ c rest, b :: bytes = String.utf8EncodeChar c ++ rest ∧ readPiece b bytes = (some c, rest)) ∨
      ∃ part rest, b :: bytes = part ++ rest ∧ IllFormed part rest ∧ readPiece b bytes = (none, rest) := by
  by_cases hcharacter : ∃ c, String.utf8EncodeChar c <+: b :: bytes
  · obtain ⟨c, rest, hbytes⟩ := hcharacter
    exact .inl ⟨c, rest, hbytes.symm, readPiece_encode hbytes.symm⟩
  rw [not_exists] at hcharacter
  -- A character that begins with the byte has the lead of the byte.
  have hlead_of_begins {more : List UInt8} (h : Begins (b :: more)) :
      ∃ lead tail, lead? b = some lead ∧ IsTail lead.low lead.high lead.follow tail ∧ more <+: tail := by
    obtain ⟨c, hfront⟩ := h
    obtain ⟨first, lead, tail, hbytes, hlead, htail, -⟩ := encode_cases c
    rw [hbytes, List.cons_prefix_cons] at hfront
    obtain ⟨rfl, hfront⟩ := hfront
    exact ⟨lead, tail, hlead, htail, hfront⟩
  cases hlead : lead? b with
  | none =>
    refine .inr ⟨[b], bytes, rfl, ⟨List.cons_ne_nil _ _, hcharacter, .inr rfl, ?_⟩, ?_⟩
    · intro more _ _ hbegins
      obtain ⟨lead, _, hsome, -⟩ := hlead_of_begins hbegins
      rw [hlead] at hsome
      cases hsome
    · rw [readPiece, hlead]
  | some lead =>
    rcases readTail_cases (low_le_high hlead) lead.bits lead.follow bytes with
      ⟨tail, rest, htail, rfl⟩ | ⟨part, rest, rfl, hread, ⟨more, hmore⟩, hends⟩
    · refine absurd ?_ (hcharacter (Char.ofNat (value lead.bits tail)))
      rw [encode_of_lead hlead htail]
      exact List.prefix_append (b :: tail) rest
    · refine .inr ⟨b :: part, rest, rfl, ⟨List.cons_ne_nil _ _, hcharacter, .inl ?_, ?_⟩, ?_⟩
      · exact ⟨_, more, (encode_of_lead hlead hmore).symm⟩
      · rintro others hne hrest hbegins
        obtain ⟨x, others, rfl⟩ := List.exists_cons_of_ne_nil hne
        obtain ⟨others', rfl⟩ := hrest
        obtain ⟨lead', tail, hlead', htail, hfront⟩ := hlead_of_begins hbegins
        cases hlead.symm.trans hlead'
        refine hends x _ rfl tail htail (List.IsPrefix.trans ?_ hfront)
        exact List.prefix_append_right_inj part |>.2 ⟨others, rfl⟩
      · rw [readPiece, hlead]
        exact hread

/-! ### Decoding -/

theorem says_pieces (bytes : List UInt8) :
    Says bytes ((pieces bytes).map fun piece => piece.getD replacement) := by
  fun_induction pieces bytes with
  | case1 => exact .nil
  | case2 b bytes ih =>
    rcases readPiece_cases b bytes with ⟨c, rest, hbytes, hread⟩ | ⟨part, rest, hbytes, hill, hread⟩
    · rw [hread] at ih ⊢
      rw [hbytes]
      exact .character c ih
    · rw [hread] at ih ⊢
      rw [hbytes]
      exact .illFormed hill ih

theorem pieces_append_of_readPiece {b : UInt8} {bytes : List UInt8} {piece : Option Char} {rest : List UInt8}
    (h : readPiece b bytes = (piece, rest)) : pieces (b :: bytes) = piece :: pieces rest := by
  rw [pieces, h]

theorem Says.eq_pieces {bytes : List UInt8} {text : List Char} (h : Says bytes text) :
    text = (pieces bytes).map fun piece => piece.getD replacement := by
  induction h with
  | nil => rw [pieces]; rfl
  | @character c rest text _ ih =>
    obtain ⟨b, more, hbytes⟩ := List.exists_cons_of_ne_nil (List.append_ne_nil_of_left_ne_nil
      (@String.utf8EncodeChar_ne_nil c) rest)
    rw [hbytes, pieces_append_of_readPiece (readPiece_encode hbytes.symm), ih]
    rfl
  | @illFormed part rest text hill _ ih =>
    obtain ⟨b, more, hbytes⟩ := List.exists_cons_of_ne_nil (List.append_ne_nil_of_left_ne_nil hill.ne_nil rest)
    rcases readPiece_cases b more with ⟨c, _, hcharacter, -⟩ | ⟨part', rest', hbytes', hill', hread⟩
    · exact absurd ⟨_, hcharacter.symm.trans hbytes.symm⟩ (hill.no_character c)
    · obtain ⟨rfl, rfl⟩ := hill.unique hill' (hbytes.trans hbytes')
      rw [hbytes, pieces_append_of_readPiece hread, ih]
      rfl

/-- Decoding gives what the bytes say, and they say nothing else. -/
theorem says_iff {bytes : ByteArray} {text : List Char} :
    Says bytes.data.toList text ↔ text = (decodeLossy bytes).toList := by
  rw [decodeLossy, lossy, String.toList_ofList]
  exact ⟨Says.eq_pieces, fun h => h ▸ says_pieces _⟩

/-! ### Texts as bytes -/

theorem toUTF8_data (text : String) : text.toUTF8.data.toList = encode text := by
  have hbytes : text.toUTF8 = text.toList.utf8Encode := by
    rw [String.toUTF8_eq_toByteArray, ← String.toByteArray_ofList, String.ofList_toList]
  rw [hbytes, List.utf8Encode, List.data_toByteArray]
  rfl

theorem encode_append (a b : String) : encode (a ++ b) = encode a ++ encode b := by
  rw [encode, String.toList_append, List.flatMap_append, encode, encode]

theorem pieces_encode_append (c : Char) (rest : List UInt8) :
    pieces (String.utf8EncodeChar c ++ rest) = some c :: pieces rest := by
  obtain ⟨b, more, hbytes⟩ := List.exists_cons_of_ne_nil (List.append_ne_nil_of_left_ne_nil
    (@String.utf8EncodeChar_ne_nil c) rest)
  rw [hbytes, pieces_append_of_readPiece (readPiece_encode hbytes.symm)]

theorem pieces_encode (text : String) : pieces (encode text) = text.toList.map some := by
  unfold encode
  induction text.toList with
  | nil => rw [List.flatMap_nil, pieces, List.map_nil]
  | cons c cs ih => rw [List.flatMap_cons, pieces_encode_append, ih, List.map_cons]

/-- A text can be had back from its bytes. -/
@[simp]
theorem lossy_encode (text : String) : lossy (encode text) = text := by
  rw [lossy, pieces_encode, List.map_map]
  simp [Function.comp_def]

theorem encode_injective : Function.Injective encode :=
  Function.LeftInverse.injective lossy_encode

theorem mapM_id_eq_some {α : Type} {items : List (Option α)} {found : List α}
    (h : items.mapM id = some found) : items = found.map some := by
  induction items generalizing found with
  | nil =>
    cases h
    rfl
  | cons item items ih =>
    rw [List.mapM_cons] at h
    cases item with
    | none => cases h
    | some x =>
      cases hmore : items.mapM id with
      | none => simp [hmore] at h
      | some more =>
        simp only [id, hmore, Option.bind_eq_bind, Option.bind_some, Option.pure_def,
          Option.some.injEq] at h
        rw [← h, ih hmore, List.map_cons]

/-- Where every piece is a character, the bytes are those of the characters. -/
theorem eq_of_pieces {bytes : List UInt8} {text : List Char} (h : pieces bytes = text.map some) :
    bytes = text.flatMap String.utf8EncodeChar := by
  fun_induction pieces bytes generalizing text with
  | case1 =>
    rw [List.map_eq_nil_iff.1 h.symm, List.flatMap_nil]
  | case2 b bytes ih =>
    cases text with
    | nil => cases h
    | cons c text =>
      obtain ⟨hpiece, hrest⟩ := List.cons.inj h
      rcases readPiece_cases b bytes with ⟨d, rest, hbytes, hread⟩ | ⟨part, rest, -, -, hread⟩
      · rw [hread] at hpiece hrest ih
        cases hpiece
        have hrest : rest = text.flatMap String.utf8EncodeChar := ih hrest
        rw [hbytes, hrest, List.flatMap_cons]
      · rw [hread] at hpiece
        cases hpiece

/-- Bytes are those of a text just where no ill-formed part is. -/
theorem text?_eq_some {bytes : List UInt8} {text : String} :
    text? bytes = some text ↔ bytes = encode text := by
  constructor
  · intro h
    obtain ⟨chars, hchars, rfl⟩ := Option.map_eq_some_iff.1 h
    rw [encode, String.toList_ofList]
    exact eq_of_pieces (mapM_id_eq_some hchars)
  · rintro rfl
    rw [text?, pieces_encode]
    have hall : (text.toList.map some).mapM id = some text.toList := by
      induction text.toList with
      | nil => rfl
      | cons c cs ih => simp [List.mapM_cons, ih]
    rw [hall, Option.map_some, String.ofList_toList]

/-- Whether bytes are those of a text. -/
def IsText (bytes : List UInt8) : Prop :=
  ∃ text, bytes = encode text

theorem isText_encode (text : String) : IsText (encode text) :=
  ⟨text, rfl⟩

theorem IsText.encode_lossy {bytes : List UInt8} (h : IsText bytes) :
    encode (lossy bytes) = bytes := by
  obtain ⟨text, rfl⟩ := h
  rw [lossy_encode]

theorem IsText.append {front behind : List UInt8} (hfront : IsText front) (hbehind : IsText behind) :
    IsText (front ++ behind) := by
  obtain ⟨before, rfl⟩ := hfront
  obtain ⟨after, rfl⟩ := hbehind
  rw [← encode_append]
  exact isText_encode (before ++ after)

theorem decode?_toUTF8 (text : String) : decode? text.toUTF8 = some text := by
  rw [decode?, toUTF8_data, text?_eq_some]

instance (bytes : List UInt8) : Decidable (IsText bytes) :=
  decidable_of_iff (encode (lossy bytes) = bytes) ⟨fun h => ⟨_, h.symm⟩, IsText.encode_lossy⟩

/-- No ill-formed part is in the bytes of a text, and other bytes have one. -/
theorem isText_iff {bytes : List UInt8} : IsText bytes ↔ none ∉ pieces bytes := by
  constructor
  · intro h
    obtain ⟨text, rfl⟩ := h
    rw [pieces_encode]
    simp
  · intro h
    have hall : ∃ text : List Char, pieces bytes = text.map some := by
      refine ⟨(pieces bytes).map fun piece => piece.getD replacement, ?_⟩
      rw [List.map_map]
      refine (List.map_id _).symm.trans (List.map_congr_left fun piece hpiece => ?_)
      cases piece with
      | none => exact absurd hpiece h
      | some c => rfl
    obtain ⟨text, htext⟩ := hall
    exact ⟨String.ofList text, by rw [encode, String.toList_ofList, eq_of_pieces htext]⟩

theorem toList_lossy (bytes : List UInt8) :
    (lossy bytes).toList = (pieces bytes).map fun piece => piece.getD replacement :=
  String.toList_ofList

/-- The bytes of a character that is read are there. -/
theorem subset_of_mem_pieces {bytes : List UInt8} {c : Char} (h : some c ∈ pieces bytes) :
    String.utf8EncodeChar c ⊆ bytes := by
  fun_induction pieces bytes with
  | case1 => cases h
  | case2 b bytes ih =>
    rcases readPiece_cases b bytes with ⟨d, rest, hbytes, hread⟩ | ⟨part, rest, hbytes, -, hread⟩
    · rw [hread] at h ih
      rw [hbytes]
      rcases List.mem_cons.1 h with hchar | hrest
      · cases hchar
        exact List.subset_append_left _ _
      · exact List.subset_append_of_subset_right _ (ih hrest)
    · rw [hread] at h ih
      rw [hbytes]
      rcases List.mem_cons.1 h with hchar | hrest
      · cases hchar
      · exact List.subset_append_of_subset_right _ (ih hrest)

/-- Bytes that are read as a text without a replacement character are its bytes. -/
theorem eq_encode_of_lossy {bytes : List UInt8} (h : replacement ∉ (lossy bytes).toList) :
    bytes = encode (lossy bytes) := by
  have htext : IsText bytes := by
    rw [isText_iff]
    intro hill
    apply h
    rw [toList_lossy]
    exact List.mem_map.2 ⟨none, hill, rfl⟩
  exact htext.encode_lossy.symm

@[simp]
theorem lossy_nil : lossy [] = "" :=
  lossy_encode ""

/-! ### Where an ASCII character stands

An ASCII character is one byte, and no other character has this byte in it. So reading begins anew behind
such a byte, whatever stands before it. -/

section Ascii

variable {d : Char} (hd : d.toNat < 128)
include hd

theorem encodeChar_ascii : String.utf8EncodeChar d = [UInt8.ofNat d.toNat] := by
  have hone : d.val.toNat ≤ 0x7F := by
    show d.toNat ≤ 0x7F
    omega
  rw [String.utf8EncodeChar, if_pos hone]
  rfl

theorem readTail_append_ascii {low : UInt8} (hlow : 0x80 ≤ low) (high : UInt8) (bits n : Nat)
    (a b : List UInt8) : readTail low high bits n (a ++ UInt8.ofNat d.toNat :: b) =
      ((readTail low high bits n a).1,
        (readTail low high bits n a).2 ++ UInt8.ofNat d.toNat :: b) := by
  induction n generalizing low high bits a with
  | zero => rfl
  | succ n ih =>
    cases a with
    | nil =>
      have hrange : ¬ (low ≤ UInt8.ofNat d.toNat ∧ UInt8.ofNat d.toNat ≤ high) := by
        simp only [UInt8.le_iff_toNat_le, UInt8.toNat_ofNat', UInt8.reduceToNat] at hlow ⊢
        omega
      rw [List.nil_append, readTail, readTail, if_neg hrange]
      rfl
    | cons x a =>
      rw [List.cons_append, readTail, readTail]
      by_cases hrange : low ≤ x ∧ x ≤ high
      · rw [if_pos hrange, if_pos hrange, ih (UInt8.le_refl _)]
      · rw [if_neg hrange, if_neg hrange]
        rfl

theorem readPiece_append_ascii (x : UInt8) (a b : List UInt8) :
    readPiece x (a ++ UInt8.ofNat d.toNat :: b) =
      ((readPiece x a).1, (readPiece x a).2 ++ UInt8.ofNat d.toNat :: b) := by
  unfold readPiece
  cases hlead : lead? x with
  | none => rfl
  | some lead =>
    have hlow : 0x80 ≤ lead.low := by
      rcases lead?_cases hlead with ⟨n, hn, rfl⟩ | ⟨n, hn, rfl⟩ | ⟨n, hn, rfl⟩ | ⟨n, hn, rfl⟩
      · rw [lead?_one hn] at hlead
        cases hlead
        exact UInt8.le_refl _
      · rw [lead?_two hn] at hlead
        cases hlead
        exact UInt8.le_refl _
      · rw [lead?_three hn] at hlead
        cases hlead
        show (0x80 : UInt8) ≤ if n = 0 then 0xA0 else 0x80
        split <;> decide
      · rw [lead?_four hn] at hlead
        cases hlead
        show (0x80 : UInt8) ≤ if n = 0 then 0x90 else 0x80
        split <;> decide
    exact readTail_append_ascii hd hlow lead.high lead.bits lead.follow a b

theorem pieces_append_ascii (a b : List UInt8) :
    pieces (a ++ UInt8.ofNat d.toNat :: b) = pieces a ++ some d :: pieces b := by
  fun_induction pieces a with
  | case1 =>
    have hone := pieces_encode_append d b
    rw [encodeChar_ascii hd] at hone
    exact hone
  | case2 x a ih =>
    rw [List.cons_append, pieces, readPiece_append_ascii hd, ih]
    rfl

theorem isText_append_ascii {a b : List UInt8} :
    IsText (a ++ UInt8.ofNat d.toNat :: b) ↔ IsText a ∧ IsText b := by
  rw [isText_iff, isText_iff, isText_iff, pieces_append_ascii hd, List.mem_append, List.mem_cons]
  simp

theorem lossy_append_ascii (a b : List UInt8) :
    lossy (a ++ UInt8.ofNat d.toNat :: b) = lossy a ++ (String.singleton d ++ lossy b) := by
  rw [← String.toList_inj, lossy, lossy, lossy, pieces_append_ascii hd]
  simp

theorem mem_encode_ascii (text : String) : UInt8.ofNat d.toNat ∈ encode text ↔ d ∈ text.toList := by
  constructor
  · intro hmem
    obtain ⟨a, b, hsplit⟩ := List.append_of_mem hmem
    have hpieces := pieces_append_ascii hd a b
    rw [← hsplit, pieces_encode] at hpieces
    have hchar : some d ∈ text.toList.map some := by simp [hpieces]
    obtain ⟨c, hc, heq⟩ := List.mem_map.1 hchar
    exact Option.some.inj heq ▸ hc
  · intro hmem
    refine List.mem_flatMap.2 ⟨d, hmem, ?_⟩
    rw [encodeChar_ascii hd]
    exact List.mem_singleton.2 rfl

theorem mem_of_mem_lossy {bytes : List UInt8} (h : d ∈ (lossy bytes).toList) :
    UInt8.ofNat d.toNat ∈ bytes := by
  rw [toList_lossy] at h
  obtain ⟨piece, hpiece, hchar⟩ := List.mem_map.1 h
  cases piece with
  | none =>
    rw [← hchar] at hd
    exact absurd hd (by decide)
  | some c =>
    obtain rfl : c = d := hchar
    apply subset_of_mem_pieces hpiece
    rw [encodeChar_ascii hd]
    exact List.mem_singleton.2 rfl

end Ascii

end TemplateLint.Utf8
