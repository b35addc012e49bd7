import Mathlib.Data.List.Basic
import TemplateLint.Text.Digits

/-!
# Decimal digits

A number is written with decimal digits and nothing else, so its text can be told from the marks around
it, and reading the digits gives the number back.
-/

namespace TemplateLint.Text

theorem isDigit_of_mem_toString {n : Nat} {c : Char} (h : c ∈ (toString n).toList) :
    c.isDigit = true := by
  rw [Nat.toString_eq_repr, Nat.toList_repr] at h
  exact Nat.isDigit_of_mem_toDigits (by decide) (by decide) h

theorem not_mem_toString {c : Char} (h : c.isDigit = false) (n : Nat) : c ∉ (toString n).toList := by
  intro hmem
  rw [isDigit_of_mem_toString hmem] at h
  cases h

theorem digitIn?_of_isDigit {c : Char} (h : c.isDigit = true) :
    digitIn? 10 c = some (c.toNat - '0'.toNat) := by
  have hrange : 48 ≤ c.toNat ∧ c.toNat ≤ 57 := Char.isDigit_iff_toNat.1 h
  have hbounds : '0' ≤ c ∧ c ≤ '9' := hrange
  have hlt : c.toNat - '0'.toNat < 10 := by
    have hzero : '0'.toNat = 48 := rfl
    omega
  rw [digitIn?, digit?, if_pos hbounds, Option.filter_some, if_pos (decide_eq_true hlt)]

theorem foldlM_digits {digits : List Char} (h : ∀ c ∈ digits, c.isDigit = true) (n : Nat) :
    digits.foldlM (fun n c => (digitIn? 10 c).map (10 * n + ·)) n =
      some (Nat.ofDigitChars 10 digits n) := by
  induction digits generalizing n with
  | nil => rfl
  | cons c digits ih =>
    obtain ⟨hc, hdigits⟩ := List.forall_mem_cons.1 h
    rw [List.foldlM_cons, digitIn?_of_isDigit hc]
    exact ih hdigits _

theorem number?_toString (n : Nat) : number? 10 (toString n).toList = some n := by
  have hdigits : ∀ c ∈ (toString n).toList, c.isDigit = true := fun c hc => isDigit_of_mem_toString hc
  rw [number?, if_neg (by simp), foldlM_digits hdigits, Nat.toString_eq_repr, Nat.toList_repr,
    Nat.ofDigitChars_toDigits (by decide) (by decide)]

theorem toString_injective {m n : Nat} (h : toString m = toString n) : m = n := by
  have hnumber := number?_toString m
  rw [h, number?_toString] at hnumber
  exact (Option.some.inj hnumber).symm

/-! ### Numbers in a text -/

/-- The numbers in a text, with the digits read so far. -/
def numbersFrom (read : Option Nat) : List Char → List Nat
  | [] => read.toList
  | c :: rest =>
    match digitIn? 10 c with
    | some digit => numbersFrom (some (10 * read.getD 0 + digit)) rest
    | none => read.toList ++ numbersFrom none rest

/-- The numbers in a text, each of them as many digits in a row as there are. -/
def numbers (text : List Char) : List Nat :=
  numbersFrom none text

theorem digitIn?_of_not_isDigit {c : Char} (h : c.isDigit = false) : digitIn? 10 c = none := by
  have hrange : ¬ ('0' ≤ c ∧ c ≤ '9') := by
    intro hrange
    rw [Char.isDigit_iff_toNat.2 hrange] at h
    cases h
  -- The other digits are letters, and their values are ten at least.
  rw [digitIn?, digit?, if_neg hrange]
  split
  · exact Option.filter_some_neg (by simp)
  · split
    · exact Option.filter_some_neg (by simp)
    · rfl

theorem numbersFrom_digits {digits : List Char} (hne : digits ≠ []) (h : ∀ c ∈ digits, c.isDigit = true)
    (read : Option Nat) (rest : List Char) :
    numbersFrom read (digits ++ rest) = numbersFrom (some (Nat.ofDigitChars 10 digits (read.getD 0))) rest := by
  induction digits generalizing read with
  | nil => exact absurd rfl hne
  | cons c digits ih =>
    obtain ⟨hc, hdigits⟩ := List.forall_mem_cons.1 h
    rw [List.cons_append, numbersFrom, digitIn?_of_isDigit hc]
    cases digits with
    | nil => rfl
    | cons d digits => exact ih (List.cons_ne_nil d digits) hdigits _

theorem numbers_label {label : List Char} (h : label.all (!·.isDigit) = true) (rest : List Char) :
    numbers (label ++ rest) = numbers rest := by
  induction label with
  | nil => rfl
  | cons c label ih =>
    rw [List.all_cons, Bool.and_eq_true, Bool.not_eq_true'] at h
    rw [List.cons_append, numbers, numbersFrom, digitIn?_of_not_isDigit h.1]
    exact ih h.2

theorem numbers_toString (n : Nat) {rest : List Char} (h : rest.head?.all (!·.isDigit) = true) :
    numbers ((toString n).toList ++ rest) = n :: numbers rest := by
  have hdigits : ∀ c ∈ (toString n).toList, c.isDigit = true := fun c hc =>
    isDigit_of_mem_toString hc
  have hvalue : Nat.ofDigitChars 10 (toString n).toList 0 = n := by
    rw [Nat.toString_eq_repr, Nat.toList_repr, Nat.ofDigitChars_toDigits (by decide) (by decide)]
  have hread : numbers ((toString n).toList ++ rest) = numbersFrom (some n) rest := by
    rw [numbers, numbersFrom_digits (by simp) hdigits]
    exact congrArg (fun value => numbersFrom (some value) rest) hvalue
  rw [hread]
  cases rest with
  | nil => rfl
  | cons c rest =>
    have hc := digitIn?_of_not_isDigit (by simpa using h)
    rw [numbersFrom, hc, numbers, numbersFrom, hc]
    rfl

end TemplateLint.Text
