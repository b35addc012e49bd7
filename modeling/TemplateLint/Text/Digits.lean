import TemplateLint.Text.Split

/-!
# Digits

Numbers appear in settings, on the command line and in escaped characters, in several bases. Here digits
are read one by one, most significant first; signs, prefixes and limits are for the callers.
-/

namespace TemplateLint.Text

/-- The value of a digit, with letters from ten on. -/
def digit? (c : Char) : Option Nat :=
  if '0' ≤ c ∧ c ≤ '9' then some (c.toNat - '0'.toNat)
  else if 'a' ≤ c ∧ c ≤ 'f' then some (c.toNat - 'a'.toNat + 10)
  else if 'A' ≤ c ∧ c ≤ 'F' then some (c.toNat - 'A'.toNat + 10)
  else none

/-- The value of a digit in a base. -/
def digitIn? (base : Nat) (c : Char) : Option Nat :=
  (digit? c).filter (· < base)

/-- The number that digits in a base stand for. There has to be at least one. -/
def number? (base : Nat) (digits : List Char) : Option Nat :=
  if digits.isEmpty then none
  else digits.foldlM (fun n c => (digitIn? base c).map (base * n + ·)) 0

/-- The number that digits stand for if they may be divided by underscores. -/
def spacedNumber? (base : Nat) (digits : List Char) : Option Nat :=
  let groups := cutAt '_' digits
  if groups.any List.isEmpty then none else number? base groups.flatten

/-- The character with a number, if there is one. -/
def charOf? (n : Nat) : Option Char :=
  if n.isValidChar then some (Char.ofNat n) else none

/-- The character whose number is given in hexadecimal digits. -/
def charOfHex? (digits : List Char) : Option Char :=
  (number? 16 digits).bind charOf?

end TemplateLint.Text
