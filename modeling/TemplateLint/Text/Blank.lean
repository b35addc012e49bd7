/-!
# Blank characters

A character is blank when Unicode gives it the property White_Space: the five control characters from
tab to carriage return, the space, next line, the no-break space, and the wider spaces and separators
above Latin-1. There are twenty-five of them.
-/

namespace TemplateLint

/-- The code points with the property White_Space, as ranges in ascending order. -/
def blankRanges : List (Nat × Nat) :=
  [(0x09, 0x0D), (0x20, 0x20), (0x85, 0x85), (0xA0, 0xA0), (0x1680, 0x1680), (0x2000, 0x200A),
    (0x2028, 0x2029), (0x202F, 0x202F), (0x205F, 0x205F), (0x3000, 0x3000)]

/-- Whether a character is blank. -/
def isBlank (c : Char) : Bool :=
  blankRanges.any fun (low, high) => low ≤ c.toNat && c.toNat ≤ high

example : (blankRanges.map fun (low, high) => high + 1 - low).sum = 25 := by decide

end TemplateLint
