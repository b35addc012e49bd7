/-!
# Config documents

A config file is flat: it gives values to keys, and a value is a single one or a list of texts. The
formats differ in what they say about a single value. One tells texts, numbers and truth values apart;
in the other a word without quotes can be any of them, and what it is depends on where it is used. So a
single value is kept as the readings it allows.
-/

namespace TemplateLint

/-- What a single value can be read as. -/
structure Readings where
  text : Option String := none
  number : Option Int := none
  flag : Option Bool := none
  deriving DecidableEq, Repr, Inhabited

/-- The value of a key. -/
inductive Value where
  /-- The key is there, but it is given nothing. -/
  | absent
  | single (readings : Readings)
  | list (items : List String)
  deriving DecidableEq, Repr, Inhabited

/-- The value that can only be read as a text. -/
def Value.ofText (text : String) : Value := .single { text := some text }

/-- Keys and their values, in the order of the file. -/
abbrev Document := List (String × Value)

end TemplateLint
