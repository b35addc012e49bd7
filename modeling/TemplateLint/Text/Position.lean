/-!
# Positions in a text

A reader of a report looks a finding up by line and column. Lines count from one and are ended by a
line feed and by nothing else; columns count characters from zero, so a column says how many
characters of its line stand before the place.

A position is determined by the text before it, and `Position.after` is that function. Everything in
the library that carries a position gets it by moving along a text with `Position.advance`.
-/

namespace TemplateLint

/-- A place in a text. -/
structure Position where
  line : Nat
  column : Nat
  deriving DecidableEq, Repr, Inhabited

namespace Position

/-- Where every text begins. -/
def start : Position := ⟨1, 0⟩

/-- The place behind one more character. -/
def next (p : Position) (c : Char) : Position :=
  if c = '\n' then ⟨p.line + 1, 0⟩ else ⟨p.line, p.column + 1⟩

/-- The place behind a run of characters. -/
def advance (p : Position) (text : List Char) : Position :=
  text.foldl next p

/-- The place at the end of a text. -/
def after (text : List Char) : Position :=
  start.advance text

@[simp]
theorem advance_nil (p : Position) : p.advance [] = p := rfl

@[simp]
theorem advance_cons (p : Position) (c : Char) (text : List Char) :
    p.advance (c :: text) = (p.next c).advance text := rfl

@[simp]
theorem advance_append (p : Position) (a b : List Char) :
    p.advance (a ++ b) = (p.advance a).advance b := by
  simp [advance]

theorem after_append (a b : List Char) : after (a ++ b) = (after a).advance b :=
  advance_append start a b

end Position

end TemplateLint
