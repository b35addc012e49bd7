/-!
# Cutting a text at a character

Texts are cut at line feeds and paths, which are bytes, at slashes. A text with `n` cuts has `n + 1`
parts, some of them perhaps empty, and joining the parts with the character gives the text back.
-/

namespace TemplateLint.Text

variable {α : Type}

/-- The parts of a text between the occurrences of a character. -/
def cutAt [DecidableEq α] (cut : α) : List α → List (List α)
  | [] => [[]]
  | c :: cs =>
    if c = cut then [] :: cutAt cut cs
    else
      match cutAt cut cs with
      | [] => [[c]]
      | part :: parts => (c :: part) :: parts

/-- The parts in one text again, with a character between each two of them. -/
def joinWith (cut : α) : List (List α) → List α
  | [] => []
  | [part] => part
  | part :: parts => part ++ cut :: joinWith cut parts

theorem cutAt_ne_nil [DecidableEq α] (cut : α) (text : List α) : cutAt cut text ≠ [] := by
  cases text with
  | nil => simp [cutAt]
  | cons c cs =>
    simp only [cutAt]
    split
    · simp
    · split <;> simp

theorem joinWith_cutAt [DecidableEq α] (cut : α) (text : List α) :
    joinWith cut (cutAt cut text) = text := by
  induction text with
  | nil => rfl
  | cons c cs ih =>
    have nonempty := cutAt_ne_nil cut cs
    simp only [cutAt]
    split
    · next h =>
      cases hparts : cutAt cut cs with
      | nil => exact absurd hparts nonempty
      | cons part parts => simp [joinWith, ← hparts, ih, h]
    · cases hparts : cutAt cut cs with
      | nil => exact absurd hparts nonempty
      | cons part parts =>
        rw [hparts] at ih
        cases parts <;> simpa [joinWith] using ih

/-- The parts of a character string between the occurrences of a character. -/
def cutString (cut : Char) (text : String) : List String :=
  (cutAt cut text.toList).map String.ofList

/-- The text without its final characters of one kind. -/
def trimEnd (drop : α → Bool) (text : List α) : List α :=
  (text.reverse.dropWhile drop).reverse

end TemplateLint.Text
