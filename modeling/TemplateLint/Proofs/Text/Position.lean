import Mathlib.Data.List.DropRight
import TemplateLint.Text.Position

/-!
# Positions are counts

`Position.after` walks along a text. Its two coordinates can be read off the text at once: the line is
one more than the number of line feeds, and the column is the length of the last line. From this it
follows what happens to a position when a text is put in front of the one it belongs to: all lines
move down by the line feeds of that text, and only the columns of the first line move, by the length
of that text's last line.
-/

namespace TemplateLint

theorem rtakeWhile_append (p : Char → Bool) (a b : List Char) :
    (a ++ b).rtakeWhile p = if b.all p then a.rtakeWhile p ++ b else b.rtakeWhile p := by
  induction b using List.reverseRecOn with
  | nil => simp
  | append_singleton b c ih =>
    rw [← List.append_assoc, List.rtakeWhile_concat, List.rtakeWhile_concat, ih, List.all_append]
    by_cases hc : p c = true
    · rw [if_pos hc, if_pos hc]
      by_cases hb : b.all p = true
      · rw [if_pos hb, if_pos (by simp [hb, hc]), List.append_assoc]
      · rw [if_neg hb, if_neg (by simp [hb])]
    · rw [if_neg hc, if_neg hc, if_neg (by simp [hc])]

namespace Position

/-- The characters behind the last line feed of a text, and all of them if there is none. -/
def lastLine (text : List Char) : List Char :=
  text.rtakeWhile (· ≠ '\n')

/-- Where a position of a text goes when another text is put in front. -/
def shift (p : Position) (front : List Char) : Position :=
  ⟨p.line + front.count '\n',
    if p.line = 1 then p.column + (lastLine front).length else p.column⟩

theorem after_concat (text : List Char) (c : Char) : after (text ++ [c]) = (after text).next c := by
  rw [after_append, advance_cons, advance_nil]

theorem lastLine_concat (text : List Char) (c : Char) :
    lastLine (text ++ [c]) = if c = '\n' then [] else lastLine text ++ [c] := by
  by_cases hc : c = '\n'
  · simp [lastLine, hc]
  · simp [lastLine, hc]

/-- The coordinates of the end of a text, counted. -/
theorem after_eq_counts (text : List Char) :
    after text = ⟨1 + text.count '\n', (lastLine text).length⟩ := by
  induction text using List.reverseRecOn with
  | nil => rfl
  | append_singleton text c ih =>
    rw [after_concat, ih, lastLine_concat]
    by_cases hc : c = '\n'
    · simp [next, hc, Nat.add_assoc]
    · simp [next, hc]

/-- What stands in front of a text has no part in its last line once the text has a line feed. -/
theorem lastLine_append (a b : List Char) :
    lastLine (a ++ b) = if '\n' ∈ b then lastLine b else lastLine a ++ b := by
  rw [lastLine, rtakeWhile_append]
  by_cases hb : '\n' ∈ b
  · rw [if_pos hb, if_neg fun hall => absurd (List.all_eq_true.1 hall _ hb) (by decide)]
    rfl
  · have hall : b.all (· ≠ '\n') = true :=
      List.all_eq_true.2 fun c hc => by simpa using fun heq : c = '\n' => hb (heq ▸ hc)
    rw [if_neg hb, if_pos hall]
    rfl

theorem lastLine_of_not_mem {text : List Char} (h : '\n' ∉ text) : lastLine text = text := by
  rw [lastLine, List.rtakeWhile_eq_self_iff]
  intro c hc
  simpa using fun heq : c = '\n' => h (heq ▸ hc)

theorem after_append_eq_shift (a b : List Char) : after (a ++ b) = (after b).shift a := by
  simp only [after_eq_counts, shift, lastLine_append, List.count_append]
  by_cases hb : '\n' ∈ b
  · have hcount : 0 < b.count '\n' := List.count_pos_iff.2 hb
    have hline : ¬ 1 + b.count '\n' = 1 := by omega
    have hlines : 1 + (a.count '\n' + b.count '\n') = 1 + b.count '\n' + a.count '\n' := by omega
    rw [if_pos hb, if_neg hline, hlines]
  · have hcount : b.count '\n' = 0 := List.count_eq_zero.2 hb
    have hlines : 1 + (a.count '\n' + b.count '\n') = 1 + b.count '\n' + a.count '\n' := by omega
    rw [if_neg hb, if_pos (by omega), hlines, lastLine_of_not_mem hb, List.length_append,
      Nat.add_comm b.length]

end Position

end TemplateLint
