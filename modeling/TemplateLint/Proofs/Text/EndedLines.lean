import TemplateLint.Proofs.Text.Lines
import TemplateLint.Proofs.Text.Position

/-!
# Lines that are ended

The lines of a text are what is left when it is cut at its line feeds, and all of them are ended by a
line feed except the last one. That is the plain way to say it, but a text that comes in pieces cannot be
cut piece by piece, because a line may begin in one piece and end in a later one. So a line is also found
from its end: `Text.breaks` lists the texts that stand before the line feeds, and the line is the last
line of such a text.
-/

namespace TemplateLint

open Position (lastLine)

/-- A line with a line feed behind it. -/
structure EndedLine where
  number : Nat
  text : List Char
  /-- The offset of the line feed. -/
  breakAt : Nat
  deriving DecidableEq, Repr

namespace EndedLine

/-- The lines among the parts of a text that begins with a line at an offset. -/
def ofParts (number offset : Nat) : List (List Char) → List EndedLine
  | [] => []
  | [_] => []
  | line :: more =>
    ⟨number, line, offset + line.length⟩ ::
      ofParts (number + 1) (offset + line.length + 1) more

/-- The lines of a text that are ended. -/
def ofText (text : List Char) : List EndedLine :=
  ofParts 1 0 (Text.cutAt '\n' text)

/-- The line that a line feed behind some characters ends. -/
def before (front : List Char) : EndedLine :=
  ⟨1 + front.count '\n', lastLine front, front.length⟩

end EndedLine

namespace Text

/-- The texts before the line feeds of a text that stands behind some characters. -/
def breaks (front : List Char) : List Char → List (List Char)
  | [] => []
  | c :: rest =>
    if c = '\n' then front :: breaks (front ++ [c]) rest else breaks (front ++ [c]) rest

theorem breaks_append (front a b : List Char) :
    breaks front (a ++ b) = breaks front a ++ breaks (front ++ a) b := by
  induction a generalizing front with
  | nil => simp [breaks]
  | cons c a ih =>
    rw [List.cons_append, breaks, breaks, ih, List.append_assoc]
    split <;> rfl

theorem breaks_of_not_mem {line : List Char} (h : '\n' ∉ line) (front : List Char) :
    breaks front line = [] := by
  induction line generalizing front with
  | nil => rfl
  | cons c line ih =>
    rw [List.mem_cons, not_or] at h
    rw [breaks, if_neg (Ne.symm h.1), ih h.2]

theorem breaks_line {line : List Char} (h : '\n' ∉ line) (front rest : List Char) :
    breaks front (line ++ '\n' :: rest) =
      (front ++ line) :: breaks (front ++ line ++ ['\n']) rest := by
  rw [breaks_append, breaks_of_not_mem h, List.nil_append, breaks, if_pos rfl]

theorem length_of_mem_breaks {front text p : List Char} (h : p ∈ breaks front text) :
    front.length ≤ p.length ∧ p.length < front.length + text.length := by
  induction text generalizing front with
  | nil => cases h
  | cons c text ih =>
    have hmore : p ∈ breaks (front ++ [c]) text →
        front.length ≤ p.length ∧ p.length < front.length + (c :: text).length := by
      intro hp
      have hlen := ih hp
      simp only [List.length_append, List.length_cons, List.length_nil] at hlen ⊢
      omega
    rw [breaks] at h
    split at h
    · rcases List.mem_cons.1 h with rfl | hp
      · simp
      · exact hmore hp
    · exact hmore h

end Text

namespace EndedLine

theorem ofParts_cutAt {front : List Char} (hfront : lastLine front = []) (text : List Char) :
    ofParts (1 + front.count '\n') front.length (Text.cutAt '\n' text) =
      (Text.breaks front text).map before := by
  induction text using Text.cut_induction '\n' generalizing front with
  | last line hline =>
    rw [Text.cutAt_of_not_mem hline, Text.breaks_of_not_mem hline]
    rfl
  | more line rest hline ih =>
    have hbefore : before (front ++ line) =
        ⟨1 + front.count '\n', line, front.length + line.length⟩ := by
      rw [before, Position.lastLine_append, if_neg hline, hfront, List.count_append,
        List.count_eq_zero.2 hline, List.length_append]
      rfl
    have hnext := @ih (front ++ line ++ ['\n']) (by rw [Position.lastLine_concat, if_pos rfl])
    have hcount : 1 + (front ++ line ++ ['\n']).count '\n' = 1 + front.count '\n' + 1 := by
      rw [List.count_append, List.count_append, List.count_eq_zero.2 hline]
      rfl
    have hlength : (front ++ line ++ ['\n']).length = front.length + line.length + 1 := by
      simp only [List.length_append, List.length_cons, List.length_nil]
    rw [hcount, hlength] at hnext
    obtain ⟨second, lines, hlines⟩ := List.exists_cons_of_ne_nil (Text.cutAt_ne_nil '\n' rest)
    rw [Text.cutAt_append hline, Text.breaks_line hline, List.map_cons, hbefore, ← hnext, hlines]
    rfl

theorem ofText_eq (text : List Char) : ofText text = (Text.breaks [] text).map before :=
  @ofParts_cutAt [] rfl text

theorem number_of_mem_ofParts {number offset : Nat} {parts : List (List Char)} {line : EndedLine}
    (h : line ∈ ofParts number offset parts) : number ≤ line.number := by
  fun_induction ofParts number offset parts with
  | case1 => cases h
  | case2 => cases h
  | case3 number offset first more hmore ih =>
    rcases List.mem_cons.1 h with rfl | hmem
    · exact Nat.le_refl number
    · have hle := ih hmem
      omega

theorem pairwise_ofParts (number offset : Nat) (parts : List (List Char)) :
    (ofParts number offset parts).Pairwise fun a b => a.number < b.number := by
  fun_induction ofParts number offset parts with
  | case1 => exact List.Pairwise.nil
  | case2 => exact List.Pairwise.nil
  | case3 number offset first more hmore ih =>
    exact List.pairwise_cons.2 ⟨fun line hline => number_of_mem_ofParts hline, ih⟩

theorem pairwise_ofText (text : List Char) :
    (ofText text).Pairwise fun a b => a.number < b.number :=
  pairwise_ofParts 1 0 (Text.cutAt '\n' text)

end EndedLine

end TemplateLint
