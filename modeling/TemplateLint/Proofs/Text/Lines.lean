import Mathlib.Data.List.Basic
import TemplateLint.Proofs.Text.Digits
import TemplateLint.Report.Lines
import TemplateLint.Text.Split

/-!
# Lines

A text is cut at its line feeds. `cut_induction` goes through a text part by part, which is how the
functions that look at one line after the other are reasoned about. A text that is put together from
lines falls apart into the same lines, as long as no line feed stands in one of them.
-/

namespace TemplateLint

namespace Text

section

variable {α : Type} [DecidableEq α]

theorem cutAt_of_not_mem {cut : α} {text : List α} (h : cut ∉ text) :
    cutAt cut text = [text] := by
  induction text with
  | nil => rfl
  | cons c text ih =>
    rw [List.mem_cons, not_or] at h
    rw [cutAt, if_neg (Ne.symm h.1), ih h.2]

theorem cutAt_append {cut : α} {line : List α} (h : cut ∉ line) (more : List α) :
    cutAt cut (line ++ cut :: more) = line :: cutAt cut more := by
  induction line with
  | nil => rw [List.nil_append, cutAt, if_pos rfl]
  | cons c line ih =>
    rw [List.mem_cons, not_or] at h
    rw [List.cons_append, cutAt, if_neg (Ne.symm h.1), ih h.2]

/-- A text is a part without the character at which it is cut, or such a part in front of the rest. -/
theorem cut_induction {motive : List α → Prop} (cut : α)
    (last : ∀ line, cut ∉ line → motive line)
    (more : ∀ line rest, cut ∉ line → motive rest → motive (line ++ cut :: rest))
    (text : List α) : motive text := by
  induction hlen : text.length using Nat.strongRecOn generalizing text with
  | _ n ih =>
    by_cases hcut : cut ∈ text
    · obtain ⟨line, rest, rfl, hline⟩ := List.eq_append_cons_of_mem hcut
      refine more line rest hline (ih rest.length ?_ rest rfl)
      rw [← hlen, List.length_append, List.length_cons]
      omega
    · exact last text hcut

theorem not_mem_of_mem_cutAt {cut : α} {text part : List α} (h : part ∈ cutAt cut text) :
    cut ∉ part := by
  induction text using cut_induction cut with
  | last line hline =>
    rw [cutAt_of_not_mem hline, List.mem_singleton] at h
    rwa [h]
  | more line rest hline ih =>
    rw [cutAt_append hline, List.mem_cons] at h
    rcases h with rfl | h
    · exact hline
    · exact ih h

theorem cutAt_append_cut (cut : α) (front behind : List α) :
    cutAt cut (front ++ cut :: behind) = cutAt cut front ++ cutAt cut behind := by
  induction front using cut_induction cut with
  | last line hline => rw [cutAt_append hline, cutAt_of_not_mem hline, List.singleton_append]
  | more line rest hline ih =>
    rw [List.append_assoc, List.cons_append, cutAt_append hline, ih, cutAt_append hline,
      List.cons_append]

end

end Text

/-- A text without line breaks. -/
def OneLine (text : List Char) : Prop :=
  '\n' ∉ text ∧ '\r' ∉ text

instance (text : List Char) : Decidable (OneLine text) :=
  inferInstanceAs (Decidable (_ ∧ _))

theorem oneLine_append_iff {a b : List Char} : OneLine (a ++ b) ↔ OneLine a ∧ OneLine b := by
  simp only [OneLine, List.mem_append, not_or]
  tauto

theorem oneLine_toString (n : Nat) : OneLine (toString n).toList :=
  ⟨Text.not_mem_toString (by decide) n, Text.not_mem_toString (by decide) n⟩

/-- A text of spaces and visible ASCII characters. -/
def Printable (text : List Char) : Prop :=
  ∀ c ∈ text, 32 ≤ c.toNat ∧ c.toNat < 127

instance (text : List Char) : Decidable (Printable text) :=
  List.decidableBAll _ text

theorem printable_append_iff {a b : List Char} :
    Printable (a ++ b) ↔ Printable a ∧ Printable b :=
  List.forall_mem_append

theorem printable_toString (n : Nat) : Printable (toString n).toList := by
  intro c hc
  have hrange : 48 ≤ c.toNat ∧ c.toNat ≤ 57 :=
    Char.isDigit_iff_toNat.1 (Text.isDigit_of_mem_toString hc)
  omega

theorem Printable.oneLine {text : List Char} (h : Printable text) : OneLine text :=
  ⟨fun hmem => absurd (h _ hmem) (by decide), fun hmem => absurd (h _ hmem) (by decide)⟩

theorem toList_unlines (lines : List String) :
    (Report.unlines lines).toList = lines.flatMap fun line => line.toList ++ ['\n'] := by
  induction lines with
  | nil => rfl
  | cons line lines ih =>
    rw [Report.unlines_cons, String.toList_append, String.toList_append, ih, List.flatMap_cons]
    rfl

/-- Lines that are written one below the other are the lines of what is written. -/
theorem cutAt_unlines {lines : List String} (h : ∀ line ∈ lines, '\n' ∉ line.toList) :
    Text.cutAt '\n' (Report.unlines lines).toList = lines.map String.toList ++ [[]] := by
  induction lines with
  | nil => rfl
  | cons line lines ih =>
    rw [List.forall_mem_cons] at h
    have hsplit : (Report.unlines (line :: lines)).toList =
        line.toList ++ '\n' :: (Report.unlines lines).toList := by
      simp [Report.unlines_cons]
    rw [hsplit, Text.cutAt_append h.1, ih h.2]
    rfl

end TemplateLint
