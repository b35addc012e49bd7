import Mathlib.Data.List.Basic

/-!
# Texts that show where they end

A way to write values is prefix-free if a text that begins with a written value shows which value it is
and where it ends. Values written this way can be written one after the other: what is written behind a
value plays no part in reading it. A list is prefix-free too, if something is written behind it that no
value begins with.
-/

namespace TemplateLint.Text

/-- In front of a mark a text ends at the first character of the mark, if that is not in the text. -/
theorem append_mark_inj {mark : String} {stop : Char} (hmark : mark.toList.head? = some stop)
    {a b rest rest' : List Char} (ha : stop ∉ a) (hb : stop ∉ b)
    (h : a ++ (mark.toList ++ rest) = b ++ (mark.toList ++ rest')) : a = b ∧ rest = rest' := by
  obtain ⟨more, hmore⟩ := List.head?_eq_some_iff.1 hmark
  induction a generalizing b with
  | nil =>
    cases b with
    | nil => exact ⟨rfl, List.append_cancel_left h⟩
    | cons d b =>
      rw [hmore] at h
      exact absurd ((List.cons.inj h).1 ▸ List.mem_cons_self) hb
  | cons c a ih =>
    cases b with
    | nil =>
      rw [hmore] at h
      exact absurd ((List.cons.inj h).1 ▸ List.mem_cons_self) ha
    | cons d b =>
      obtain ⟨rfl, htail⟩ := List.cons.inj h
      obtain ⟨rfl, hrest⟩ := ih (mt (List.mem_cons_of_mem c) ha) (mt (List.mem_cons_of_mem c) hb) htail
      exact ⟨rfl, hrest⟩

/-- Whether a written value is known from any text that begins with it. -/
def PrefixFree {α : Type} (write : α → List Char) : Prop :=
  ∀ ⦃a b : α⦄ ⦃rest rest' : List Char⦄, write a ++ rest = write b ++ rest' → a = b ∧ rest = rest'

namespace PrefixFree

variable {α : Type} {write : α → List Char}

theorem injective (h : PrefixFree write) : Function.Injective write := by
  intro a b heq
  have happend : write a ++ [] = write b ++ [] := by rw [heq]
  exact (h happend).1

/-- Values one after the other, and behind them a text that is not the front of a value. -/
theorem list (h : PrefixFree write) {stop : List Char}
    (hstop : ∀ a rest rest', write a ++ rest ≠ stop ++ rest') :
    PrefixFree fun values : List α => values.flatMap write ++ stop := by
  intro values values' rest rest' heq
  induction values generalizing values' with
  | nil =>
    cases values' with
    | nil => exact ⟨rfl, List.append_cancel_left heq⟩
    | cons b values' =>
      simp only [List.flatMap_nil, List.nil_append, List.flatMap_cons, List.append_assoc] at heq
      exact absurd heq.symm (hstop b _ _)
  | cons a values ih =>
    cases values' with
    | nil =>
      simp only [List.flatMap_nil, List.nil_append, List.flatMap_cons, List.append_assoc] at heq
      exact absurd heq (hstop a _ _)
    | cons b values' =>
      simp only [List.flatMap_cons, List.append_assoc] at heq
      obtain ⟨rfl, hrest⟩ := h heq
      simp only [← List.append_assoc] at hrest
      obtain ⟨rfl, rfl⟩ := ih hrest
      exact ⟨rfl, rfl⟩

end PrefixFree

end TemplateLint.Text
