import TemplateLint.Proofs.Text.Position

/-!
# The places of a text

Every character of a text has a place, and the places grow along the text: line by line, and from left
to right in a line. `Position.places` lists them. A list of positions that is a sublist of it consists of
places of characters, in order and without repetition, and this is how such things are said of findings.
-/

namespace TemplateLint

namespace Position

instance : LT Position := ⟨fun p q => p.line < q.line ∨ p.line = q.line ∧ p.column < q.column⟩

theorem lt_iff {p q : Position} : p < q ↔ p.line < q.line ∨ p.line = q.line ∧ p.column < q.column :=
  Iff.rfl

theorem lt_irrefl (p : Position) : ¬ p < p := by
  rw [lt_iff]
  omega

theorem lt_trans {p q r : Position} (hpq : p < q) (hqr : q < r) : p < r := by
  rw [lt_iff] at *
  omega

theorem lt_next (p : Position) (c : Char) : p < p.next c := by
  rw [lt_iff, next]
  split
  · exact .inl (Nat.lt_succ_self _)
  · exact .inr ⟨rfl, Nat.lt_succ_self _⟩

/-- The places of the characters of a text that begins at a position. -/
def places (here : Position) : List Char → List Position
  | [] => []
  | c :: text => here :: places (here.next c) text

theorem places_append (here : Position) (a b : List Char) :
    places here (a ++ b) = places here a ++ places (here.advance a) b := by
  induction a generalizing here with
  | nil => rfl
  | cons c a ih => simp only [List.cons_append, places, advance_cons, ih]

theorem mem_places_iff {here p : Position} {text : List Char} :
    p ∈ places here text ↔ ∃ offset < text.length, p = here.advance (text.take offset) := by
  induction text generalizing here with
  | nil => simp [places]
  | cons c text ih =>
    rw [places, List.mem_cons, ih]
    constructor
    · intro h
      rcases h with rfl | ⟨offset, hlt, rfl⟩
      · exact ⟨0, by simp, rfl⟩
      · exact ⟨offset + 1, by simpa using hlt, rfl⟩
    · intro h
      obtain ⟨offset, hlt, rfl⟩ := h
      cases offset with
      | zero => exact .inl rfl
      | succ offset => exact .inr ⟨offset, by simpa using hlt, rfl⟩

theorem lt_of_mem_places_next {here p : Position} {c : Char} {text : List Char}
    (h : p ∈ places (here.next c) text) : here < p := by
  induction text generalizing here c with
  | nil => cases h
  | cons d text ih =>
    rcases List.mem_cons.1 h with rfl | hmore
    · exact lt_next here c
    · exact lt_trans (lt_next here c) (ih hmore)

theorem pairwise_places (here : Position) (text : List Char) :
    (places here text).Pairwise (· < ·) := by
  induction text generalizing here with
  | nil => exact .nil
  | cons c text ih => exact .cons (fun p hp => lt_of_mem_places_next hp) (ih (here.next c))

theorem advance_of_not_mem {text : List Char} (h : '\n' ∉ text) (here : Position) :
    here.advance text = ⟨here.line, here.column + text.length⟩ := by
  induction text generalizing here with
  | nil => rfl
  | cons c text ih =>
    rw [List.mem_cons, not_or] at h
    rw [advance_cons, ih h.2, next, if_neg (Ne.symm h.1), List.length_cons]
    show Position.mk here.line (here.column + 1 + text.length) = _
    congr 1
    omega

end Position

end TemplateLint
