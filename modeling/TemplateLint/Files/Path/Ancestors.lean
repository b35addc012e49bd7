import TemplateLint.Files.Path

/-!
# The ancestors of a path

Taking the last step off a path again and again leads to the root, or to the empty path if the path is
relative. The empty path names no directory, so the ancestors end before it.

That this ends at all is a matter of length: a path that loses a step loses at least that step's name.
The length of a path is read off its parts, each counted with one slash.
-/

namespace TemplateLint.Path

/-! ## Lengths -/

/-- How long parts are, each with one slash. -/
def weight : List RawPath → Nat
  | [] => 0
  | part :: rest => part.length + 1 + weight rest

@[simp]
theorem weight_nil : weight [] = 0 := rfl

@[simp]
theorem weight_cons (part : RawPath) (rest : List RawPath) :
    weight (part :: rest) = part.length + 1 + weight rest := rfl

theorem weight_append (front back : List RawPath) :
    weight (front ++ back) = weight front + weight back := by
  induction front with
  | nil => simp
  | cons part rest ih =>
    rw [List.cons_append, weight_cons, weight_cons, ih]
    omega

theorem weight_reverse (parts : List RawPath) : weight parts.reverse = weight parts := by
  induction parts with
  | nil => rfl
  | cons part rest ih =>
    rw [List.reverse_cons, weight_append, ih, weight_cons, weight_cons, weight_nil]
    omega

theorem length_joinWith (parts : List RawPath) :
    (Text.joinWith slash parts).length = weight parts - 1 := by
  induction parts with
  | nil => rfl
  | cons part rest ih =>
    cases rest with
    | nil => rfl
    | cons next rest =>
      have hjoin : Text.joinWith slash (part :: next :: rest) =
          part ++ slash :: Text.joinWith slash (next :: rest) := rfl
      rw [hjoin, List.length_append, List.length_cons, ih]
      simp only [weight_cons]
      omega

theorem weight_cutAt (path : RawPath) : weight (Text.cutAt slash path) = path.length + 1 := by
  induction path with
  | nil => rfl
  | cons c cs ih =>
    rw [Text.cutAt]
    split
    · rw [weight_cons, ih, List.length_nil, List.length_cons]
      omega
    · cases h : Text.cutAt slash cs with
      | nil => exact absurd h (Text.cutAt_ne_nil _ _)
      | cons part parts =>
        rw [h, weight_cons] at ih
        rw [weight_cons, List.length_cons, List.length_cons]
        omega

theorem weight_dropIdle_le (absolute : Bool) (parts : List RawPath) :
    weight (dropIdle absolute parts) ≤ weight parts := by
  induction parts with
  | nil => simp [dropIdle]
  | cons part rest ih =>
    rw [dropIdle]
    split
    · rw [weight_cons]
      omega
    · exact Nat.le_refl _

theorem ne_nil_of_dropIdle {absolute : Bool} {parts rest : List RawPath} {part : RawPath}
    (h : dropIdle absolute parts = part :: rest) : part ≠ [] := by
  induction parts with
  | nil => cases h
  | cons first others ih =>
    rw [dropIdle] at h
    split at h
    · exact ih h
    · next idle =>
      obtain ⟨rfl, -⟩ := List.cons.inj h
      intro hempty
      simp [hempty] at idle

theorem cutAt_of_isAbsolute {path : RawPath} (h : isAbsolute path = true) :
    ∃ rest, Text.cutAt slash path = [] :: rest := by
  cases path with
  | nil => cases h
  | cons c cs =>
    have hslash : c = slash := by simpa [isAbsolute] using h
    exact ⟨Text.cutAt slash cs, by rw [Text.cutAt, if_pos hslash]⟩

/-- A path is longer than the path without its last step. -/
theorem length_parent?_lt {path parent : RawPath} (h : parent? path = some parent) :
    parent.length < path.length := by
  have total := weight_cutAt path
  simp only [parent?] at h
  split at h
  · cases h
  · next part rest hparts =>
    have hlen := List.length_pos_iff.2 (ne_nil_of_dropIdle hparts)
    have bound := weight_dropIdle_le (isAbsolute path)
      (if isAbsolute path then (Text.cutAt slash path).tail else Text.cutAt slash path).reverse
    rw [hparts, weight_cons, weight_reverse] at bound
    have inner := weight_dropIdle_le (isAbsolute path) rest
    obtain rfl := Option.some.inj h
    rw [List.length_append, length_joinWith, weight_reverse]
    split at bound
    · next habs =>
      obtain ⟨tail, htail⟩ := cutAt_of_isAbsolute habs
      rw [htail, weight_cons, List.length_nil] at total
      rw [htail, List.tail_cons] at bound
      simp only [habs, if_true, List.length_singleton] at inner ⊢
      omega
    · next habs =>
      simp only [habs, Bool.false_eq_true, if_false, List.length_nil] at inner ⊢
      omega

/-! ## Going up -/

/-- The path and the paths that it is below, from the nearest on. -/
def ancestors (path : RawPath) : List RawPath :=
  match _h : parent? path with
  | none => [path]
  | some parent => if parent = [] then [path] else path :: ancestors parent
termination_by path.length
decreasing_by exact length_parent?_lt ‹_›

end TemplateLint.Path
