import Mathlib.Data.List.Basic
import TemplateLint.Files.Path.Ancestors
import TemplateLint.Proofs.Files.Places

/-!
# Going up from a path

A path without its last step is made on the bytes: parts at the end that mean nothing go, then a part,
then again those that mean nothing. What is left has the steps of the path but for the last one
(`components_parent?`), so going up is going to the fronts of the steps. It goes on until one step is
left, which is the root of an absolute path and the first name of a relative one
(`exists_climbs_iff`).

The steps of a path are read off its parts from the front, the parent is made from the end. `stepsOf`
reads the steps off any parts, and is told for one more part at the end what that part adds.
-/

namespace TemplateLint

namespace Path

/-! ### The steps of parts -/

/-- The parts of a path, without the empty one before the first slash of an absolute path. -/
def body (path : RawPath) : List RawPath :=
  if isAbsolute path then (Text.cutAt slash path).tail else Text.cutAt slash path

/-- The steps that parts stand for. -/
def stepsOf (absolute : Bool) (parts : List RawPath) : List Component :=
  let kept := parts.filter (· ≠ [])
  if absolute then .root :: innerComponents kept
  else if kept.head? = some ("." : RawPath) then .current :: innerComponents kept
  else innerComponents kept

/-- Parts that a path can begin with: a relative path does not begin with a slash. -/
def CanBegin (absolute : Bool) (parts : List RawPath) : Prop :=
  absolute = false → parts.head? ≠ some []

variable {path : RawPath} {absolute : Bool} {parts : List RawPath}

theorem components_eq (path : RawPath) : components path = stepsOf (isAbsolute path) (body path) := by
  rw [components, stepsOf, body, Path.parts]
  cases habsolute : isAbsolute path with
  | false => rfl
  | true =>
    obtain ⟨rest, hcut⟩ := cutAt_of_isAbsolute habsolute
    rw [hcut]
    rfl

theorem not_mem_of_mem_body {part : RawPath} (h : part ∈ body path) : slash ∉ part := by
  refine Text.not_mem_of_mem_cutAt (show part ∈ Text.cutAt slash path from ?_)
  unfold body at h
  split at h
  · exact List.mem_of_mem_tail h
  · exact h

theorem canBegin_body (hne : path ≠ []) : CanBegin (isAbsolute path) (body path) := by
  intro hrelative
  rw [body, hrelative, if_neg (by simp)]
  cases path with
  | nil => exact absurd rfl hne
  | cons c rest =>
    have hslash : c ≠ slash := by
      intro hc
      subst hc
      cases hrelative
    rw [Text.cutAt, if_neg hslash]
    split <;> simp

/-- Parts with slashes between them are the parts of a path again. -/
theorem components_spelled (hslash : ∀ part ∈ parts, slash ∉ part) (hbegin : CanBegin absolute parts) :
    let spelled := (if absolute then [slash] else []) ++ Text.joinWith slash parts
    isAbsolute spelled = absolute ∧ components spelled = stepsOf absolute parts := by
  intro spelled
  have habsolute : isAbsolute spelled = absolute := by
    cases absolute with
    | true => rfl
    | false =>
      show isAbsolute ([] ++ Text.joinWith slash parts) = false
      rw [List.nil_append, isAbsolute, beq_eq_false_iff_ne]
      cases parts with
      | nil => simp [Text.joinWith]
      | cons part rest =>
        cases part with
        | nil => exact absurd rfl (hbegin rfl)
        | cons c more =>
          have hc : c ≠ slash := by
            intro hc
            subst hc
            exact hslash _ List.mem_cons_self List.mem_cons_self
          cases rest <;> simpa [Text.joinWith] using hc
  refine ⟨habsolute, ?_⟩
  rw [components_eq, habsolute, body, habsolute]
  by_cases hnil : parts = []
  · subst hnil
    cases absolute <;> rfl
  have hparts := Text.cutAt_joinWith hnil hslash
  cases absolute with
  | true =>
    have hcut : Text.cutAt slash spelled = [] :: Text.cutAt slash (Text.joinWith slash parts) := rfl
    rw [if_pos rfl, hcut, hparts, List.tail_cons]
  | false =>
    have hcut : spelled = Text.joinWith slash parts := List.nil_append _
    rw [if_neg (by simp), hcut, hparts]

/-! ### Losing a step -/

/-- Whether a part behind others means nothing. -/
def IsIdle (absolute : Bool) (before : List RawPath) (part : RawPath) : Prop :=
  part = [] ∨ part = "." ∧ (absolute = true ∨ before ≠ [])

theorem dropIdle_cons (absolute : Bool) (part : RawPath) (rest : List RawPath) :
    IsIdle absolute rest part ∧ dropIdle absolute (part :: rest) = dropIdle absolute rest ∨
      ¬ IsIdle absolute rest part ∧ dropIdle absolute (part :: rest) = part :: rest := by
  rw [dropIdle]
  split
  · next h => exact .inl ⟨by simpa [IsIdle] using h, rfl⟩
  · next h => exact .inr ⟨by simpa [IsIdle] using h, rfl⟩

theorem filter_ne_nil (hbegin : CanBegin false parts) (hne : parts ≠ []) :
    parts.filter (· ≠ []) ≠ [] := by
  cases parts with
  | nil => exact absurd rfl hne
  | cons part rest =>
    have hpart : part ≠ [] := fun hempty => hbegin rfl (by rw [hempty]; rfl)
    simp [hpart]

theorem stepsOf_concat_of_idle {part : RawPath} (hbegin : CanBegin absolute parts)
    (h : IsIdle absolute parts part) : stepsOf absolute (parts ++ [part]) = stepsOf absolute parts := by
  rcases h with rfl | ⟨rfl, habove⟩
  · rw [stepsOf, stepsOf, List.filter_append]
    simp
  · cases absolute with
    | true => simp [stepsOf, innerComponents]
    | false =>
      have hne := filter_ne_nil hbegin (habove.resolve_left (by simp))
      rw [stepsOf, stepsOf, List.filter_append]
      cases hfilter : parts.filter (· ≠ []) with
      | nil => exact absurd hfilter hne
      | cons first rest =>
        by_cases hfirst : first = "."
        · subst hfirst
          simp [innerComponents]
        · simp [innerComponents, hfirst]

theorem exists_stepsOf_concat {part : RawPath} (h : ¬ IsIdle absolute parts part) :
    ∃ step, stepsOf absolute (parts ++ [part]) = stepsOf absolute parts ++ [step] := by
  rw [IsIdle, not_or, not_and_or] at h
  obtain ⟨hpart, hpoint | hfront⟩ := h
  · refine ⟨Component.ofPart part, ?_⟩
    cases absolute with
    | true => simp [stepsOf, innerComponents, hpart, hpoint]
    | false =>
      rw [stepsOf, stepsOf, List.filter_append]
      cases hfilter : parts.filter (· ≠ []) with
      | nil => simp [innerComponents, hpart, hpoint]
      | cons first rest =>
        by_cases hfirst : first = "."
        · subst hfirst
          simp [innerComponents, hpart, hpoint]
        · simp [innerComponents, hpart, hpoint, hfirst]
  · rw [not_or, Bool.not_eq_true, not_not] at hfront
    obtain ⟨rfl, rfl⟩ := hfront
    by_cases hpoint : part = "."
    · subst hpoint
      exact ⟨.current, rfl⟩
    · exact ⟨Component.ofPart part, by simp [stepsOf, innerComponents, hpart, hpoint]⟩

/-! The parts come from behind here, as the parent of a path takes them. -/

theorem CanBegin.of_append {front behind : List RawPath} (h : CanBegin absolute (front ++ behind)) :
    CanBegin absolute front := by
  intro hrelative hempty
  refine h hrelative ?_
  rw [List.head?_append, hempty]
  rfl

theorem dropIdle_suffix (absolute : Bool) (parts : List RawPath) : dropIdle absolute parts <:+ parts := by
  induction parts with
  | nil => exact List.suffix_refl _
  | cons part rest ih =>
    rcases dropIdle_cons absolute part rest with ⟨-, heq⟩ | ⟨-, heq⟩
    · rw [heq]
      exact ih.trans (List.suffix_cons part rest)
    · rw [heq]

theorem not_isIdle_of_dropIdle {part : RawPath} {rest : List RawPath}
    (h : dropIdle absolute parts = part :: rest) : ¬ IsIdle absolute rest part := by
  induction parts with
  | nil => cases h
  | cons first others ih =>
    rcases dropIdle_cons absolute first others with ⟨-, heq⟩ | ⟨hidle, heq⟩
    · exact ih (heq.symm.trans h)
    · obtain ⟨rfl, rfl⟩ := List.cons.inj (heq.symm.trans h)
      exact hidle

theorem stepsOf_reverse_dropIdle (parts : List RawPath) (hbegin : CanBegin absolute parts.reverse) :
    stepsOf absolute (dropIdle absolute parts).reverse = stepsOf absolute parts.reverse := by
  induction parts with
  | nil => rfl
  | cons part rest ih =>
    rw [List.reverse_cons] at hbegin
    rcases dropIdle_cons absolute part rest with ⟨hidle, heq⟩ | ⟨-, heq⟩
    · have hfront := hbegin.of_append
      have hreverse : IsIdle absolute rest.reverse part := by simpa [IsIdle] using hidle
      rw [heq, ih hfront, List.reverse_cons, stepsOf_concat_of_idle hfront hreverse]
    · rw [heq]

theorem parent?_eq (path : RawPath) :
    parent? path =
      match dropIdle (isAbsolute path) (body path).reverse with
      | [] => none
      | _ :: rest => some ((if isAbsolute path then [slash] else []) ++
          Text.joinWith slash (dropIdle (isAbsolute path) rest).reverse) := rfl

theorem components_of_parent?_eq_none (h : parent? path = none) (hne : path ≠ []) :
    components path = stepsOf (isAbsolute path) [] := by
  rw [parent?_eq] at h
  split at h
  · next hnil =>
    have hsteps := stepsOf_reverse_dropIdle (body path).reverse
      (by rw [List.reverse_reverse]; exact canBegin_body hne)
    rw [hnil, List.reverse_reverse] at hsteps
    rw [components_eq, ← hsteps, List.reverse_nil]
  · cases h

/-- The path without its last step has the other steps. -/
theorem components_parent? {parent : RawPath} (h : parent? path = some parent) :
    isAbsolute parent = isAbsolute path ∧ ∃ step, components path = components parent ++ [step] := by
  have hne : path ≠ [] := by
    rintro rfl
    cases h
  have hbegin := canBegin_body hne
  rw [parent?_eq] at h
  split at h
  · cases h
  · next part rest hparts =>
    have hsteps := stepsOf_reverse_dropIdle (body path).reverse
      (by rw [List.reverse_reverse]; exact hbegin)
    rw [hparts, List.reverse_reverse, List.reverse_cons] at hsteps
    have hsuffix : (dropIdle (isAbsolute path) rest).reverse <+: rest.reverse :=
      List.reverse_prefix.2 (dropIdle_suffix _ rest)
    have hrest : rest.reverse <+: body path := by
      have hall := List.reverse_prefix.2 (dropIdle_suffix (isAbsolute path) (body path).reverse)
      rw [hparts, List.reverse_reverse, List.reverse_cons] at hall
      exact (List.prefix_append _ _).trans hall
    have hfront : CanBegin (isAbsolute path) rest.reverse := by
      obtain ⟨behind, hbody⟩ := hrest
      exact (hbody ▸ hbegin).of_append
    have hkept : CanBegin (isAbsolute path) (dropIdle (isAbsolute path) rest).reverse := by
      obtain ⟨behind, hbehind⟩ := hsuffix
      exact (hbehind ▸ hfront).of_append
    have hslash : ∀ part ∈ (dropIdle (isAbsolute path) rest).reverse, slash ∉ part :=
      fun part hpart => not_mem_of_mem_body ((hsuffix.trans hrest).subset hpart)
    obtain ⟨habsolute, hcomponents⟩ := components_spelled hslash hkept
    have hidle : ¬ IsIdle (isAbsolute path) rest.reverse part := by
      simpa [IsIdle] using not_isIdle_of_dropIdle hparts
    obtain ⟨step, hstep⟩ := exists_stepsOf_concat hidle
    obtain rfl := Option.some.inj h
    refine ⟨habsolute, step, ?_⟩
    rw [components_eq path, ← hsteps, hstep, hcomponents, stepsOf_reverse_dropIdle rest hfront]

/-! ### Climbing -/

theorem components_ne_nil (hne : path ≠ []) : components path ≠ [] := by
  rw [components_eq, stepsOf]
  split
  · exact List.cons_ne_nil _ _
  · next hrelative =>
    rw [Bool.not_eq_true] at hrelative
    have hbegin := canBegin_body hne
    rw [hrelative] at hbegin
    have hbody : body path ≠ [] := by
      rw [body, hrelative]
      exact Text.cutAt_ne_nil slash path
    have hfilter := filter_ne_nil hbegin hbody
    split
    · exact List.cons_ne_nil _ _
    · next hpoint =>
      cases hparts : (body path).filter (· ≠ []) with
      | nil => exact absurd hparts hfilter
      | cons first rest =>
        have hfirst : first ≠ "." := by
          intro heq
          rw [hparts, heq] at hpoint
          exact hpoint rfl
        simp [innerComponents, hfirst]

/-- There is a path above another one just if that one has two steps. -/
theorem exists_parent?_iff (path : RawPath) :
    (∃ parent, parent? path = some parent ∧ parent ≠ []) ↔ 1 < (components path).length := by
  constructor
  · rintro ⟨parent, hparent, hne⟩
    obtain ⟨-, step, hstep⟩ := components_parent? hparent
    have hpos := List.length_pos_iff.2 (components_ne_nil hne)
    rw [hstep, List.length_append, List.length_singleton]
    omega
  · intro hlength
    have hne : path ≠ [] := by
      rintro rfl
      revert hlength
      decide
    cases hparent : parent? path with
    | none =>
      rw [components_of_parent?_eq_none hparent hne] at hlength
      cases habsolute : isAbsolute path <;> simp [habsolute, stepsOf, innerComponents] at hlength
    | some parent =>
      refine ⟨parent, rfl, ?_⟩
      rintro rfl
      obtain ⟨-, step, hstep⟩ := components_parent? hparent
      rw [hstep] at hlength
      exact absurd hlength (by simp [show components [] = [] from rfl])

/-- Going up from a path, step by step and not to the empty path. -/
inductive Climbs (start : RawPath) : Nat → RawPath → Prop where
  | start : Climbs start 0 start
  | parent {n : Nat} {path parent : RawPath} (below : Climbs start n path)
      (eq : parent? path = some parent) (ne_nil : parent ≠ []) : Climbs start (n + 1) parent

variable {start : RawPath} {n : Nat}

/-- What is reached by going up has a front of the steps. -/
theorem Climbs.components_eq (h : Climbs start n path) :
    components path = (components start).take ((components start).length - n) := by
  induction h with
  | start => simp
  | @parent n path parent _ heq hne ih =>
    obtain ⟨-, step, hstep⟩ := components_parent? heq
    calc components parent
        = (components path).dropLast := by rw [hstep, List.dropLast_concat]
      _ = (components start).take ((components start).length - (n + 1)) := by
        rw [ih, List.dropLast_eq_take, List.take_take, List.length_take]
        congr 1
        omega

/-- Going up ends at one step. -/
theorem exists_climbs_iff (start : RawPath) (n : Nat) :
    (∃ path, Climbs start n path) ↔ n = 0 ∨ n < (components start).length := by
  induction n with
  | zero => exact ⟨fun _ => .inl rfl, fun _ => ⟨start, .start⟩⟩
  | succ n ih =>
    have hlength {path : RawPath} (hpath : Climbs start n path) :
        1 < (components path).length ↔ n + 1 < (components start).length := by
      rw [hpath.components_eq, List.length_take]
      omega
    constructor
    · rintro ⟨parent, hclimbs⟩
      cases hclimbs with
      | parent below heq hne =>
        exact .inr ((hlength below).1 ((exists_parent?_iff _).1 ⟨parent, heq, hne⟩))
    · intro hn
      obtain ⟨path, hpath⟩ := ih.2 (by omega)
      obtain ⟨parent, hparent, hne⟩ := (exists_parent?_iff path).2 ((hlength hpath).2 (by omega))
      exact ⟨parent, .parent hpath hparent hne⟩

/-! ### The list of ancestors -/

theorem getElem?_zero_iff (above : List RawPath) : (start :: above)[0]? = some path ↔ Climbs start 0 path := by
  rw [List.getElem?_cons_zero, Option.some.injEq]
  exact ⟨fun h => h ▸ .start, fun h => by cases h; rfl⟩

theorem Climbs.above {parent : RawPath} (hparent : parent? start = some parent) (hne : parent ≠ []) :
    Climbs start (n + 1) path ↔ Climbs parent n path := by
  constructor
  · intro h
    generalize hcount : n + 1 = count at h
    induction h generalizing n with
    | start => cases hcount
    | @parent m below next hbelow heq hnext ih =>
      obtain rfl : n = m := Nat.succ.inj hcount
      cases hbelow with
      | start =>
        obtain rfl : parent = next := Option.some.inj (hparent.symm.trans heq)
        exact .start
      | parent hlower hlowerEq hlowerNe => exact .parent (ih rfl) heq hnext
  · intro h
    induction h with
    | start => exact .parent .start hparent hne
    | parent _ heq hnext ih => exact .parent ih heq hnext

theorem getElem?_singleton_iff (htop : ∀ parent, parent? start = some parent → parent = []) :
    [start][n]? = some path ↔ Climbs start n path := by
  cases n with
  | zero => exact getElem?_zero_iff []
  | succ n =>
    refine ⟨nofun, fun h => ?_⟩
    have hlength := (exists_climbs_iff start (n + 1)).1 ⟨path, h⟩
    obtain ⟨parent, hparent, hne⟩ := (exists_parent?_iff start).2 (by omega)
    exact absurd (htop parent hparent) hne

/-- The ancestors of a path are what is reached by going up from it, in this order. -/
theorem getElem?_ancestors (start : RawPath) (n : Nat) (path : RawPath) :
    (ancestors start)[n]? = some path ↔ Climbs start n path := by
  fun_induction ancestors start generalizing n with
  | case1 start hparent => exact getElem?_singleton_iff fun parent heq => by cases hparent.symm.trans heq
  | case2 start hparent =>
    exact getElem?_singleton_iff fun parent heq => (Option.some.inj (hparent.symm.trans heq)).symm
  | case3 start parent hparent hne ih =>
    cases n with
    | zero => exact getElem?_zero_iff _
    | succ n =>
      rw [List.getElem?_cons_succ, Climbs.above hparent hne]
      exact ih n

theorem Climbs.unique {other : RawPath} (h : Climbs start n path) (h' : Climbs start n other) :
    path = other :=
  Option.some.inj (((getElem?_ancestors start n path).2 h).symm.trans ((getElem?_ancestors start n other).2 h'))

/-! ### Above a place -/

theorem dropIdle_of_validNames {absolute : Bool} {parts : List RawPath} (h : ∀ part ∈ parts, ValidName part) :
    dropIdle absolute parts = parts := by
  cases parts with
  | nil => rfl
  | cons part rest =>
    have hpart := h part List.mem_cons_self
    rw [dropIdle, if_neg]
    simp [hpart.ne_nil, hpart.ne_current]

/-- The path of a place without its last step is that of the place above. -/
theorem parent?_path {front : Place} {name : RawPath} (h : ∀ part ∈ front ++ [name], ValidName part) :
    parent? (Place.path (front ++ [name])) = some front.path := by
  have hreverse : dropIdle true (front ++ [name]).reverse = name :: front.reverse := by
    rw [List.reverse_append, List.reverse_singleton, List.singleton_append]
    apply dropIdle_of_validNames
    intro part hpart
    exact h part (by simpa [or_comm] using hpart)
  have hfront : dropIdle true front.reverse = front.reverse := by
    apply dropIdle_of_validNames
    intro part hpart
    exact h part (List.mem_append_left _ (List.mem_reverse.1 hpart))
  simp only [parent?, Place.isAbsolute_path, Place.cutAt_path (by simp) h, List.tail_cons, if_true, hreverse,
    hfront, List.reverse_reverse]
  rfl

/-- Up from the path of a place, there are the paths of the places above it. -/
theorem Climbs.exists_prefix {place : Place} (hvalid : ∀ name ∈ place, ValidName name)
    (h : Climbs place.path n path) : ∃ front behind, place = front ++ behind ∧ path = front.path := by
  induction h with
  | start => exact ⟨place, [], (List.append_nil place).symm, rfl⟩
  | parent _ heq _ ih =>
    obtain ⟨front, behind, hplace, rfl⟩ := ih
    rcases List.eq_nil_or_concat' front with rfl | ⟨before, name, rfl⟩
    · cases heq
    · have hnames : ∀ part ∈ before ++ [name], ValidName part := by
        intro part hpart
        apply hvalid
        rw [hplace]
        exact List.mem_append_left behind hpart
      rw [parent?_path hnames] at heq
      refine ⟨before, name :: behind, ?_, (Option.some.inj heq).symm⟩
      rw [hplace, List.append_assoc, List.singleton_append]

end Path

end TemplateLint
