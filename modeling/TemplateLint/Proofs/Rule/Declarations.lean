import Mathlib.Data.List.Basic
import Mathlib.Data.List.Forall2
import TemplateLint.Rule.LowerCaseVariable

/-!
# The names that are declared

The rule about names of variables starts at every token that opens a block tag and runs ahead over
tokens that it comes back to later. That it still reports a name once, and no name that is not declared,
is not plain from the way it runs. Here it is compared with a single pass that never looks ahead. The
pass knows of the tokens behind it only one of three things: they end with the start of a block tag and
blanks, or with the start of a declaration, or with neither. A token that opens a block tag makes it
forget everything else, which is why scans from two such tokens cannot meet.

What the pass knows at an index can be said with the indices before it, and both sayings have the form
of `Since`. So the rule is exact for every list of tokens, whether it was read from a template or not.
-/

namespace TemplateLint

/-- Whether there is a token at an index and it has a property. -/
def Token.At (tokens : List Token) (index : Nat) (P : Token → Prop) : Prop :=
  ∃ t, tokens[index]? = some t ∧ P t

namespace LowerCaseVariable

/-! ### Lower case -/

/-- What the pattern `^_?[a-z][a-z0-9_]*$` describes. -/
def IsLowerName (name : List Char) : Prop :=
  ∃ mark c rest, name = mark ++ c :: rest ∧ (mark = [] ∨ mark = ['_']) ∧ ('a' ≤ c ∧ c ≤ 'z') ∧
    ∀ d ∈ rest, ('a' ≤ d ∧ d ≤ 'z') ∨ ('0' ≤ d ∧ d ≤ '9') ∨ d = '_'

theorem isLower_iff (c : Char) : c.isLower = true ↔ 'a' ≤ c ∧ c ≤ 'z' := by
  show (decide ('a'.val ≤ c.val) && decide (c.val ≤ 'z'.val)) = true ↔ _
  rw [Bool.and_eq_true, decide_eq_true_iff, decide_eq_true_iff]
  rfl

theorem isNamePart_iff (c : Char) :
    isNamePart c = true ↔ ('a' ≤ c ∧ c ≤ 'z') ∨ ('0' ≤ c ∧ c ≤ '9') ∨ c = '_' := by
  have hdigit : c.isDigit = true ↔ '0' ≤ c ∧ c ≤ '9' := by
    simp only [Char.isDigit, Bool.and_eq_true, decide_eq_true_eq]
    rfl
  simp only [isNamePart, Bool.or_eq_true, isLower_iff, hdigit, beq_iff_eq, or_assoc]

theorem isLowerWord_iff (word : List Char) :
    isLowerWord word = true ↔ ∃ c rest, word = c :: rest ∧ ('a' ≤ c ∧ c ≤ 'z') ∧
      ∀ d ∈ rest, ('a' ≤ d ∧ d ≤ 'z') ∨ ('0' ≤ d ∧ d ≤ '9') ∨ d = '_' := by
  cases word with
  | nil => simp [isLowerWord]
  | cons c rest =>
    simp only [isLowerWord, Bool.and_eq_true, isLower_iff, List.all_eq_true, isNamePart_iff]
    constructor
    · intro h
      exact ⟨c, rest, rfl, h⟩
    · rintro ⟨c', rest', heq, h⟩
      cases heq
      exact h

theorem isLowerCase_iff (name : List Char) : isLowerCase name = true ↔ IsLowerName name := by
  unfold isLowerCase
  split
  · next rest =>
    rw [isLowerWord_iff]
    constructor
    · rintro ⟨c, more, rfl, hword⟩
      exact ⟨['_'], c, more, rfl, .inr rfl, hword⟩
    · rintro ⟨mark, c, more, heq, rfl | rfl, hc, hmore⟩
      · cases heq
        exact absurd hc (by decide)
      · cases heq
        exact ⟨c, more, rfl, hc, hmore⟩
  · next hmark =>
    rw [isLowerWord_iff]
    constructor
    · rintro ⟨c, more, rfl, hword⟩
      exact ⟨[], c, more, rfl, .inl rfl, hword⟩
    · rintro ⟨mark, c, more, rfl, rfl | rfl, hword⟩
      · exact ⟨c, more, rfl, hword⟩
      · exact absurd rfl (hmark (c :: more))

/-! ### A single pass -/

/-- What a single pass knows of the tokens behind it. -/
inductive Stage where
  | elsewhere
  /-- Behind the start of a block tag, with nothing but blanks since. -/
  | opened
  /-- Behind `set`, with nothing since that ends a declaration. -/
  | declaring
  deriving DecidableEq

/-- Whether a declaration goes on behind a token. -/
def continues (t : Token) : Bool :=
  t.is .whitespace || t.is .name || t.isValue .punctuation ","

namespace Stage

/-- The stage behind one more token. -/
def next (stage : Stage) (t : Token) : Stage :=
  if t.is .blockStart then .opened
  else
    match stage with
    | .elsewhere => .elsewhere
    | .opened =>
      if t.is .whitespace then .opened
      else if t.isValue .name "set" then .declaring
      else .elsewhere
    | .declaring => if continues t then .declaring else .elsewhere

/-- The stage behind a run of tokens. -/
def run (stage : Stage) (tokens : List Token) : Stage :=
  tokens.foldl next stage

/-- The names that are declared in a run of tokens. -/
def names (stage : Stage) : List Token → List Token
  | [] => []
  | t :: rest =>
    if t.is .name && stage == .declaring then t :: (stage.next t).names rest
    else (stage.next t).names rest

/-- The names that the scan under way in a stage still gets to. -/
def ahead (stage : Stage) (tokens : List Token) : List Token :=
  match stage with
  | .elsewhere => []
  | .opened =>
    match Token.significant tokens with
    | word :: names => if word.isValue .name "set" then declared names else []
    | [] => []
  | .declaring => declared (Token.significant tokens)

end Stage

theorem targets_eq (t : Token) (rest : List Token) :
    targets t rest = if t.is .blockStart then Stage.opened.ahead rest else [] := rfl

theorem is_of_is {t : Token} {kind other : Token.Kind} (h : t.is kind = true) (hne : kind ≠ other) :
    t.is other = false := by
  rw [Token.is, beq_iff_eq] at h
  rw [Token.is, h, beq_eq_false_iff_ne]
  exact hne

theorem isValue_of_is {t : Token} {kind other : Token.Kind} (h : t.is kind = true)
    (hne : kind ≠ other) (value : String) : t.isValue other value = false := by
  have hother : (t.kind == other) = false := is_of_is h hne
  rw [Token.isValue, hother, Bool.false_and]

theorem continues_of_blockStart {t : Token} (h : t.is .blockStart = true) : continues t = false := by
  rw [continues, is_of_is h (by decide), is_of_is h (by decide), isValue_of_is h (by decide)]
  rfl

theorem ahead_opened_cons (t : Token) (rest : List Token) :
    Stage.opened.ahead (t :: rest) =
      if t.is .whitespace then Stage.opened.ahead rest
      else if t.isValue .name "set" then Stage.declaring.ahead rest
      else [] := by
  by_cases hblank : t.is .whitespace = true
  · rw [if_pos hblank, Stage.ahead, Stage.ahead, Token.significant_cons, if_pos hblank]
  · rw [if_neg hblank, Stage.ahead, Token.significant_cons, if_neg hblank]
    rfl

theorem ahead_declaring_cons (t : Token) (rest : List Token) :
    Stage.declaring.ahead (t :: rest) =
      if continues t then (if t.is .name then [t] else []) ++ Stage.declaring.ahead rest else [] := by
  simp only [Stage.ahead, Token.significant_cons, continues]
  by_cases hblank : t.is .whitespace = true
  · have hname : t.is .name = false := is_of_is hblank (by decide)
    simp [hblank, hname]
  · rw [if_neg hblank, declared]
    by_cases hname : t.is .name = true
    · simp [hname]
    · simp [hblank, hname]

/-- At one token: what the scan under way takes of it, and the scan that starts at it. -/
theorem ahead_cons (stage : Stage) (t : Token) (rest : List Token) :
    stage.ahead (t :: rest) ++ targets t rest =
      (if t.is .name && stage == .declaring then [t] else []) ++ (stage.next t).ahead rest := by
  rw [targets_eq]
  by_cases hstart : t.is .blockStart = true
  · -- Every scan ends here, and a new one starts.
    have hblank : t.is .whitespace = false := is_of_is hstart (by decide)
    have hname : t.is .name = false := is_of_is hstart (by decide)
    have hset : t.isValue .name "set" = false := isValue_of_is hstart (by decide) "set"
    have hended : stage.ahead (t :: rest) = [] := by
      cases stage with
      | elsewhere => rfl
      | opened => simp [ahead_opened_cons, hblank, hset]
      | declaring => simp [ahead_declaring_cons, continues_of_blockStart hstart]
    simp [Stage.next, hstart, hname, hended]
  · rw [if_neg hstart, List.append_nil]
    unfold Stage.next
    rw [if_neg hstart]
    cases stage with
    | elsewhere => simp [Stage.ahead]
    | opened =>
      rw [ahead_opened_cons]
      by_cases hblank : t.is .whitespace = true
      · simp [hblank]
      · by_cases hset : t.isValue .name "set" = true
        · simp [hblank, hset]
        · simp [hblank, hset, Stage.ahead]
    | declaring =>
      rw [ahead_declaring_cons]
      by_cases hgoes : continues t = true
      · simp [hgoes]
      · have hname : ¬ t.is .name = true := by
          intro hname
          exact hgoes (by simp [continues, hname])
        simp [hgoes, hname, Stage.ahead]

theorem names_eq (stage : Stage) (tokens : List Token) :
    stage.names tokens = stage.ahead tokens ++ allTargets tokens := by
  induction tokens generalizing stage with
  | nil => cases stage <;> rfl
  | cons t rest ih =>
    rw [allTargets, ← List.append_assoc, ahead_cons, List.append_assoc, ← ih, Stage.names]
    split <;> rfl

/-- **The rule needs no second look.** -/
theorem allTargets_eq_names (tokens : List Token) : allTargets tokens = Stage.elsewhere.names tokens := by
  rw [names_eq]
  rfl

/-! ### Indices -/

/-- Something held at an index before this one, and something else has held at all indices since. -/
def Since (P Q : Nat → Prop) (j : Nat) : Prop :=
  ∃ i < j, P i ∧ ∀ m, i < m → m < j → Q m

theorem not_since_zero (P Q : Nat → Prop) : ¬ Since P Q 0 := by
  rintro ⟨i, hi, -⟩
  omega

theorem since_succ (P Q : Nat → Prop) (j : Nat) : Since P Q (j + 1) ↔ P j ∨ Since P Q j ∧ Q j := by
  constructor
  · rintro ⟨i, hi, hP, hQ⟩
    by_cases hlast : i = j
    · exact .inl (hlast ▸ hP)
    · refine .inr ⟨⟨i, by omega, hP, fun m him hmj => hQ m him (by omega)⟩, hQ j (by omega) (by omega)⟩
  · rintro (hP | ⟨⟨i, hi, hP, hQ⟩, hlast⟩)
    · exact ⟨j, by omega, hP, fun m _ _ => by omega⟩
    · refine ⟨i, by omega, hP, fun m him hmj => ?_⟩
      by_cases hm : m = j
      · exact hm ▸ hlast
      · exact hQ m him (by omega)

/-- The start of a block tag stands before an index, with nothing but blanks between. -/
def OpenedAt (tokens : List Token) : Nat → Prop :=
  Since (fun i => Token.At tokens i fun t => t.kind = .blockStart)
    (fun m => Token.At tokens m fun t => t.kind = .whitespace)

/-- The word `set` stands before an index as the first one of a block tag, with nothing between that
ends a declaration. -/
def DeclaringAt (tokens : List Token) : Nat → Prop :=
  Since (fun k => OpenedAt tokens k ∧ Token.At tokens k fun t => t.kind = .name ∧ t.value = "set")
    (fun m => Token.At tokens m fun t =>
      t.kind = .whitespace ∨ t.kind = .name ∨ t.kind = .punctuation ∧ t.value = ",")

theorem at_iff {tokens : List Token} {j : Nat} {t : Token} (h : tokens[j]? = some t)
    (P : Token → Prop) : Token.At tokens j P ↔ P t := by
  constructor
  · rintro ⟨u, hu, hP⟩
    rw [h] at hu
    cases hu
    exact hP
  · intro hP
    exact ⟨t, h, hP⟩

theorem next_eq_opened_iff (stage : Stage) (t : Token) :
    stage.next t = .opened ↔ t.kind = .blockStart ∨ stage = .opened ∧ t.kind = .whitespace := by
  by_cases hstart : t.kind = .blockStart
  · simp [Stage.next, Token.is, hstart]
  · cases stage with
    | elsewhere => simp [Stage.next, Token.is, hstart]
    | opened =>
      by_cases hblank : t.kind = .whitespace
      · simp [Stage.next, Token.is, hblank]
      · simp only [Stage.next, Token.is, beq_iff_eq, hstart, hblank, if_false]
        split <;> simp
    | declaring =>
      simp only [Stage.next, Token.is, beq_iff_eq, hstart, if_false]
      split <;> simp

theorem next_eq_declaring_iff (stage : Stage) (t : Token) :
    stage.next t = .declaring ↔ (stage = .opened ∧ t.kind = .name ∧ t.value = "set") ∨
      stage = .declaring ∧
        (t.kind = .whitespace ∨ t.kind = .name ∨ t.kind = .punctuation ∧ t.value = ",") := by
  by_cases hstart : t.kind = .blockStart
  · simp [Stage.next, Token.is, hstart]
  · cases stage with
    | elsewhere => simp [Stage.next, Token.is, hstart]
    | opened =>
      by_cases hblank : t.kind = .whitespace
      · simp [Stage.next, Token.is, hblank]
      · simp only [Stage.next, Token.is, Token.isValue, beq_iff_eq, hstart, hblank, if_false,
          Bool.and_eq_true]
        split <;> simp_all
    | declaring =>
      simp only [Stage.next, Token.is, beq_iff_eq, hstart, if_false, continues, Token.isValue,
        Bool.or_eq_true, Bool.and_eq_true, or_assoc]
      split <;> simp_all

/-- What the pass knows at an index is what stands before the index. -/
theorem run_take {tokens : List Token} {j : Nat} (hj : j ≤ tokens.length) :
    (Stage.elsewhere.run (tokens.take j) = .opened ↔ OpenedAt tokens j) ∧
      (Stage.elsewhere.run (tokens.take j) = .declaring ↔ DeclaringAt tokens j) := by
  induction j with
  | zero =>
    rw [List.take_zero]
    constructor
    · exact iff_of_false (by decide) (not_since_zero _ _)
    · exact iff_of_false (by decide) (not_since_zero _ _)
  | succ j ih =>
    obtain ⟨hopened, hdeclaring⟩ := ih (by omega)
    have ht : tokens[j]? = some tokens[j] := List.getElem?_eq_getElem hj
    have hrun : Stage.elsewhere.run (tokens.take (j + 1)) =
        (Stage.elsewhere.run (tokens.take j)).next tokens[j] := by
      rw [List.take_succ_eq_append_getElem hj, Stage.run, List.foldl_append]
      rfl
    rw [hrun, next_eq_opened_iff, next_eq_declaring_iff, hopened, hdeclaring]
    constructor
    · rw [OpenedAt, since_succ, at_iff ht, at_iff ht]
    · rw [DeclaringAt, since_succ, at_iff ht, at_iff ht]

/-- Whether the pass takes a token with its index for a declared name. -/
def Stage.takes (stage : Stage) (tokens : List Token) (p : Token × Nat) : Bool :=
  p.1.is .name && stage.run (tokens.take p.2) == .declaring

theorem names_eq_filter (stage : Stage) (tokens : List Token) :
    stage.names tokens = (tokens.zipIdx.filter (stage.takes tokens)).map Prod.fst := by
  induction tokens generalizing stage with
  | nil => rfl
  | cons t rest ih =>
    have hrest : ((rest.zipIdx 1).filter (stage.takes (t :: rest))).map Prod.fst =
        (stage.next t).names rest := by
      rw [ih, List.zipIdx_succ, List.filter_map, List.map_map]
      rfl
    have hfirst : stage.takes (t :: rest) (t, 0) = (t.is .name && stage == .declaring) := rfl
    rw [List.zipIdx_cons, List.filter_cons, hfirst, Stage.names]
    split
    · rw [List.map_cons, hrest]
    · exact hrest.symm

/-! ### The rule -/

/-- A name at an index is declared: there are a token that opens a block tag and, with only blanks
between, the word `set`, and from there up to the index only blanks, names and commas. -/
def IsDeclared (tokens : List Token) (j : Nat) : Prop :=
  ∃ i k, i < k ∧ k < j ∧
    (Token.At tokens i fun t => t.kind = .blockStart) ∧
    (Token.At tokens k fun t => t.kind = .name ∧ t.value = "set") ∧
    (∀ m, i < m → m < k → Token.At tokens m fun t => t.kind = .whitespace) ∧
    ∀ m, k < m → m < j → Token.At tokens m fun t =>
      t.kind = .whitespace ∨ t.kind = .name ∨ t.kind = .punctuation ∧ t.value = ","

theorem declaringAt_iff (tokens : List Token) (j : Nat) :
    DeclaringAt tokens j ↔ IsDeclared tokens j := by
  constructor
  · rintro ⟨k, hkj, ⟨⟨i, hik, hstart, hblanks⟩, hset⟩, hgoes⟩
    exact ⟨i, k, hik, hkj, hstart, hset, hblanks, hgoes⟩
  · rintro ⟨i, k, hik, hkj, hstart, hset, hblanks, hgoes⟩
    exact ⟨k, hkj, ⟨⟨i, hik, hstart, hblanks⟩, hset⟩, hgoes⟩

theorem takes_iff {tokens : List Token} {j : Nat} {t : Token} (ht : tokens[j]? = some t) :
    Stage.elsewhere.takes tokens (t, j) = true ↔ t.kind = .name ∧ IsDeclared tokens j := by
  have hj : j < tokens.length := (List.getElem?_eq_some_iff.1 ht).1
  simp only [Stage.takes, Bool.and_eq_true, Token.is, beq_iff_eq]
  rw [(run_take (by omega)).2, declaringAt_iff]

/-- **Just the declared names are checked, each of them once.** Whatever the tokens are, the findings
stand one by one for the indices of the declared names that are not in lower case, in ascending
order. -/
theorem check_declared (rule : LowerCaseVariable) (stream : TokenStream) :
    ∃ indices : List Nat, indices.Pairwise (· < ·) ∧
      (∀ j, j ∈ indices ↔
        (Token.At stream.tokens j fun t => t.kind = .name ∧ ¬ IsLowerName t.value.toList) ∧
          IsDeclared stream.tokens j) ∧
      List.Forall₂ (fun j v => Token.At stream.tokens j fun t =>
        v = ⟨stream.path, t.position,
          "The \"" ++ t.value ++ "\" variable should be in lower case (use _ as a separator).",
          rule.severity⟩) indices (rule.check stream) := by
  let reported (p : Token × Nat) : Bool :=
    !isLowerCase p.1.value.toList && Stage.elsewhere.takes stream.tokens p
  have hcheck : rule.check stream = (stream.tokens.zipIdx.filter reported).map fun p =>
      ⟨stream.path, p.1.position,
        "The \"" ++ p.1.value ++ "\" variable should be in lower case (use _ as a separator).",
        rule.severity⟩ := by
    rw [check, allTargets_eq_names, names_eq_filter, List.filter_map, List.map_map, List.filter_filter]
    rfl
  refine ⟨(stream.tokens.zipIdx.filter reported).map Prod.snd, ?_, fun j => ?_, ?_⟩
  · have hindices : List.Sublist ((stream.tokens.zipIdx.filter reported).map Prod.snd)
        (stream.tokens.zipIdx.map Prod.snd) := List.filter_sublist.map Prod.snd
    rw [List.zipIdx_map_snd] at hindices
    exact (List.pairwise_lt_range' 1).sublist hindices
  · rw [List.mem_map]
    constructor
    · rintro ⟨⟨t, j⟩, hmem, rfl⟩
      obtain ⟨hmem, hreported⟩ := List.mem_filter.1 hmem
      have ht : stream.tokens[j]? = some t := List.mem_zipIdx_iff_getElem?.1 hmem
      obtain ⟨hcase, htakes⟩ := Bool.and_eq_true_iff.1 hreported
      obtain ⟨hname, hdeclared⟩ := (takes_iff ht).1 htakes
      refine ⟨⟨t, ht, hname, fun hlower => ?_⟩, hdeclared⟩
      rw [← isLowerCase_iff] at hlower
      simp [hlower] at hcase
    · rintro ⟨⟨t, ht, hname, hcase⟩, hdeclared⟩
      refine ⟨(t, j), List.mem_filter.2 ⟨List.mem_zipIdx_iff_getElem?.2 ht, ?_⟩, rfl⟩
      rw [← isLowerCase_iff, Bool.not_eq_true] at hcase
      exact Bool.and_eq_true_iff.2 ⟨by simp [hcase], (takes_iff ht).2 ⟨hname, hdeclared⟩⟩
  · rw [hcheck, List.forall₂_map_left_iff, List.forall₂_map_right_iff, List.forall₂_same]
    intro p hp
    exact ⟨p.1, List.mem_zipIdx_iff_getElem?.1 (List.mem_of_mem_filter hp), rfl⟩

end LowerCaseVariable

end TemplateLint
