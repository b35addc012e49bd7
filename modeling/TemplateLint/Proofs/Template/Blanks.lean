import TemplateLint.Proofs.Template.Kinds

/-!
# Blanks between lexemes

Blanks in a tag that stand side by side are one lexeme, and no other lexeme in a tag begins or ends with
a blank. Strings are the reason why this has to be said of the ends only: they can hold any blanks, but
they begin and end with a quote. So the blanks behind the opening delimiter of a tag are its first
lexeme, the blanks before its closing delimiter are its last one, and where the first or the last lexeme
is something else there are none.
-/

namespace TemplateLint

open Lexeme (texts)

/-! ### Ends -/

/-- A text that does not begin with a blank. -/
def StartsSolid (text : List Char) : Prop :=
  ∀ c ∈ text.head?, isBlank c = false

/-- A text that does not end with a blank. -/
def EndsSolid (text : List Char) : Prop :=
  ∀ c ∈ text.getLast?, isBlank c = false

theorem EndsSolid.append {text : List Char} (h : EndsSolid text) (hne : text ≠ [])
    (front : List Char) : EndsSolid (front ++ text) := by
  unfold EndsSolid
  rwa [List.getLast?_append_of_ne_nil front hne]

theorem not_isBlank_of_isGraphic {c : Char} (h : isGraphic c = true) : isBlank c = false := by
  rw [← Bool.not_eq_true]
  intro hblank
  have hrange := toNat_of_isBlank hblank
  simp only [isGraphic, Bool.and_eq_true, decide_eq_true_eq] at h
  omega

theorem solid_of_isGraphic {text : List Char} (h : ∀ c ∈ text, isGraphic c = true) :
    StartsSolid text ∧ EndsSolid text := by
  constructor
  · intro c hc
    exact not_isBlank_of_isGraphic (h c (List.mem_of_mem_head? hc))
  · intro c hc
    exact not_isBlank_of_isGraphic (h c (List.mem_of_mem_getLast? hc))

theorem IsQuoted.solid {text : List Char} (h : IsQuoted text) : StartsSolid text ∧ EndsSolid text := by
  obtain ⟨quote, body, hquote, rfl, -, -⟩ := h
  have hblank : isBlank quote = false := by
    simp only [quotes, List.mem_cons, List.not_mem_nil, or_false] at hquote
    rcases hquote with rfl | rfl <;> decide
  constructor
  · intro c hc
    cases hc
    exact hblank
  · intro c hc
    rw [← List.cons_append, List.getLast?_concat] at hc
    cases hc
    exact hblank

/-- What is not a run of blanks in a tag has none at its ends. -/
theorem IsInner.solid {l : Lexeme} {next : List Char} (h : IsInner l next)
    (hkind : l.kind ≠ .whitespace) : StartsSolid l.text ∧ EndsSolid l.text := by
  by_cases hstring : l.kind = .string
  · cases h with
    | blanks => cases hstring
    | word => exact absurd hstring (wordKind_ne (by decide) (by decide) _)
    | number => cases hstring
    | string h => exact h.solid
    | operator => cases hstring
    | mark => cases hstring
  · have hinner := h.isInner_kind
    have hfree : l.kind.isFree = false := by
      revert hkind hstring hinner
      cases l.kind <;> simp [Token.Kind.isFree, Token.Kind.isInner]
    exact solid_of_isGraphic (h.isVisible hfree)

/-- A run of blanks in a tag is as long as it can be. -/
theorem IsInner.blanks_of_kind {l : Lexeme} {next : List Char} (h : IsInner l next)
    (hkind : l.kind = .whitespace) : (∀ c ∈ l.text, isBlank c = true) ∧ StartsSolid next := by
  cases h with
  | blanks h =>
    obtain ⟨⟨c, cs, rfl, hc, hcs⟩, hnext⟩ := longest_isRun_iff.1 h
    exact ⟨List.forall_mem_cons.2 ⟨hc, hcs⟩, hnext⟩
  | word => exact absurd hkind (wordKind_ne (by decide) (by decide) _)
  | number => cases hkind
  | string => cases hkind
  | operator => cases hkind
  | mark => cases hkind

/-! ### Lexemes in a row -/

/-- Lexemes with characters behind them, none of them empty, in which blanks stand in runs of their own
that cannot be continued. -/
def Separated (next : List Char) : List Lexeme → Prop
  | [] => True
  | l :: more =>
    l.text ≠ [] ∧ Separated next more ∧
      (l.kind = .whitespace → (∀ c ∈ l.text, isBlank c = true) ∧ StartsSolid (texts more ++ next)) ∧
      (l.kind ≠ .whitespace → StartsSolid l.text ∧ EndsSolid l.text)

theorem separated_cons_bracket {next : List Char} {more : List Lexeme} {c : Char}
    (hc : isGraphic c = true) (h : Separated next more) :
    Separated next (⟨.punctuation, [c]⟩ :: more) := by
  refine ⟨by simp, h, fun hkind => (by cases hkind), fun _ => solid_of_isGraphic ?_⟩
  simpa using hc

theorem Inside.separated {tag : Tag} {next : List Char} {opened : List Bracket}
    {inner : List Lexeme} (h : Inside tag next opened inner) : Separated next inner := by
  induction h with
  | done => trivial
  | inner hl _ _ ih => exact ⟨hl.text_ne_nil, ih, hl.blanks_of_kind, hl.solid⟩
  | opening bracket _ ih => exact separated_cons_bracket (by cases bracket <;> decide) ih
  | closing bracket _ ih => exact separated_cons_bracket (by cases bracket <;> decide) ih

/-- The text of a lexeme, if there is one and it is blank. -/
def blanksOf (l : Option Lexeme) : List Char :=
  match l with
  | some ⟨.whitespace, text⟩ => text
  | _ => []

theorem blanksOf_of_kind {l : Lexeme} (h : l.kind = .whitespace) : blanksOf (some l) = l.text := by
  obtain ⟨kind, text⟩ := l
  cases h
  rfl

theorem blanksOf_of_kind_ne {l : Lexeme} (h : l.kind ≠ .whitespace) : blanksOf (some l) = [] := by
  obtain ⟨kind, text⟩ := l
  cases kind <;> first | rfl | exact absurd rfl h

theorem takeWhile_of_startsSolid {text : List Char} (h : StartsSolid text) :
    text.takeWhile isBlank = [] := by
  cases text with
  | nil => rfl
  | cons c rest => simp [h c rfl]

theorem rtakeWhile_of_endsSolid {text : List Char} (h : EndsSolid text) :
    text.rtakeWhile isBlank = [] := by
  rw [List.rtakeWhile_eq_nil_iff]
  intro hne
  simp [h _ (List.getLast?_eq_some_getLast hne)]

theorem Separated.leading {next : List Char} {lexemes : List Lexeme} (h : Separated next lexemes)
    (hnext : StartsSolid next) :
    (texts lexemes ++ next).takeWhile isBlank = blanksOf lexemes.head? := by
  cases lexemes with
  | nil => exact takeWhile_of_startsSolid hnext
  | cons l more =>
    obtain ⟨hne, -, hblanks, hsolid⟩ := h
    rw [Lexeme.texts_cons, List.append_assoc, List.head?_cons]
    by_cases hkind : l.kind = .whitespace
    · obtain ⟨hall, hstop⟩ := hblanks hkind
      rw [blanksOf_of_kind hkind, takeWhile_append_of_stop hall hstop]
    · rw [blanksOf_of_kind_ne hkind]
      apply takeWhile_of_startsSolid
      unfold StartsSolid
      rw [List.head?_append_of_ne_nil _ hne]
      exact (hsolid hkind).1

theorem Separated.texts_ne_nil {next : List Char} {lexemes : List Lexeme}
    (h : Separated next lexemes) (hne : lexemes ≠ []) : texts lexemes ≠ [] := by
  cases lexemes with
  | nil => exact absurd rfl hne
  | cons l more =>
    rw [Lexeme.texts_cons]
    exact List.append_ne_nil_of_left_ne_nil h.1 _

theorem Separated.trailing {next : List Char} {lexemes : List Lexeme} (h : Separated next lexemes) :
    (texts lexemes).rtakeWhile isBlank = blanksOf lexemes.getLast? := by
  induction lexemes with
  | nil => rfl
  | cons l more ih =>
    obtain ⟨hne, hmore, hblanks, hsolid⟩ := h
    cases more with
    | nil =>
      rw [Lexeme.texts_cons, Lexeme.texts_nil, List.append_nil, List.getLast?_singleton]
      by_cases hkind : l.kind = .whitespace
      · rw [blanksOf_of_kind hkind, List.rtakeWhile_eq_self_iff]
        exact (hblanks hkind).1
      · rw [blanksOf_of_kind_ne hkind, rtakeWhile_of_endsSolid (hsolid hkind).2]
    | cons second more =>
      rw [List.getLast?_cons_cons, ← ih hmore, Lexeme.texts_cons, rtakeWhile_append]
      split
      · next hall =>
        rw [List.all_eq_true] at hall
        -- Only blanks follow, so this lexeme is not blank itself and they stop at it.
        have hkind : l.kind ≠ .whitespace := by
          intro hkind
          obtain ⟨c, rest, htexts⟩ :=
            List.exists_cons_of_ne_nil (hmore.texts_ne_nil (List.cons_ne_nil second more))
          have hstop := (hblanks hkind).2 c (by rw [htexts]; rfl)
          rw [hall c (by rw [htexts]; simp)] at hstop
          cases hstop
        rw [rtakeWhile_of_endsSolid (hsolid hkind).2, List.nil_append,
          List.rtakeWhile_eq_self_iff.2 hall]
      · rfl

end TemplateLint
