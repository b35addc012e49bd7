import Mathlib.Data.List.Infix
import TemplateLint.Template.Lexeme

/-!
# The languages of lexemes

What may be written as a delimiter, a run of blanks, a word, a number, a string or an operator, said
without reading anything. A lexeme is the longest text of its language at the front of what lies
ahead, and `Longest` says that once for all languages: it fixes the lexeme, it still holds when less
lies ahead, and it holds with more ahead as soon as the next two characters are known. The last part
is the reason why a template can be read without looking further than two characters past a lexeme.
Strings are complete by themselves, so nothing has to be said about their length.
-/

namespace TemplateLint

/-- A text of a language with characters behind it that do not continue it to a longer one. -/
def Longest (P : List Char → Prop) (text next : List Char) : Prop :=
  P text ∧ ∀ w, w <+: text ++ next → P w → w.length ≤ text.length

namespace Longest

variable {P : List Char → Prop} {text next : List Char}

theorem of_append {more : List Char} (h : Longest P text (next ++ more)) : Longest P text next := by
  refine ⟨h.1, fun w hw hPw => h.2 w ?_ hPw⟩
  exact hw.trans ⟨more, by rw [List.append_assoc]⟩

/-- A language whose texts are all short enough to be seen whole never looks at what follows. -/
theorem append_of_bounded (h : Longest P text next) (more : List Char)
    (hbound : ∀ w, P w → w.length ≤ (text ++ next).length) : Longest P text (next ++ more) := by
  refine ⟨h.1, fun w hw hPw => h.2 w ?_ hPw⟩
  rw [← List.append_assoc] at hw
  exact List.prefix_of_prefix_length_le hw (List.prefix_append _ _) (hbound w hPw)

/-- The same said forwards: no characters of those behind the text continue it. -/
theorem iff_continued : Longest P text next ↔
    P text ∧ ∀ c cs, c :: cs <+: next → ¬ P (text ++ c :: cs) := by
  constructor
  · intro h
    obtain ⟨htext, hlongest⟩ := h
    refine ⟨htext, fun c cs hcs hP => ?_⟩
    have hle := hlongest _ ((List.prefix_append_right_inj text).2 hcs) hP
    rw [List.length_append, List.length_cons] at hle
    omega
  · intro h
    obtain ⟨htext, hcontinued⟩ := h
    refine ⟨htext, fun w hw hP => ?_⟩
    by_contra hlt
    obtain ⟨rest, rfl⟩ := List.prefix_of_prefix_length_le (List.prefix_append text next) hw (by omega)
    cases rest with
    | nil => simp at hlt
    | cons c cs => exact hcontinued c cs ((List.prefix_append_right_inj text).1 hw) hP

/-- Some text of the language at the front is enough for there to be a longest one. -/
theorem exists_of_prefix {w chars : List Char} (hP : P w) (hw : w <+: chars) :
    ∃ text next, chars = text ++ next ∧ Longest P text next := by
  induction hgap : chars.length - w.length using Nat.strong_induction_on generalizing w with
  | _ gap ih =>
    obtain ⟨next, rfl⟩ := hw
    by_cases hlongest : Longest P w next
    · exact ⟨w, next, rfl, hlongest⟩
    · have hlonger : ∃ v, v <+: w ++ next ∧ P v ∧ w.length < v.length := by
        by_contra hnone
        push Not at hnone
        exact hlongest ⟨hP, hnone⟩
      obtain ⟨v, hv, hPv, hlt⟩ := hlonger
      have hle := hv.length_le
      exact ih ((w ++ next).length - v.length) (by omega) hPv hv rfl

end Longest

/-! ### Runs -/

/-- A character of one class, and then only characters of another. -/
def IsRun (first part : Char → Bool) (text : List Char) : Prop :=
  ∃ c cs, text = c :: cs ∧ first c = true ∧ ∀ d ∈ cs, part d = true

def IsBlanks : List Char → Prop := IsRun isBlank isBlank

def IsWord : List Char → Prop := IsRun isWordStart isWordPart

theorem IsRun.append_iff {first part : Char → Bool} {text more : List Char}
    (h : IsRun first part text) :
    IsRun first part (text ++ more) ↔ ∀ d ∈ more, part d = true := by
  obtain ⟨c, cs, rfl, hc, hcs⟩ := h
  constructor
  · intro hrun d hd
    obtain ⟨c', cs', heq, -, hall⟩ := hrun
    cases heq
    exact hall d (List.mem_append_right cs hd)
  · intro hmore
    refine ⟨c, cs ++ more, rfl, hc, fun d hd => ?_⟩
    rcases List.mem_append.1 hd with hd | hd
    · exact hcs d hd
    · exact hmore d hd

/-- A run is the longest one exactly if the next character is not of its class. -/
theorem longest_isRun_iff {first part : Char → Bool} {text next : List Char} :
    Longest (IsRun first part) text next ↔
      IsRun first part text ∧ ∀ d ∈ next.head?, part d = false := by
  rw [Longest.iff_continued]
  refine and_congr_right fun hrun => ?_
  cases next with
  | nil => simp
  | cons e behind =>
    have hcontinued : ∀ c cs, ¬ IsRun first part (text ++ c :: cs) ↔
        ∃ d ∈ c :: cs, ¬ part d = true := by
      intro c cs
      simp only [hrun.append_iff, not_forall, exists_prop]
    simp only [hcontinued, List.head?_cons, Option.mem_some_iff, forall_eq']
    constructor
    · intro h
      obtain ⟨d, hd, hpart⟩ := h e [] ⟨behind, rfl⟩
      rw [List.mem_singleton.1 hd] at hpart
      simpa using hpart
    · intro hpart c cs hcontinues
      obtain ⟨more, hmore⟩ := hcontinues
      cases hmore
      exact ⟨e, by simp, by simp [hpart]⟩

theorem Longest.run_append {first part : Char → Bool} {text next : List Char}
    (h : Longest (IsRun first part) text next) (hnext : next ≠ []) (more : List Char) :
    Longest (IsRun first part) text (next ++ more) := by
  rw [longest_isRun_iff] at h ⊢
  refine ⟨h.1, ?_⟩
  rw [List.head?_append_of_ne_nil next hnext]
  exact h.2

/-! ### Numbers -/

/-- At least one character, and only digits. -/
def IsDigits (text : List Char) : Prop :=
  text ≠ [] ∧ ∀ d ∈ text, d.isDigit = true

/-- Digits, and perhaps a point and more digits. -/
def IsNumber (text : List Char) : Prop :=
  IsDigits text ∨ ∃ whole fraction, IsDigits whole ∧ IsDigits fraction ∧
    text = whole ++ '.' :: fraction

/-- Characters that do not continue a number: no digit, and no point with a digit behind it unless the
number has a point already. -/
def EndsNumber (text next : List Char) : Prop :=
  (∀ d ∈ next.head?, d.isDigit = false) ∧
    (IsDigits text → ∀ d more, next = '.' :: d :: more → d.isDigit = false)

theorem IsDigits.concat {text : List Char} (h : IsDigits text) {d : Char} (hd : d.isDigit = true) :
    IsDigits (text ++ [d]) := by
  refine ⟨by simp, fun e he => ?_⟩
  rcases List.mem_append.1 he with he | he
  · exact h.2 e he
  · rw [List.mem_singleton.1 he]
    exact hd

theorem IsNumber.concat {text : List Char} (h : IsNumber text) {d : Char} (hd : d.isDigit = true) :
    IsNumber (text ++ [d]) := by
  rcases h with hdigits | ⟨whole, fraction, hwhole, hfraction, rfl⟩
  · exact .inl (hdigits.concat hd)
  · exact .inr ⟨whole, fraction ++ [d], hwhole, hfraction.concat hd, by simp⟩

/-- Where a number stops being digits, its point stands, and it is the only one. -/
theorem IsNumber.of_not_digit {front back : List Char} {e : Char}
    (h : IsNumber (front ++ e :: back)) (he : e.isDigit = false) :
    e = '.' ∧ IsDigits front ∧ IsDigits back := by
  rcases h with hdigits | ⟨whole, fraction, hwhole, hfraction, heq⟩
  · have := hdigits.2 e (by simp)
    simp [this] at he
  · rcases List.append_eq_append_iff.1 heq with ⟨mid, hwhole', hback⟩ | ⟨mid, hfront, hfraction'⟩
    · cases mid with
      | nil =>
        cases hback
        exact ⟨rfl, by simpa [hwhole'] using hwhole, hfraction⟩
      | cons x mid =>
        cases hback
        have := hwhole.2 e (by simp [hwhole'])
        simp [this] at he
    · cases mid with
      | nil =>
        cases hfraction'
        exact ⟨rfl, by simpa [hfront] using hwhole, hfraction⟩
      | cons x mid =>
        cases hfraction'
        have := hfraction.2 e (by simp)
        simp [this] at he

theorem longest_isNumber_iff {text next : List Char} :
    Longest IsNumber text next ↔ IsNumber text ∧ EndsNumber text next := by
  rw [Longest.iff_continued]
  refine and_congr_right fun hnumber => ⟨fun hlongest => ⟨?_, ?_⟩, ?_⟩
  · intro d hd
    by_contra hdigit
    cases next with
    | nil => simp at hd
    | cons e more =>
      cases hd
      exact hlongest d [] ⟨more, rfl⟩ (hnumber.concat (by simpa using hdigit))
  · intro hdigits d more hnext
    subst hnext
    by_contra hdigit
    have hfraction : IsDigits [d] := ⟨by simp, by simpa using hdigit⟩
    exact hlongest '.' [d] ⟨more, rfl⟩ (.inr ⟨text, [d], hdigits, hfraction, rfl⟩)
  · intro hends c cs hcontinues hlonger
    obtain ⟨hhead, hpoint⟩ := hends
    obtain ⟨more, rfl⟩ := hcontinues
    -- The next character is no digit, so it is the point of the longer number.
    obtain ⟨rfl, hdigits, hfraction⟩ := hlonger.of_not_digit (hhead c rfl)
    obtain ⟨d, ds, rfl⟩ := List.exists_cons_of_ne_nil hfraction.1
    have hno := hpoint hdigits d (ds ++ more) rfl
    rw [hfraction.2 d (by simp)] at hno
    cases hno

theorem Longest.number_append {text next : List Char} (h : Longest IsNumber text next)
    (hnext : 2 ≤ next.length) (more : List Char) : Longest IsNumber text (next ++ more) := by
  rw [longest_isNumber_iff] at h ⊢
  obtain ⟨hnumber, hhead, hpoint⟩ := h
  obtain ⟨x, y, ahead, rfl⟩ : ∃ x y ahead, next = x :: y :: ahead := by
    match next, hnext with
    | x :: y :: ahead, _ => exact ⟨x, y, ahead, rfl⟩
  refine ⟨hnumber, by simpa using hhead, fun hdigits d behind heq => ?_⟩
  simp only [List.cons_append, List.cons.injEq] at heq
  exact hpoint hdigits d ahead (by rw [heq.1, heq.2.1])

/-! ### Strings -/

/-- A text in which every backslash has the character that it takes with it. -/
inductive Escaped : List Char → Prop
  | nil : Escaped []
  | plain {c : Char} {more : List Char} : c ≠ '\\' → Escaped more → Escaped (c :: more)
  | pair {c : Char} {more : List Char} : Escaped more → Escaped ('\\' :: c :: more)

/-- A character occurs in a text and no backslash takes it. -/
def OccursPlain (c : Char) (text : List Char) : Prop :=
  ∃ front back, text = front ++ c :: back ∧ Escaped front

/-- The characters that open and close strings. -/
def quotes : List Char := ['"', '\x27']

/-- A string, from its opening quote to the first quote like it that counts. -/
def IsQuoted (text : List Char) : Prop :=
  ∃ quote body, quote ∈ quotes ∧ text = quote :: (body ++ [quote]) ∧ Escaped body ∧
    ¬ OccursPlain quote body

theorem not_occursPlain_nil (c : Char) : ¬ OccursPlain c [] := by
  intro h
  obtain ⟨front, back, heq, -⟩ := h
  simp at heq

theorem occursPlain_cons {c d : Char} {text : List Char} (hd : d ≠ '\\') :
    OccursPlain c (d :: text) ↔ d = c ∨ OccursPlain c text := by
  constructor
  · intro h
    obtain ⟨front, back, heq, hfront⟩ := h
    cases hfront with
    | nil =>
      cases heq
      exact .inl rfl
    | plain _ hmore =>
      cases heq
      exact .inr ⟨_, back, rfl, hmore⟩
    | pair => exact absurd (List.cons.inj heq).1 hd
  · intro h
    rcases h with rfl | ⟨front, back, rfl, hfront⟩
    · exact ⟨[], text, rfl, .nil⟩
    · exact ⟨d :: front, back, rfl, .plain hd hfront⟩

theorem occursPlain_pair {c d : Char} {text : List Char} (hc : c ≠ '\\') :
    OccursPlain c ('\\' :: d :: text) ↔ OccursPlain c text := by
  constructor
  · intro h
    obtain ⟨front, back, heq, hfront⟩ := h
    cases hfront with
    | nil => exact absurd (List.cons.inj heq).1.symm hc
    | plain hne _ => exact absurd (List.cons.inj heq).1.symm hne
    | pair hmore =>
      cases heq
      exact ⟨_, back, rfl, hmore⟩
  · intro h
    obtain ⟨front, back, rfl, hfront⟩ := h
    exact ⟨'\\' :: d :: front, back, rfl, .pair hfront⟩

/-! ### Operators -/

/-- The operators of two characters and those of one. -/
def IsOperator (text : List Char) : Prop :=
  (∃ a b, (a, b) ∈ doubleOperators ∧ text = [a, b]) ∨ ∃ c ∈ singleOperators, text = [c]

theorem IsOperator.length_le {text : List Char} (h : IsOperator text) : text.length ≤ 2 := by
  rcases h with ⟨a, b, -, rfl⟩ | ⟨c, -, rfl⟩ <;> simp

theorem IsOperator.length_pos {text : List Char} (h : IsOperator text) : 0 < text.length := by
  rcases h with ⟨a, b, -, rfl⟩ | ⟨c, -, rfl⟩ <;> simp

/-! ### Delimiters -/

/-- A brace and a mark, and perhaps a modifier behind them. -/
def IsOpener (mark : Char) (text : List Char) : Prop :=
  text = ['{', mark] ∨ ∃ m, isModifier m = true ∧ text = ['{', mark, m]

/-- A mark and a brace, and perhaps a modifier before them. -/
def IsCloser (mark : Char) (text : List Char) : Prop :=
  text = [mark, '}'] ∨ ∃ m, isModifier m = true ∧ text = [m, mark, '}']

theorem IsOpener.length {mark : Char} {text : List Char} (h : IsOpener mark text) :
    2 ≤ text.length ∧ text.length ≤ 3 := by
  rcases h with rfl | ⟨m, -, rfl⟩ <;> simp

theorem IsOpener.ne_nil {mark : Char} {text : List Char} (h : IsOpener mark text) : text ≠ [] := by
  rcases h with rfl | ⟨m, -, rfl⟩ <;> simp

theorem IsOpener.eq_cons {mark : Char} {text : List Char} (h : IsOpener mark text) :
    ∃ tail, text = '{' :: mark :: tail := by
  rcases h with rfl | ⟨m, -, rfl⟩
  · exact ⟨[], rfl⟩
  · exact ⟨[m], rfl⟩

theorem IsCloser.length {mark : Char} {text : List Char} (h : IsCloser mark text) :
    2 ≤ text.length ∧ text.length ≤ 3 := by
  rcases h with rfl | ⟨m, -, rfl⟩ <;> simp

theorem IsCloser.ne_nil {mark : Char} {text : List Char} (h : IsCloser mark text) : text ≠ [] := by
  rcases h with rfl | ⟨m, -, rfl⟩ <;> simp

theorem longest_isOpener_iff {mark : Char} {text next : List Char} :
    Longest (IsOpener mark) text next ↔
      IsOpener mark text ∧ (text = ['{', mark] → ∀ m ∈ next.head?, isModifier m = false) := by
  rw [Longest.iff_continued]
  refine and_congr_right fun hopener => ⟨?_, ?_⟩
  · intro hlongest hbare m hm
    subst hbare
    by_contra hmodifier
    cases next with
    | nil => simp at hm
    | cons c more =>
      cases hm
      exact hlongest m [] ⟨more, rfl⟩ (.inr ⟨m, by simpa using hmodifier, rfl⟩)
  · intro hnext c cs hcontinues hlonger
    obtain ⟨more, rfl⟩ := hcontinues
    rcases hopener with rfl | ⟨m, hm, rfl⟩
    · rcases hlonger with heq | ⟨m, hm, heq⟩
      · simp at heq
      · simp only [List.cons_append, List.nil_append, List.cons.injEq, true_and] at heq
        have hno := hnext rfl c rfl
        rw [heq.1, hm] at hno
        cases hno
    · have hlen := hlonger.length.2
      simp only [List.length_append, List.length_cons, List.length_nil] at hlen
      omega

/-- Whether the delimiter of an item opens at the front. -/
def Opens (text : List Char) : Prop :=
  ∃ mark ∈ ['{', '%', '#'], ['{', mark] <+: text

/-- Whether a delimiter with a mark closes at the front. -/
def Closes (mark : Char) (text : List Char) : Prop :=
  ∃ closer, IsCloser mark closer ∧ closer <+: text

/-- No delimiter opens inside a text, its last character taken together with what follows. -/
def IsPlain (text next : List Char) : Prop :=
  ∀ s, s ≠ [] → s <:+ text → ¬ Opens (s ++ next)

theorem isPlain_nil (next : List Char) : IsPlain [] next := by
  intro s hs hsuffix
  exact absurd (List.suffix_nil.1 hsuffix) hs

theorem isPlain_cons {c : Char} {text next : List Char} :
    IsPlain (c :: text) next ↔ ¬ Opens (c :: text ++ next) ∧ IsPlain text next := by
  constructor
  · intro h
    refine ⟨h _ (by simp) List.suffix_rfl, fun s hs hsuffix => ?_⟩
    exact h s hs (hsuffix.trans (List.suffix_cons c text))
  · intro h s hs hsuffix
    obtain ⟨hfirst, hmore⟩ := h
    rcases List.suffix_cons_iff.1 hsuffix with rfl | hsuffix
    · exact hfirst
    · exact hmore s hs hsuffix

theorem Opens.append {text : List Char} (h : Opens text) (more : List Char) :
    Opens (text ++ more) := by
  obtain ⟨mark, hmark, hstarts⟩ := h
  exact ⟨mark, hmark, hstarts.trans (List.prefix_append text more)⟩

theorem Opens.of_append {text more : List Char} (h : Opens (text ++ more)) (hlen : 2 ≤ text.length) :
    Opens text := by
  obtain ⟨mark, hmark, hstarts⟩ := h
  exact ⟨mark, hmark, List.prefix_of_prefix_length_le hstarts (List.prefix_append text more) hlen⟩

theorem Closes.append {mark : Char} {text : List Char} (h : Closes mark text) (more : List Char) :
    Closes mark (text ++ more) := by
  obtain ⟨closer, hcloser, hstarts⟩ := h
  exact ⟨closer, hcloser, hstarts.trans (List.prefix_append text more)⟩

theorem Closes.of_append {mark : Char} {text more : List Char} (h : Closes mark (text ++ more))
    (hlen : 3 ≤ text.length) : Closes mark text := by
  obtain ⟨closer, hcloser, hstarts⟩ := h
  have hle : closer.length ≤ text.length := hcloser.length.2.trans hlen
  exact ⟨closer, hcloser, List.prefix_of_prefix_length_le hstarts (List.prefix_append text more) hle⟩

theorem IsPlain.of_append {text next more : List Char} (h : IsPlain text (next ++ more)) :
    IsPlain text next := by
  intro s hs hsuffix hopens
  apply h s hs hsuffix
  rw [← List.append_assoc]
  exact hopens.append more

/-! ### What stands inside tags

Brackets are left out here: whether one may stand at a place depends on those before it.
-/

/-- A lexeme inside a tag, with the characters behind it. -/
inductive IsInner : Lexeme → List Char → Prop
  | blanks {text next : List Char} : Longest IsBlanks text next → IsInner ⟨.whitespace, text⟩ next
  | word {text next : List Char} : Longest IsWord text next → IsInner ⟨wordKind text, text⟩ next
  | number {text next : List Char} : Longest IsNumber text next → IsInner ⟨.number, text⟩ next
  | string {text next : List Char} : IsQuoted text → IsInner ⟨.string, text⟩ next
  | operator {text next : List Char} : Longest IsOperator text next → IsInner ⟨.operator, text⟩ next
  | mark {c : Char} {next : List Char} : c ∈ punctuationMarks →
      (∀ w, IsOperator w → ¬ w <+: c :: next) → IsInner ⟨.punctuation, [c]⟩ next

namespace IsInner

variable {l : Lexeme} {next more : List Char}

theorem text_ne_nil (h : IsInner l next) : l.text ≠ [] := by
  cases h with
  | blanks h => obtain ⟨c, cs, heq, -⟩ := h.1; simp [heq]
  | word h => obtain ⟨c, cs, heq, -⟩ := h.1; simp [heq]
  | number h =>
    rcases h.1 with hdigits | ⟨whole, fraction, -, -, heq⟩
    · exact hdigits.1
    · simp [heq]
  | string h => obtain ⟨quote, body, -, heq, -⟩ := h; simp [heq]
  | operator h => exact List.length_pos_iff.1 h.1.length_pos
  | mark => simp

theorem of_append (h : IsInner l (next ++ more)) : IsInner l next := by
  cases h with
  | blanks h => exact .blanks h.of_append
  | word h => exact .word h.of_append
  | number h => exact .number h.of_append
  | string h => exact .string h
  | operator h => exact .operator h.of_append
  | mark hc hnone => exact .mark hc fun w hw hstarts => hnone w hw (hstarts.trans ⟨more, rfl⟩)

/-- Two characters behind a lexeme decide it. -/
theorem append (h : IsInner l next) (hnext : 2 ≤ next.length) (more : List Char) :
    IsInner l (next ++ more) := by
  have hne : next ≠ [] := List.length_pos_iff.1 (by omega)
  cases h with
  | blanks h => exact .blanks (h.run_append hne more)
  | word h => exact .word (h.run_append hne more)
  | number h => exact .number (h.number_append hnext more)
  | string h => exact .string h
  | operator h =>
    refine .operator (h.append_of_bounded more fun w hw => ?_)
    rw [List.length_append]
    exact hw.length_le.trans (by omega)
  | mark hc hnone =>
    refine .mark hc fun w hw hstarts => hnone w hw ?_
    refine List.prefix_of_prefix_length_le hstarts ⟨more, rfl⟩ (hw.length_le.trans ?_)
    rw [List.length_cons]
    omega

end IsInner

end TemplateLint
