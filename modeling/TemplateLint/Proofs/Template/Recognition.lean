import TemplateLint.Proofs.Template.Language

/-!
# How lexemes are recognised

The reader looks at the characters ahead and answers with a number: how many of them belong to the
lexeme. Here each of these numbers is tied to the language of its lexeme, in both directions. If a
text of the language stands at the front with something behind it that does not continue it, the
number is its length; and if the reader finds nothing, there is nothing to find. Since a longest text
exists as soon as there is any, the two directions together leave no third case.
-/

namespace TemplateLint

/-! ### Plain text -/

theorem opened?_of_not_opens {text : List Char} (h : ¬ Opens text) : Item.opened? text = none := by
  unfold Item.opened?
  split
  · exact absurd ⟨'#', by simp, _, rfl⟩ h
  · exact absurd ⟨'{', by simp, _, rfl⟩ h
  · exact absurd ⟨'%', by simp, _, rfl⟩ h
  · rfl

theorem opened?_isSome_of_opens {text : List Char} (h : Opens text) :
    (Item.opened? text).isSome = true := by
  obtain ⟨mark, hmark, more, rfl⟩ := h
  simp only [List.mem_cons, List.not_mem_nil, or_false] at hmark
  rcases hmark with rfl | rfl | rfl <;> rfl

theorem textLength_append {text next : List Char} (hplain : IsPlain text next)
    (hnext : next = [] ∨ Opens next) : textLength (text ++ next) = text.length := by
  induction text with
  | nil =>
    rcases hnext with rfl | hopens
    · rfl
    · obtain ⟨c, rest, rfl⟩ : ∃ c rest, next = c :: rest := by
        obtain ⟨mark, -, more, rfl⟩ := hopens
        exact ⟨_, _, rfl⟩
      rw [List.nil_append, textLength, if_pos (opened?_isSome_of_opens hopens)]
      rfl
  | cons c text ih =>
    obtain ⟨hfirst, hmore⟩ := isPlain_cons.1 hplain
    rw [List.cons_append, textLength, ← List.cons_append, opened?_of_not_opens hfirst, ih hmore]
    rfl

theorem exists_plain (chars : List Char) :
    ∃ text next, chars = text ++ next ∧ IsPlain text next ∧ (next = [] ∨ Opens next) := by
  induction chars with
  | nil => exact ⟨[], [], rfl, isPlain_nil [], .inl rfl⟩
  | cons c chars ih =>
    by_cases hopens : Opens (c :: chars)
    · exact ⟨[], c :: chars, rfl, isPlain_nil _, .inr hopens⟩
    · obtain ⟨text, next, rfl, hplain, hnext⟩ := ih
      exact ⟨c :: text, next, rfl, isPlain_cons.2 ⟨hopens, hplain⟩, hnext⟩

/-! ### Delimiters -/

/-- The mark of the delimiter that opens a tag. -/
def Tag.openMark : Tag → Char
  | .variable => '{'
  | .block => '%'

/-- The mark of the delimiter that closes a tag. -/
def Tag.closeMark : Tag → Char
  | .variable => '}'
  | .block => '%'

theorem Tag.closer_eq (tag : Tag) : tag.closer = [tag.closeMark, '}'] := by
  cases tag <;> rfl

theorem openerTail_of_longest {mark c : Char} {opener next rest : List Char}
    (h : Longest (IsOpener mark) opener next) (heq : opener ++ next = c :: rest) :
    openerTail rest = opener.length - 1 := by
  obtain ⟨hopener, hnext⟩ := longest_isOpener_iff.1 h
  rcases hopener with rfl | ⟨m, hm, rfl⟩
  · cases heq
    cases next with
    | nil => rfl
    | cons d more => simp [openerTail, hnext rfl d rfl]
  · cases heq
    simp [openerTail, hm]

theorem exists_opener {mark : Char} {chars : List Char} (h : ['{', mark] <+: chars) :
    ∃ opener next, chars = opener ++ next ∧ Longest (IsOpener mark) opener next :=
  Longest.exists_of_prefix (.inl rfl) h

theorem Tag.closeMark_not_modifier (tag : Tag) : isModifier tag.closeMark = false := by
  cases tag <;> decide

theorem closerTail?_of_closer {tag : Tag} {c : Char} {closer next rest : List Char}
    (h : IsCloser tag.closeMark closer) (heq : closer ++ next = c :: rest) :
    closerTail? tag c rest = some (closer.length - 1) := by
  rcases h with rfl | ⟨m, hm, rfl⟩
  · cases heq
    simp [closerTail?, Tag.closer_eq, List.isPrefixOf]
  · have hne : tag.closeMark ≠ m := by
      intro heq'
      rw [← heq', tag.closeMark_not_modifier] at hm
      cases hm
    cases heq
    simp [closerTail?, Tag.closer_eq, List.isPrefixOf, hm, hne]

theorem closerTail?_of_not_closes {tag : Tag} {c : Char} {rest : List Char}
    (h : ¬ Closes tag.closeMark (c :: rest)) : closerTail? tag c rest = none := by
  unfold closerTail?
  rw [if_neg, if_neg]
  · simp only [Bool.and_eq_true, List.isPrefixOf_iff_prefix, Tag.closer_eq, not_and]
    intro hm hstarts
    exact h ⟨[c, tag.closeMark, '}'], .inr ⟨c, hm, rfl⟩, List.cons_prefix_cons.2 ⟨rfl, hstarts⟩⟩
  · rw [List.isPrefixOf_iff_prefix, Tag.closer_eq]
    intro hstarts
    exact h ⟨_, .inl rfl, hstarts⟩

/-! ### Comments -/

theorem commentLength?_append {body rest : List Char} (h : ¬ ['#', '}'] <:+: body) :
    commentLength? (body ++ '#' :: '}' :: rest) = some body.length := by
  induction body with
  | nil => rfl
  | cons c body ih =>
    have hmore : ¬ ['#', '}'] <:+: body := fun hin => h (hin.trans (List.suffix_cons c body).isInfix)
    have hfirst : ¬ ['#', '}'] <+: c :: (body ++ '#' :: '}' :: rest) := by
      intro hstarts
      obtain ⟨rfl, hsecond⟩ := List.cons_prefix_cons.1 hstarts
      cases body with
      | nil => simp [List.cons_prefix_cons] at hsecond
      | cons d body =>
        obtain ⟨rfl, -⟩ := List.cons_prefix_cons.1 hsecond
        exact h ⟨[], body, rfl⟩
    rw [List.cons_append, commentLength?, if_neg (by simpa using hfirst), ih hmore]
    rfl

theorem exists_comment_body {chars : List Char} (h : ['#', '}'] <:+: chars) :
    ∃ body rest, chars = body ++ '#' :: '}' :: rest ∧ ¬ ['#', '}'] <:+: body := by
  induction chars with
  | nil => simp at h
  | cons c chars ih =>
    by_cases hfirst : ['#', '}'] <+: c :: chars
    · obtain ⟨rest, hrest⟩ := hfirst
      exact ⟨[], rest, hrest.symm, by simp⟩
    · have hmore : ['#', '}'] <:+: chars := (List.infix_cons_iff.1 h).resolve_left hfirst
      obtain ⟨body, rest, rfl, hbody⟩ := ih hmore
      refine ⟨c :: body, rest, rfl, fun hin => ?_⟩
      rcases List.infix_cons_iff.1 hin with hstarts | hin
      · exact hfirst (hstarts.trans (List.prefix_append (c :: body) _))
      · exact hbody hin

theorem commentLength?_of_not_infix {chars : List Char} (h : ¬ ['#', '}'] <:+: chars) :
    commentLength? chars = none := by
  induction chars with
  | nil => rfl
  | cons c chars ih =>
    have hfirst : ¬ ['#', '}'] <+: c :: chars := fun hstarts => h hstarts.isInfix
    have hmore : ¬ ['#', '}'] <:+: chars := fun hin => h (hin.trans (List.suffix_cons c chars).isInfix)
    rw [commentLength?, if_neg (by simpa using hfirst), ih hmore]
    rfl

/-! ### The classes of first characters

Blanks, words and numbers are told apart by their first characters. Words and numbers are written in
ASCII between the blanks of ASCII and those above it.
-/

theorem toNat_of_isUpper {c : Char} (h : c.isUpper = true) : 65 ≤ c.toNat ∧ c.toNat ≤ 90 := by
  have hrange : 65 ≤ c.val ∧ c.val ≤ 90 := of_decide_eq_true h
  exact hrange

theorem toNat_of_isLower {c : Char} (h : c.isLower = true) : 97 ≤ c.toNat ∧ c.toNat ≤ 122 := by
  have hrange : (decide (97 ≤ c.val) && decide (c.val ≤ 122)) = true := h
  simp only [Bool.and_eq_true, decide_eq_true_eq] at hrange
  exact hrange

theorem toNat_of_isDigit {c : Char} (h : c.isDigit = true) : 48 ≤ c.toNat ∧ c.toNat ≤ 57 :=
  Char.isDigit_iff_toNat.1 h

theorem isWordStart_cases {c : Char} (h : isWordStart c = true) :
    c.isUpper = true ∨ c.isLower = true ∨ c = '_' := by
  have hclass : (c.isUpper || c.isLower || c == '_') = true := h
  simpa [or_assoc] using hclass

theorem toNat_of_isWordPart {c : Char} (h : isWordPart c = true) : 48 ≤ c.toNat ∧ c.toNat ≤ 122 := by
  have hclass : (c.isUpper || c.isLower || c.isDigit || c == '_') = true := h
  simp only [Bool.or_eq_true, beq_iff_eq] at hclass
  rcases hclass with ((hupper | hlower) | hdigit) | rfl
  · have := toNat_of_isUpper hupper
    omega
  · have := toNat_of_isLower hlower
    omega
  · have := toNat_of_isDigit hdigit
    omega
  · decide

theorem toNat_of_isBlank {c : Char} (h : isBlank c = true) : c.toNat ≤ 32 ∨ 133 ≤ c.toNat := by
  simp only [isBlank, blankRanges, List.any_cons, List.any_nil, Bool.or_eq_true, Bool.and_eq_true,
    decide_eq_true_eq, Bool.or_false] at h
  omega

theorem not_isBlank_of_isWordPart {c : Char} (h : isWordPart c = true) : isBlank c = false := by
  rw [← Bool.not_eq_true]
  intro hblank
  have hword := toNat_of_isWordPart h
  have hrange := toNat_of_isBlank hblank
  omega

theorem isWordPart_of_isWordStart {c : Char} (h : isWordStart c = true) : isWordPart c = true := by
  simp only [isWordStart, isWordPart, Char.isAlphanum, Bool.or_eq_true] at h ⊢
  tauto

theorem isWordPart_of_isDigit {c : Char} (h : c.isDigit = true) : isWordPart c = true := by
  simp [isWordPart, Char.isAlphanum, h]

theorem not_isWordStart_of_isDigit {c : Char} (h : c.isDigit = true) : isWordStart c = false := by
  have hdigit := toNat_of_isDigit h
  rw [← Bool.not_eq_true]
  intro hstart
  rcases isWordStart_cases hstart with hupper | hlower | rfl
  · have := toNat_of_isUpper hupper
    omega
  · have := toNat_of_isLower hlower
    omega
  · exact absurd hdigit (by decide)

/-! ### Runs and numbers -/

theorem takeWhile_append_of_stop {p : Char → Bool} {run next : List Char}
    (hrun : ∀ d ∈ run, p d = true) (hnext : ∀ d ∈ next.head?, p d = false) :
    (run ++ next).takeWhile p = run := by
  rw [List.takeWhile_append_of_pos hrun]
  cases next with
  | nil => simp
  | cons d more => simp [hnext d rfl]

theorem takeWhile_of_longest {first part : Char → Bool} {c : Char} {text next rest : List Char}
    (h : Longest (IsRun first part) text next) (heq : text ++ next = c :: rest) :
    first c = true ∧ text = c :: rest.takeWhile part := by
  obtain ⟨⟨d, cs, rfl, hd, hcs⟩, hnext⟩ := longest_isRun_iff.1 h
  rw [List.cons_append, List.cons.injEq] at heq
  obtain ⟨rfl, rfl⟩ := heq
  exact ⟨hd, by rw [takeWhile_append_of_stop hcs hnext]⟩

theorem numberTail_of_longest {c : Char} {text next rest : List Char}
    (h : Longest IsNumber text next) (heq : text ++ next = c :: rest) :
    c.isDigit = true ∧ numberTail rest = text.length - 1 := by
  obtain ⟨hnumber, hhead, hpoint⟩ := longest_isNumber_iff.1 h
  rcases hnumber with hdigits | ⟨whole, fraction, ⟨hne, hwhole⟩, ⟨hne', hfraction⟩, rfl⟩
  · obtain ⟨d, ds, rfl⟩ := List.exists_cons_of_ne_nil hdigits.1
    rw [List.cons_append, List.cons.injEq] at heq
    obtain ⟨rfl, rfl⟩ := heq
    have hall : ∀ e ∈ ds, e.isDigit = true := fun e he => hdigits.2 e (List.mem_cons_of_mem d he)
    refine ⟨hdigits.2 d (by simp), ?_⟩
    simp only [numberTail, takeWhile_append_of_stop hall hhead, List.drop_left]
    split
    · next e more => simp [hpoint hdigits e more rfl]
    · rfl
  · obtain ⟨d, ds, rfl⟩ := List.exists_cons_of_ne_nil hne
    obtain ⟨e, es, rfl⟩ := List.exists_cons_of_ne_nil hne'
    simp only [List.cons_append, List.append_assoc, List.cons.injEq] at heq
    obtain ⟨rfl, rfl⟩ := heq
    have hall : ∀ d ∈ ds, d.isDigit = true := fun x hx => hwhole x (List.mem_cons_of_mem d hx)
    have hall' : ∀ d ∈ es, d.isDigit = true := fun x hx => hfraction x (List.mem_cons_of_mem e hx)
    have hstop : (ds ++ '.' :: e :: (es ++ next)).takeWhile Char.isDigit = ds :=
      takeWhile_append_of_stop hall (by simp)
    refine ⟨hwhole d (by simp), ?_⟩
    simp only [numberTail, hstop, List.drop_left, hfraction e (by simp), if_true,
      takeWhile_append_of_stop hall' hhead, List.length_append, List.length_cons]
    omega

/-! ### Strings -/

theorem ne_backslash_of_mem_quotes {quote : Char} (h : quote ∈ quotes) : quote ≠ '\\' := by
  intro heq
  rw [heq] at h
  revert h
  decide

theorem quotedTail?_cons {quote c : Char} (hc : c ≠ '\\') (rest : List Char) :
    quotedTail? quote (c :: rest) =
      if c == quote then some 1 else (quotedTail? quote rest).map (· + 1) := by
  rw [quotedTail?.eq_def]
  split <;> simp_all

theorem quotedTail?_pair (quote c : Char) (rest : List Char) :
    quotedTail? quote ('\\' :: c :: rest) = (quotedTail? quote rest).map (· + 2) := by
  rw [quotedTail?]

theorem quotedTail?_append {quote : Char} {body : List Char} (hquote : quote ≠ '\\')
    (hbody : Escaped body) (hno : ¬ OccursPlain quote body) (rest : List Char) :
    quotedTail? quote (body ++ quote :: rest) = some (body.length + 1) := by
  induction hbody with
  | nil => simp [quotedTail?_cons hquote]
  | plain hc _ ih =>
    rw [occursPlain_cons hc, not_or] at hno
    simp [quotedTail?_cons hc, hno.1, ih hno.2]
  | pair _ ih =>
    rw [occursPlain_pair hquote] at hno
    simp [quotedTail?_pair, ih hno]

theorem exists_string_body {quote : Char} {chars : List Char} (hquote : quote ≠ '\\')
    (h : OccursPlain quote chars) :
    ∃ body rest, chars = body ++ quote :: rest ∧ Escaped body ∧ ¬ OccursPlain quote body := by
  obtain ⟨front, back, rfl, hfront⟩ := h
  induction hfront with
  | nil => exact ⟨[], back, rfl, .nil, not_occursPlain_nil quote⟩
  | @plain c front hc hfront ih =>
    by_cases hsame : c = quote
    · exact ⟨[], front ++ quote :: back, by simp [hsame], .nil, not_occursPlain_nil quote⟩
    · obtain ⟨body, rest, heq, hbody, hno⟩ := ih
      refine ⟨c :: body, rest, by simp [heq], .plain hc hbody, ?_⟩
      rw [occursPlain_cons hc, not_or]
      exact ⟨hsame, hno⟩
  | @pair c front hfront ih =>
    obtain ⟨body, rest, heq, hbody, hno⟩ := ih
    refine ⟨'\\' :: c :: body, rest, by simp [heq], .pair hbody, ?_⟩
    rwa [occursPlain_pair hquote]

theorem quotedTail?_of_not_occurs {quote : Char} {chars : List Char} (hquote : quote ≠ '\\')
    (h : ¬ OccursPlain quote chars) : quotedTail? quote chars = none := by
  fun_induction quotedTail? quote chars with
  | case1 => rfl
  | case2 => rfl
  | case3 c rest ih =>
    rw [occursPlain_pair hquote] at h
    rw [ih h]
    rfl
  | case4 c rest hsingle hpair heq =>
    have hc : c ≠ '\\' := by
      intro hbackslash
      exact hquote ((beq_iff_eq.1 heq).symm.trans hbackslash)
    rw [occursPlain_cons hc] at h
    exact absurd (.inl (by simpa using heq)) h
  | case5 c rest hsingle hpair hne ih =>
    have hc : c ≠ '\\' := by
      intro hbackslash
      subst hbackslash
      cases rest with
      | nil => exact hsingle rfl rfl
      | cons d rest => exact hpair d rest rfl rfl
    rw [occursPlain_cons hc, not_or] at h
    rw [ih h.2]
    rfl

/-! ### Operators -/

theorem any_doubleOperators_iff {c : Char} {rest : List Char} :
    (doubleOperators.any fun (a, b) => c == a && rest.head? == some b) = true ↔
      ∃ b more, (c, b) ∈ doubleOperators ∧ rest = b :: more := by
  rw [List.any_eq_true]
  constructor
  · intro hany
    obtain ⟨⟨a, b⟩, hmem, htest⟩ := hany
    simp only [Bool.and_eq_true, beq_iff_eq, List.head?_eq_some_iff] at htest
    obtain ⟨rfl, more, rfl⟩ := htest
    exact ⟨b, more, hmem, rfl⟩
  · intro hdouble
    obtain ⟨b, more, hmem, rfl⟩ := hdouble
    exact ⟨(c, b), hmem, by simp⟩

theorem operatorTail?_of_longest {c : Char} {text next rest : List Char}
    (h : Longest IsOperator text next) (heq : text ++ next = c :: rest) :
    operatorTail? c rest = some (text.length - 1) := by
  obtain ⟨⟨a, b, hmem, rfl⟩ | ⟨a, hmem, rfl⟩, hlongest⟩ := h
  · simp only [List.cons_append, List.nil_append, List.cons.injEq] at heq
    obtain ⟨rfl, rfl⟩ := heq
    rw [operatorTail?, if_pos (any_doubleOperators_iff.2 ⟨b, next, hmem, rfl⟩)]
    rfl
  · simp only [List.cons_append, List.nil_append, List.cons.injEq] at heq
    obtain ⟨rfl, rfl⟩ := heq
    rw [operatorTail?, if_neg, if_pos (by simpa using hmem)]
    · rfl
    · rw [any_doubleOperators_iff]
      intro hlonger
      obtain ⟨b, more, hdouble, rfl⟩ := hlonger
      have hle := hlongest [a, b] ⟨more, rfl⟩ (.inl ⟨a, b, hdouble, rfl⟩)
      simp at hle

theorem operatorTail?_of_none {c : Char} {rest : List Char}
    (h : ∀ w, IsOperator w → ¬ w <+: c :: rest) : operatorTail? c rest = none := by
  rw [operatorTail?, if_neg, if_neg]
  · simp only [List.contains_eq_mem, decide_eq_true_eq]
    intro hmem
    exact h [c] (.inr ⟨c, hmem, rfl⟩) ⟨rest, rfl⟩
  · rw [any_doubleOperators_iff]
    intro hoperator
    obtain ⟨b, more, hdouble, rfl⟩ := hoperator
    exact h [c, b] (.inl ⟨c, b, hdouble, rfl⟩) ⟨more, rfl⟩

/-! ### Any lexeme inside a tag -/

/-- A character that begins nothing that is recognised before brackets and operators. -/
def IsSymbol (c : Char) : Prop :=
  isBlank c = false ∧ isWordStart c = false ∧ c.isDigit = false ∧ c ∉ quotes

/-- A character that is no bracket. -/
def NoBracket (c : Char) : Prop :=
  Bracket.opened? c = none ∧ Bracket.closed? c = none

instance (c : Char) : Decidable (IsSymbol c) := inferInstanceAs (Decidable (_ ∧ _))

instance (c : Char) : Decidable (NoBracket c) := inferInstanceAs (Decidable (_ ∧ _))

theorem Bracket.opened?_eq_some {c : Char} {bracket : Bracket} (h : Bracket.opened? c = some bracket) :
    c = bracket.openChar := by
  unfold Bracket.opened? at h
  split at h <;> cases h <;> rfl

theorem Bracket.closed?_eq_some {c : Char} {bracket : Bracket} (h : Bracket.closed? c = some bracket) :
    c = bracket.closeChar := by
  unfold Bracket.closed? at h
  split at h <;> cases h <;> rfl

/-- A class of characters that holds no bracket. -/
theorem noBracket_of_class {p : Char → Bool} {c : Char}
    (hp : ∀ bracket : Bracket, p bracket.openChar = false ∧ p bracket.closeChar = false)
    (hc : p c = true) : NoBracket c := by
  constructor
  · cases h : Bracket.opened? c with
    | none => rfl
    | some bracket =>
      rw [Bracket.opened?_eq_some h, (hp bracket).1] at hc
      cases hc
  · cases h : Bracket.closed? c with
    | none => rfl
    | some bracket =>
      rw [Bracket.closed?_eq_some h, (hp bracket).2] at hc
      cases hc

theorem noBracket_of_isWordPart {c : Char} (h : isWordPart c = true) : NoBracket c :=
  noBracket_of_class (fun bracket => by cases bracket <;> decide) h

theorem noBracket_of_isBlank {c : Char} (h : isBlank c = true) : NoBracket c :=
  noBracket_of_class (fun bracket => by cases bracket <;> decide) h

/-- Every member of a table passes a test that the table was checked for. -/
theorem of_mem_of_all {α : Type} {P : α → Prop} [DecidablePred P] {table : List α}
    (h : table.all (fun a => decide (P a)) = true) {a : α} (ha : a ∈ table) : P a :=
  of_decide_eq_true (List.all_eq_true.1 h a ha)

theorem noBracket_of_mem_quotes {c : Char} (h : c ∈ quotes) : NoBracket c := by
  apply of_mem_of_all ?_ h
  decide

theorem IsOperator.symbol {c : Char} {cs : List Char} (h : IsOperator (c :: cs)) :
    IsSymbol c ∧ NoBracket c := by
  have hdouble : doubleOperators.all (fun p => decide (IsSymbol p.1 ∧ NoBracket p.1)) = true := by
    decide
  have hsingle : singleOperators.all (fun c => decide (IsSymbol c ∧ NoBracket c)) = true := by
    decide
  rcases h with ⟨a, b, hmem, heq⟩ | ⟨a, hmem, heq⟩
  · cases heq
    exact of_mem_of_all hdouble hmem
  · cases heq
    exact of_mem_of_all hsingle hmem

theorem symbol_of_mem_punctuationMarks {c : Char} (h : c ∈ punctuationMarks) :
    IsSymbol c ∧ NoBracket c := by
  apply of_mem_of_all ?_ h
  decide

theorem innerLexeme_symbol {c : Char} (hsymbol : IsSymbol c) (hbracket : NoBracket c)
    (rest : List Char) :
    innerLexeme c rest =
      match operatorTail? c rest with
      | some tail => .ok (.operator, tail)
      | none =>
        if punctuationMarks.contains c then .ok (.punctuation, 0)
        else .error (.unexpectedCharacter c) := by
  obtain ⟨hblank, hword, hdigit, hquote⟩ := hsymbol
  obtain ⟨hopened, hclosed⟩ := hbracket
  simp only [quotes, List.mem_cons, List.not_mem_nil, or_false, not_or] at hquote
  cases htail : operatorTail? c rest <;>
    simp [innerLexeme, hblank, hword, hdigit, hquote.1, hquote.2, hopened, hclosed, htail]

theorem innerLexeme_quote {quote : Char} (h : quote ∈ quotes) (rest : List Char) :
    innerLexeme quote rest =
      match quotedTail? quote rest with
      | some tail => .ok (.string, tail)
      | none => .error .unclosedString := by
  simp only [quotes, List.mem_cons, List.not_mem_nil, or_false] at h
  rcases h with rfl | rfl <;> rfl

theorem innerLexeme_openChar (bracket : Bracket) (rest : List Char) :
    innerLexeme bracket.openChar rest = .ok (.punctuation, 0) := by
  cases bracket <;> rfl

theorem innerLexeme_closeChar (bracket : Bracket) (rest : List Char) :
    innerLexeme bracket.closeChar rest = .ok (.punctuation, 0) := by
  cases bracket <;> rfl

/-- What may stand inside a tag is recognised there. -/
theorem innerLexeme_of_isInner {l : Lexeme} {c : Char} {next rest : List Char} (h : IsInner l next)
    (heq : l.text ++ next = c :: rest) :
    innerLexeme c rest = .ok (l.kind, l.text.length - 1) ∧ NoBracket c := by
  cases h with
  | @blanks text next h =>
    obtain ⟨hc, rfl⟩ := takeWhile_of_longest h heq
    exact ⟨by simp [innerLexeme, hc], noBracket_of_isBlank hc⟩
  | @word text next h =>
    obtain ⟨hc, rfl⟩ := takeWhile_of_longest h heq
    have hpart := isWordPart_of_isWordStart hc
    have htake : rest.take (rest.takeWhile isWordPart).length = rest.takeWhile isWordPart :=
      (List.prefix_iff_eq_take.1 (List.takeWhile_prefix isWordPart)).symm
    exact ⟨by simp [innerLexeme, not_isBlank_of_isWordPart hpart, hc, htake],
      noBracket_of_isWordPart hpart⟩
  | @number text next h =>
    obtain ⟨hc, htail⟩ := numberTail_of_longest h heq
    have hpart := isWordPart_of_isDigit hc
    exact ⟨by simp [innerLexeme, not_isBlank_of_isWordPart hpart, not_isWordStart_of_isDigit hc, hc,
      htail], noBracket_of_isWordPart hpart⟩
  | @string text next h =>
    obtain ⟨quote, body, hquote, rfl, hbody, hno⟩ := h
    simp only [List.cons_append, List.append_assoc, List.cons.injEq, List.nil_append] at heq
    obtain ⟨rfl, rfl⟩ := heq
    refine ⟨?_, noBracket_of_mem_quotes hquote⟩
    rw [innerLexeme_quote hquote, quotedTail?_append (ne_backslash_of_mem_quotes hquote) hbody hno]
    simp
  | @operator text next h =>
    obtain ⟨d, ds, rfl⟩ := List.exists_cons_of_ne_nil (List.length_pos_iff.1 h.1.length_pos)
    have htail := operatorTail?_of_longest h heq
    rw [List.cons_append, List.cons.injEq] at heq
    obtain ⟨rfl, rfl⟩ := heq
    obtain ⟨hsymbol, hbracket⟩ := h.1.symbol
    exact ⟨by rw [innerLexeme_symbol hsymbol hbracket, htail], hbracket⟩
  | @mark d next hmem hnone =>
    rw [List.singleton_append, List.cons.injEq] at heq
    obtain ⟨rfl, rfl⟩ := heq
    obtain ⟨hsymbol, hbracket⟩ := symbol_of_mem_punctuationMarks hmem
    refine ⟨?_, hbracket⟩
    rw [innerLexeme_symbol hsymbol hbracket, operatorTail?_of_none hnone]
    simp [hmem]

/-- Where nothing can stand inside a tag, the reader says why. -/
theorem exists_isInner_or_fault {c : Char} (rest : List Char) (hbracket : NoBracket c) :
    (∃ l next, l.text ++ next = c :: rest ∧ IsInner l next) ∨
      (innerLexeme c rest = .error .unclosedString ∧ c ∈ quotes ∧ ¬ OccursPlain c rest) ∨
      (innerLexeme c rest = .error (.unexpectedCharacter c) ∧ isBlank c = false) := by
  have hstarts : [c] <+: c :: rest := ⟨rest, rfl⟩
  by_cases hblank : isBlank c = true
  · have hblanks : IsBlanks [c] := ⟨c, [], rfl, hblank, by simp⟩
    obtain ⟨text, next, heq, h⟩ := Longest.exists_of_prefix hblanks hstarts
    exact .inl ⟨_, next, heq.symm, .blanks h⟩
  by_cases hword : isWordStart c = true
  · have hwords : IsWord [c] := ⟨c, [], rfl, hword, by simp⟩
    obtain ⟨text, next, heq, h⟩ := Longest.exists_of_prefix hwords hstarts
    exact .inl ⟨_, next, heq.symm, .word h⟩
  by_cases hdigit : c.isDigit = true
  · have hnumber : IsNumber [c] := .inl ⟨by simp, by simpa using hdigit⟩
    obtain ⟨text, next, heq, h⟩ := Longest.exists_of_prefix hnumber hstarts
    exact .inl ⟨_, next, heq.symm, .number h⟩
  by_cases hquote : c ∈ quotes
  · have hne := ne_backslash_of_mem_quotes hquote
    by_cases hoccurs : OccursPlain c rest
    · obtain ⟨body, next, rfl, hbody, hno⟩ := exists_string_body hne hoccurs
      exact .inl ⟨⟨.string, c :: (body ++ [c])⟩, next, by simp,
        .string ⟨c, body, hquote, rfl, hbody, hno⟩⟩
    · refine .inr (.inl ⟨?_, hquote, hoccurs⟩)
      rw [innerLexeme_quote hquote, quotedTail?_of_not_occurs hne hoccurs]
  have hsymbol : IsSymbol c :=
    ⟨by simpa using hblank, by simpa using hword, by simpa using hdigit, hquote⟩
  by_cases hoperator : ∃ w, IsOperator w ∧ w <+: c :: rest
  · obtain ⟨w, hw, hwprefix⟩ := hoperator
    obtain ⟨text, next, heq, h⟩ := Longest.exists_of_prefix hw hwprefix
    exact .inl ⟨_, next, heq.symm, .operator h⟩
  · have hnone : ∀ w, IsOperator w → ¬ w <+: c :: rest :=
      fun w hw hwprefix => hoperator ⟨w, hw, hwprefix⟩
    by_cases hmark : c ∈ punctuationMarks
    · exact .inl ⟨_, rest, rfl, .mark hmark hnone⟩
    · refine .inr (.inr ⟨?_, hsymbol.1⟩)
      rw [innerLexeme_symbol hsymbol hbracket, operatorTail?_of_none hnone]
      simp [hmark]

end TemplateLint
