import TemplateLint.Proofs.Template.Reading

/-!
# Faults name what is there

Whatever characters there are, they are a template, or they begin with a template behind which an item
opens that cannot be read. In the second case the reader reports a fault, and the fault fits the
characters of that item: at the offset it names stands what it blames. `LocatedFault.Fits` says this
for every kind of fault.

Some faults are found long after the place they name. The reader remembers where the item and its
brackets were opened, and the invariant of the proof is that at these places there are such brackets.
-/

namespace TemplateLint

open Lexeme (texts)

/-- At an offset stands a character with some characters behind it, if the given ones begin at
`start`. -/
def Stands (start : Nat) (chars : List Char) (offset : Nat) (c : Char) (behind : List Char) : Prop :=
  ∃ front, chars = front ++ c :: behind ∧ offset = start + front.length

/-- What is true of a fault in the item with which the characters from `start` on begin. -/
def LocatedFault.Fits (start : Nat) (chars : List Char) (located : LocatedFault) : Prop :=
  match located.fault with
  | .unclosedComment =>
    located.offset = start ∧ ∃ opener behind, chars = opener ++ behind ∧
      Longest (IsOpener '#') opener behind ∧ ¬ ['#', '}'] <:+: behind
  | .unclosedTag tag => located.offset = start ∧ ['{', tag.openMark] <+: chars
  | .unclosedString =>
    ∃ quote behind, Stands start chars located.offset quote behind ∧ quote ∈ quotes ∧
      ¬ OccursPlain quote behind
  | .unclosedBracket bracket => ∃ behind, Stands start chars located.offset bracket.openChar behind
  | .unexpectedBracket bracket =>
    ∃ behind, Stands start chars located.offset bracket.closeChar behind
  | .unexpectedCharacter c =>
    isBlank c = false ∧ ∃ behind, Stands start chars located.offset c behind

/-- Every bracket that is remembered as open stands where it was opened. -/
def OpenBrackets.Stand (start : Nat) (chars : List Char) (opened : OpenBrackets) : Prop :=
  ∀ p ∈ opened, ∃ behind, Stands start chars p.2 p.1.openChar behind

theorem scan_fault_of_takes {mode mode' : Mode} {offset : Nat} {l : Lexeme} {next : List Char}
    {fault : LocatedFault} (htext : l.text ≠ []) (h : mode.Takes offset l next mode')
    (hfault : scan mode' (offset + l.text.length) next = .error fault) :
    scan mode offset (l.text ++ next) = .error fault := by
  rw [scan_of_takes htext h, hfault]
  rfl

/-! ### Tags -/

/-- What one step can do in a tag that is not closed here. It takes a lexeme, which the grammar allows
in front of what it allows behind it, and the brackets that are open then stand where they should. Or it
finds a fault. -/
def TagStep (self : Tag) (start : Nat) (chars front ahead : List Char) (opened : OpenBrackets) :
    Prop :=
  (∃ (l : Lexeme) (next : List Char) (opened' : OpenBrackets), l.text ≠ [] ∧ ahead = l.text ++ next ∧
      opened'.Stand start chars ∧
      (Mode.tag self start opened).Takes (start + front.length) l next (.tag self start opened') ∧
      ∀ behind inner, next = texts inner ++ behind →
        Inside self behind (opened'.map Prod.fst) inner →
        Inside self behind (opened.map Prod.fst) (l :: inner)) ∨
    ∃ fault, scan (.tag self start opened) (start + front.length) ahead = .error fault ∧
      fault.Fits start chars

/-- What lies ahead in a tag closes it, or a fault in it is found. -/
def TagOutcome (self : Tag) (start : Nat) (chars front ahead : List Char) (opened : OpenBrackets) :
    Prop :=
  (∃ inner closer next, ahead = texts inner ++ (closer ++ next) ∧
      Inside self (closer ++ next) (opened.map Prod.fst) inner ∧ IsCloser self.closeMark closer) ∨
    ∃ fault, scan (.tag self start opened) (start + front.length) ahead = .error fault ∧
      fault.Fits start chars

section Tags

variable {self : Tag} {start : Nat} {chars front rest : List Char} {opened : OpenBrackets} {c : Char}

theorem OpenBrackets.Stand.cons (hstand : opened.Stand start chars) {bracket : Bracket}
    (hchars : chars = front ++ bracket.openChar :: rest) :
    OpenBrackets.Stand start chars ((bracket, start + front.length) :: opened) := by
  intro p hp
  rcases List.mem_cons.1 hp with rfl | hp
  · exact ⟨rest, front, hchars, rfl⟩
  · exact hstand p hp

theorem tagStep_opening {bracket : Bracket} (hchars : chars = front ++ bracket.openChar :: rest)
    (hstand : opened.Stand start chars) :
    TagStep self start chars front (bracket.openChar :: rest) opened := by
  refine .inl ⟨⟨.punctuation, [bracket.openChar]⟩, rest, (bracket, start + front.length) :: opened,
    by simp, rfl, hstand.cons hchars, takes_opening bracket, ?_⟩
  intro behind inner _ hinner
  exact .opening bracket hinner

/-- A closing bracket must belong to the bracket that was opened last. -/
theorem tagStep_closing {bracket : Bracket} (hchars : chars = front ++ bracket.closeChar :: rest)
    (hstand : opened.Stand start chars)
    (hcloses : opened = [] → ¬ Closes self.closeMark (bracket.closeChar :: rest)) :
    TagStep self start chars front (bracket.closeChar :: rest) opened := by
  cases opened with
  | nil =>
    refine .inr ⟨⟨_, .unexpectedBracket bracket⟩, ?_, rest, front, hchars, rfl⟩
    exact scan_cons_of_fault (step_of_bracket_fault hcloses (pass_closeChar_nil bracket))
  | cons p opened =>
    obtain ⟨inner, place⟩ := p
    by_cases hsame : inner = bracket
    · subst hsame
      have houter : OpenBrackets.Stand start chars opened :=
        fun p hp => hstand p (List.mem_cons_of_mem _ hp)
      refine .inl ⟨⟨.punctuation, [inner.closeChar]⟩, rest, opened, by simp, rfl, houter,
        takes_closing inner place, ?_⟩
      intro behind more _ hmore
      exact .closing inner hmore
    · refine .inr ⟨⟨place, .unclosedBracket inner⟩, ?_, hstand (inner, place) (by simp)⟩
      apply scan_cons_of_fault
      apply step_of_bracket_fault hcloses
      rw [pass_closeChar_cons, if_neg hsame]

theorem tagStep_inner (hbracket : NoBracket c) (hchars : chars = front ++ c :: rest)
    (hstand : opened.Stand start chars) (hcloses : opened = [] → ¬ Closes self.closeMark (c :: rest)) :
    TagStep self start chars front (c :: rest) opened := by
  have hhere : Stands start chars (start + front.length) c rest := ⟨front, hchars, rfl⟩
  have hpass : opened.pass (start + front.length) c = .ok opened := pass_of_noBracket hbracket
  rcases exists_isInner_or_fault rest hbracket with
    ⟨l, next, heq, hl⟩ | ⟨hinner, hquote, hoccurs⟩ | ⟨hinner, hblank⟩
  · rw [← heq] at hcloses
    refine .inl ⟨l, next, opened, hl.text_ne_nil, heq.symm, hstand, takes_inner hl hcloses, ?_⟩
    intro behind inner hnext hmore
    subst hnext
    exact .inner hl (fun hempty => hcloses (List.map_eq_nil_iff.1 hempty)) hmore
  · have hfault := scan_cons_of_fault (@step_of_lexeme_fault _ start _ _ _ _ _ _ hcloses hpass hinner)
    exact .inr ⟨_, hfault, c, rest, hhere, hquote, hoccurs⟩
  · have hfault := scan_cons_of_fault (@step_of_lexeme_fault _ start _ _ _ _ _ _ hcloses hpass hinner)
    exact .inr ⟨_, hfault, hblank, rest, hhere⟩

theorem tagStep (hchars : chars = front ++ c :: rest) (hstand : opened.Stand start chars)
    (hcloses : opened = [] → ¬ Closes self.closeMark (c :: rest)) :
    TagStep self start chars front (c :: rest) opened := by
  cases hopened : Bracket.opened? c with
  | some bracket =>
    obtain rfl := Bracket.opened?_eq_some hopened
    exact tagStep_opening hchars hstand
  | none =>
    cases hclosed : Bracket.closed? c with
    | some bracket =>
      obtain rfl := Bracket.closed?_eq_some hclosed
      exact tagStep_closing hchars hstand hcloses
    | none => exact tagStep_inner ⟨hopened, hclosed⟩ hchars hstand hcloses

theorem tagOutcome_nil (hopens : ['{', self.openMark] <+: chars)
    (hstand : opened.Stand start chars) : TagOutcome self start chars front [] opened := by
  cases opened with
  | nil => exact .inr ⟨⟨start, .unclosedTag self⟩, scan_nil_of_fault _ rfl, rfl, hopens⟩
  | cons p opened =>
    obtain ⟨bracket, place⟩ := p
    exact .inr ⟨⟨place, .unclosedBracket bracket⟩, scan_nil_of_fault _ rfl,
      hstand (bracket, place) (by simp)⟩

/-- The whole of a tag, step by step. The invariant is that the brackets that are open stand where they
were opened. -/
theorem tagOutcome {ahead : List Char} (hopens : ['{', self.openMark] <+: chars)
    (hchars : chars = front ++ ahead) (hstand : opened.Stand start chars) :
    TagOutcome self start chars front ahead opened := by
  induction hlen : ahead.length using Nat.strong_induction_on generalizing front ahead opened with
  | _ n ih =>
    cases ahead with
    | nil => exact tagOutcome_nil hopens hstand
    | cons c rest =>
      by_cases hclosed : opened = [] ∧ Closes self.closeMark (c :: rest)
      · obtain ⟨rfl, closer, hcloser, next, hnext⟩ := hclosed
        exact .inl ⟨[], closer, next, hnext.symm, .done, hcloser⟩
      rcases tagStep hchars hstand (fun hempty hcloses => hclosed ⟨hempty, hcloses⟩) with
        ⟨l, next, opened', htext, heq, hstand', htakes, hinside⟩ | hfault
      · have hpos : 0 < l.text.length := List.length_pos_iff.2 htext
        have hshorter : next.length < n := by
          rw [← hlen, heq, List.length_append]
          omega
        have hchars' : chars = (front ++ l.text) ++ next := by
          rw [hchars, heq, List.append_assoc]
        rw [heq]
        rcases ih _ hshorter hchars' hstand' rfl with
          ⟨inner, closer, behind, rfl, hinner, hcloser⟩ | ⟨fault, hscan, hfits⟩
        · exact .inl ⟨l :: inner, closer, behind, by simp, hinside _ inner rfl hinner, hcloser⟩
        · rw [List.length_append, ← Nat.add_assoc] at hscan
          exact .inr ⟨fault, scan_fault_of_takes htext htakes hscan, hfits⟩
      · exact .inr hfault

end Tags

/-! ### Comments -/

/-- Where a closing delimiter stands, the first one ends the comment, and it takes the modifier before
it. -/
theorem exists_comment {chars : List Char} (h : ['#', '}'] <:+: chars) :
    ∃ body closer next, chars = body ++ (closer ++ next) ∧ IsCommentBody body closer ∧
      IsCloser '#' closer := by
  obtain ⟨body, next, rfl, hbody⟩ := exists_comment_body h
  by_cases hlast : ∃ front m, body = front ++ [m] ∧ isModifier m = true
  · obtain ⟨front, m, rfl, hm⟩ := hlast
    have hfront : ¬ ['#', '}'] <:+: front :=
      fun hin => hbody (hin.trans (List.prefix_append front [m]).isInfix)
    exact ⟨front, [m, '#', '}'], next, by simp, ⟨hfront, by simp⟩, .inr ⟨m, hm, rfl⟩⟩
  · refine ⟨body, ['#', '}'], next, rfl, ⟨hbody, fun _ c hc => ?_⟩, .inl rfl⟩
    obtain ⟨front, hfront⟩ := List.getLast?_eq_some_iff.1 hc
    by_contra hm
    exact hlast ⟨front, c, hfront, by simpa using hm⟩

theorem scan_unclosed_comment {start offset : Nat} {chars : List Char}
    (h : ¬ ['#', '}'] <:+: chars) :
    scan (.comment start) offset chars = .error ⟨start, .unclosedComment⟩ := by
  cases chars with
  | nil => exact scan_nil_of_fault offset rfl
  | cons c rest =>
    refine scan_cons_of_fault ?_
    simp only [Mode.step, commentLength?_of_not_infix h]

/-! ### Templates -/

/-- Where an item opens, it is there, or a fault in it is found. -/
theorem item_or_fault {start : Nat} {chars : List Char} (h : Opens chars) :
    (∃ item next, chars = texts item ++ next ∧ IsItem next item) ∨
      ∃ fault, scan .text start chars = .error fault ∧ fault.Fits start chars := by
  obtain ⟨mark, hmark, hstarts⟩ := h
  obtain ⟨opener, ahead, rfl, hopener⟩ := exists_opener hstarts
  have hne : opener ≠ [] := hopener.1.ne_nil
  have hkind : mark = '#' ∨ ∃ tag : Tag, mark = tag.openMark := by
    simp only [List.mem_cons, List.not_mem_nil, or_false] at hmark
    rcases hmark with rfl | rfl | rfl
    · exact .inr ⟨.variable, rfl⟩
    · exact .inr ⟨.block, rfl⟩
    · exact .inl rfl
  rcases hkind with rfl | ⟨tag, rfl⟩
  · by_cases hclosed : ['#', '}'] <:+: ahead
    · obtain ⟨body, closer, next, rfl, hbody, hcloser⟩ := exists_comment hclosed
      exact .inl ⟨_, next, by simp, .comment hopener hbody hcloser⟩
    · have hscan := scan_fault_of_takes hne (@takes_comment_opener start _ _ hopener)
        (scan_unclosed_comment hclosed)
      exact .inr ⟨_, hscan, rfl, opener, ahead, rfl, hopener, hclosed⟩
  · have hstand : OpenBrackets.Stand start (opener ++ ahead) [] := by simp [OpenBrackets.Stand]
    rcases tagOutcome hstarts rfl hstand with
      ⟨inner, closer, next, rfl, hinner, hcloser⟩ | ⟨fault, hscan, hfits⟩
    · exact .inl ⟨_, next, by simp, .tag tag hopener hinner hcloser⟩
    · exact .inr ⟨fault, scan_fault_of_takes hne (takes_tag_opener hopener) hscan, hfits⟩

/-- Lexemes at the front that are a template, behind which comes nothing or an item with a fault. -/
structure ReadTo (start : Nat) (chars : List Char) (lexemes : List Lexeme) (next : List Char) :
    Prop where
  chars_eq : chars = texts lexemes ++ next
  isTemplate : IsTemplate next lexemes
  next_cases : next = [] ∨ Opens next ∧ ∃ fault,
    scan .text (start + (texts lexemes).length) next = .error fault ∧
      fault.Fits (start + (texts lexemes).length) next

namespace ReadTo

variable {start : Nat} {chars next : List Char} {lexemes : List Lexeme}

theorem nil (start : Nat) : ReadTo start [] [] [] :=
  ⟨rfl, .done, .inl rfl⟩

theorem item {item : List Lexeme} (h : ReadTo (start + (texts item).length) chars lexemes next)
    (hitem : IsItem chars item) : ReadTo start (texts item ++ chars) (item ++ lexemes) next := by
  obtain ⟨rfl, htemplate, hnext⟩ := h
  refine ⟨by simp, .item hitem htemplate, ?_⟩
  rwa [Lexeme.texts_append, List.length_append, ← Nat.add_assoc]

theorem text {text : List Char} (h : ReadTo (start + text.length) chars lexemes next)
    (hplain : IsPlain text chars) (hhead : ∀ l ∈ lexemes.head?, l.kind ≠ .text) :
    ∃ lexemes, ReadTo start (text ++ chars) lexemes next := by
  by_cases hempty : text = []
  · subst hempty
    exact ⟨lexemes, h⟩
  · obtain ⟨rfl, htemplate, hnext⟩ := h
    refine ⟨⟨.text, text⟩ :: lexemes, by simp, .text hempty hplain hhead htemplate, ?_⟩
    rwa [Lexeme.texts_cons, List.length_append, ← Nat.add_assoc]

end ReadTo

theorem exists_readTo_of_opens {start : Nat} {chars : List Char} (h : chars = [] ∨ Opens chars) :
    ∃ lexemes next, ReadTo start chars lexemes next ∧ ∀ l ∈ lexemes.head?, l.kind ≠ .text := by
  induction hlen : chars.length using Nat.strong_induction_on generalizing start chars with
  | _ n ih =>
    rcases h with rfl | hopens
    · exact ⟨[], [], .nil start, by simp⟩
    rcases @item_or_fault start chars hopens with ⟨item, rest, rfl, hitem⟩ | hfault
    · -- Behind the item comes text, perhaps none, and then again an item or nothing.
      obtain ⟨text, ahead, rfl, hplain, hahead⟩ := exists_plain rest
      have hshorter : ahead.length < n := by
        have := hitem.opens.2
        simp only [List.length_append] at hlen
        omega
      obtain ⟨lexemes, next, hread, hhead⟩ := ih _ hshorter hahead rfl
      obtain ⟨lexemes, hread⟩ := hread.text hplain hhead
      refine ⟨item ++ lexemes, next, hread.item hitem, ?_⟩
      rw [List.head?_append_of_ne_nil item hitem.ne_nil]
      exact hitem.head_kind
    · exact ⟨[], chars, ⟨rfl, .done, .inr ⟨hopens, hfault⟩⟩, by simp⟩

/-- **Any characters** are a template, up to an item with a fault if there is one. -/
theorem exists_readTo (start : Nat) (chars : List Char) :
    ∃ lexemes next, ReadTo start chars lexemes next := by
  obtain ⟨text, ahead, rfl, hplain, hahead⟩ := exists_plain chars
  obtain ⟨lexemes, next, hread, hhead⟩ := exists_readTo_of_opens hahead
  obtain ⟨lexemes, hread⟩ := hread.text hplain hhead
  exact ⟨lexemes, next, hread⟩

end TemplateLint
