import TemplateLint.Proofs.Template.Grammar

/-!
# The reader follows the grammar

If lexemes are a template as the grammar says, then the reader takes exactly these lexemes and goes on
behind them as at the start. This is proved for single lexemes first, then for what stands inside a
comment or a tag, for items, and for templates. `Mode.Takes` is one step of the reader seen from the
lexeme it takes.

What is between two delimiters can be followed only together with the closing one, because the reader
looks for that delimiter at every step. So the lemmas about comments and tags begin behind the opening
delimiter and end in plain text.
-/

namespace TemplateLint

open Lexeme (texts)

/-- With a lexeme and some characters ahead, the reader takes the lexeme and changes its mode. -/
def Mode.Takes (mode : Mode) (offset : Nat) (l : Lexeme) (next : List Char) (mode' : Mode) : Prop :=
  ∃ c rest, l.text ++ next = c :: rest ∧
    mode.step offset c rest = .ok ⟨l.kind, l.text.length - 1, mode'⟩

theorem scan_of_takes {mode mode' : Mode} {offset : Nat} {l : Lexeme} {next : List Char}
    (htext : l.text ≠ []) (h : mode.Takes offset l next mode') :
    scan mode offset (l.text ++ next) =
      (scan mode' (offset + l.text.length) next).map (l :: ·) := by
  obtain ⟨c, rest, heq, hstep⟩ := h
  obtain ⟨d, text, hcons⟩ := List.exists_cons_of_ne_nil htext
  rw [heq, scan_cons_of_step hstep]
  rw [hcons, List.cons_append, List.cons.injEq] at heq
  obtain ⟨rfl, rfl⟩ := heq
  have hlen : l.text.length - 1 = text.length := by simp [hcons]
  have hl : (⟨l.kind, d :: text⟩ : Lexeme) = l := by rw [← hcons]
  have hoffset : offset + text.length + 1 = offset + l.text.length := by
    rw [hcons, List.length_cons]
    omega
  simp only [hlen, List.take_left, List.drop_left, hl, hoffset]

/-! ### Steps inside tags -/

section Tags

variable {self : Tag} {start offset : Nat} {opened : OpenBrackets} {next : List Char}

theorem not_closes_openChar (bracket : Bracket) (rest : List Char) :
    ¬ Closes self.closeMark (bracket.openChar :: rest) := by
  intro hcloses
  obtain ⟨closer, hcloser | ⟨m, hm, hcloser⟩, hstarts⟩ := hcloses
  · rw [hcloser] at hstarts
    have hmark := (List.cons_prefix_cons.1 hstarts).1
    revert hmark
    cases self <;> cases bracket <;> decide
  · rw [hcloser] at hstarts
    have hmark := (List.cons_prefix_cons.1 hstarts).1
    rw [hmark] at hm
    revert hm
    cases bracket <;> decide

theorem step_of_closerTail? {c : Char} {rest : List Char} {tail : Nat}
    (h : closerTail? self c rest = some tail) :
    (Mode.tag self start []).step offset c rest = .ok ⟨self.endKind, tail, .text⟩ := by
  simp [Mode.step, h]

/-! Where the tag is not closed, a step changes the brackets and takes a lexeme, and either can fail. -/

theorem closer_eq_none {c : Char} {rest : List Char}
    (h : opened = [] → ¬ Closes self.closeMark (c :: rest)) :
    (if opened.isEmpty then closerTail? self c rest else none) = none := by
  split
  · next hempty => exact closerTail?_of_not_closes (h (List.isEmpty_iff.1 hempty))
  · rfl

theorem step_of_lexeme {c : Char} {rest : List Char} {opened' : OpenBrackets} {kind : Token.Kind}
    {tail : Nat} (h : opened = [] → ¬ Closes self.closeMark (c :: rest))
    (hpass : opened.pass offset c = .ok opened') (hinner : innerLexeme c rest = .ok (kind, tail)) :
    (Mode.tag self start opened).step offset c rest = .ok ⟨kind, tail, .tag self start opened'⟩ := by
  simp only [Mode.step, closer_eq_none h, hpass, hinner, bind, Except.bind]

theorem step_of_bracket_fault {c : Char} {rest : List Char} {fault : LocatedFault}
    (h : opened = [] → ¬ Closes self.closeMark (c :: rest))
    (hpass : opened.pass offset c = .error fault) :
    (Mode.tag self start opened).step offset c rest = .error fault := by
  simp only [Mode.step, closer_eq_none h, hpass, bind, Except.bind]

theorem step_of_lexeme_fault {c : Char} {rest : List Char} {opened' : OpenBrackets} {fault : Fault}
    (h : opened = [] → ¬ Closes self.closeMark (c :: rest))
    (hpass : opened.pass offset c = .ok opened') (hinner : innerLexeme c rest = .error fault) :
    (Mode.tag self start opened).step offset c rest = .error ⟨offset, fault⟩ := by
  simp only [Mode.step, closer_eq_none h, hpass, hinner, bind, Except.bind]

theorem pass_of_noBracket {c : Char} (h : NoBracket c) : opened.pass offset c = .ok opened := by
  simp [OpenBrackets.pass, h.1, h.2]

theorem pass_openChar (bracket : Bracket) :
    opened.pass offset bracket.openChar = .ok ((bracket, offset) :: opened) := by
  cases bracket <;> rfl

theorem pass_closeChar_cons (bracket inner : Bracket) (place : Nat) :
    OpenBrackets.pass ((inner, place) :: opened) offset bracket.closeChar =
      if inner = bracket then .ok opened else .error ⟨place, .unclosedBracket inner⟩ := by
  cases bracket <;> rfl

theorem pass_closeChar_nil (bracket : Bracket) :
    OpenBrackets.pass [] offset bracket.closeChar = .error ⟨offset, .unexpectedBracket bracket⟩ := by
  cases bracket <;> rfl

theorem takes_closer {closer : List Char} (h : IsCloser self.closeMark closer) :
    (Mode.tag self start []).Takes offset ⟨self.endKind, closer⟩ next .text := by
  have hpos : closer ≠ [] := h.ne_nil
  obtain ⟨c, rest, rfl⟩ := List.exists_cons_of_ne_nil hpos
  exact ⟨c, rest ++ next, rfl, step_of_closerTail? (closerTail?_of_closer h rfl)⟩

theorem takes_inner {l : Lexeme} (h : IsInner l next)
    (hcloses : opened = [] → ¬ Closes self.closeMark (l.text ++ next)) :
    (Mode.tag self start opened).Takes offset l next (.tag self start opened) := by
  obtain ⟨c, rest, heq⟩ := List.exists_cons_of_ne_nil h.text_ne_nil
  have hahead : l.text ++ next = c :: (rest ++ next) := by rw [heq, List.cons_append]
  obtain ⟨hinner, hbracket⟩ := innerLexeme_of_isInner h hahead
  rw [hahead] at hcloses
  exact ⟨c, rest ++ next, hahead, step_of_lexeme hcloses (pass_of_noBracket hbracket) hinner⟩

theorem takes_opening (bracket : Bracket) :
    (Mode.tag self start opened).Takes offset ⟨.punctuation, [bracket.openChar]⟩ next
      (.tag self start ((bracket, offset) :: opened)) := by
  have hcloses : opened = [] → ¬ Closes self.closeMark (bracket.openChar :: next) :=
    fun _ => not_closes_openChar bracket next
  exact ⟨bracket.openChar, next, rfl,
    step_of_lexeme hcloses (pass_openChar bracket) (innerLexeme_openChar bracket next)⟩

theorem takes_closing (bracket : Bracket) (place : Nat) :
    (Mode.tag self start ((bracket, place) :: opened)).Takes offset
      ⟨.punctuation, [bracket.closeChar]⟩ next (.tag self start opened) := by
  have hpass : OpenBrackets.pass ((bracket, place) :: opened) offset bracket.closeChar = .ok opened := by
    rw [pass_closeChar_cons, if_pos rfl]
  exact ⟨bracket.closeChar, next, rfl,
    step_of_lexeme (fun h => absurd h (by simp)) hpass (innerLexeme_closeChar bracket next)⟩

end Tags

/-! ### Steps inside comments -/

section Comments

variable {start offset : Nat} {next : List Char}

/-- A modifier that belongs to the closing delimiter is counted before it. -/
theorem commentLength?_closer {body closer : List Char} (hbody : ¬ ['#', '}'] <:+: body)
    (hcloser : IsCloser '#' closer) :
    commentLength? (body ++ (closer ++ next)) = some (body.length + (closer.length - 2)) := by
  rcases hcloser with rfl | ⟨m, hm, rfl⟩
  · exact commentLength?_append hbody
  · have hmore : ¬ ['#', '}'] <:+: body ++ [m] := by
      rw [List.infix_concat_iff]
      intro hin
      rcases hin with ⟨front, hfront⟩ | hin
      · have hlast : m = '}' := by simpa using (congrArg List.getLast? hfront).symm
        rw [hlast] at hm
        revert hm
        decide
      · exact hbody hin
    have hlen := @commentLength?_append (body ++ [m]) next hmore
    simpa using hlen

theorem step_of_commentLength? {c : Char} {rest : List Char} {n : Nat}
    (h : commentLength? (c :: rest) = some n) :
    (Mode.comment start).step offset c rest = .ok (Mode.commentStep start (c :: rest) n) := by
  simp only [Mode.step, h]

theorem takes_comment_closer {closer : List Char} (h : IsCloser '#' closer) :
    (Mode.comment start).Takes offset ⟨.commentEnd, closer⟩ next .text := by
  have hlen : commentLength? (closer ++ next) = some (closer.length - 2) := by
    simpa using @commentLength?_closer next [] closer (by simp) h
  rcases h with rfl | ⟨m, hm, rfl⟩
  · exact ⟨'#', '}' :: next, rfl, step_of_commentLength? hlen⟩
  · refine ⟨m, '#' :: '}' :: next, rfl, (step_of_commentLength? hlen).trans ?_⟩
    simp [Mode.commentStep, hm]

theorem takes_comment_body {body closer : List Char} (hne : body ≠ [])
    (hbody : IsCommentBody body closer) (hcloser : IsCloser '#' closer) :
    (Mode.comment start).Takes offset ⟨.text, body⟩ (closer ++ next) (.comment start) := by
  have hlen := @commentLength?_closer next body closer hbody.1 hcloser
  obtain ⟨c, rest, rfl⟩ := List.exists_cons_of_ne_nil hne
  refine ⟨c, rest ++ (closer ++ next), rfl, (step_of_commentLength? hlen).trans ?_⟩
  rcases hcloser with rfl | ⟨m, hm, rfl⟩
  · -- The last character before the delimiter is the last one of the body, and no modifier.
    have hlast : ((c :: (rest ++ '#' :: '}' :: next))[rest.length]?).any isModifier = false := by
      have hget : (c :: (rest ++ '#' :: '}' :: next))[rest.length]? = (c :: rest).getLast? := by
        rw [← List.cons_append, List.getElem?_append_left (by simp), List.getLast?_eq_getElem?]
        rfl
      have hnot := hbody.2 rfl
      rw [hget]
      cases hlast : (c :: rest).getLast? with
      | none => rfl
      | some d => simp [hnot d hlast]
    have hstep : Mode.commentStep start (c :: (rest ++ '#' :: '}' :: next)) (rest.length + 1) =
        ⟨.text, rest.length, .comment start⟩ := by
      simp only [Mode.commentStep, hlast, Bool.false_eq_true, if_false]
    exact congrArg Except.ok hstep
  · simp [Mode.commentStep, hm]

end Comments

/-! ### What the grammar allows is read -/

theorem map_map {ε α β γ : Type} (x : Except ε α) (f : α → β) (g : β → γ) :
    (x.map f).map g = x.map fun a => g (f a) := by
  cases x <;> rfl

theorem scan_comment {start offset : Nat} {body closer next : List Char}
    (hbody : IsCommentBody body closer) (hcloser : IsCloser '#' closer) :
    scan (.comment start) offset (body ++ (closer ++ next)) =
      (scan .text (offset + (body ++ closer).length) next).map
        fun more => commentBody body ++ ⟨.commentEnd, closer⟩ :: more := by
  have hne : closer ≠ [] := hcloser.ne_nil
  have hclose := fun offset => scan_of_takes hne (@takes_comment_closer start offset next closer hcloser)
  by_cases hempty : body = []
  · subst hempty
    simpa [commentBody] using hclose offset
  · rw [scan_of_takes hempty (takes_comment_body hempty hbody hcloser), hclose,
      map_map]
    simp [commentBody, hempty, Nat.add_assoc]

theorem scan_inside {tag : Tag} {start offset : Nat} {opened : OpenBrackets}
    {brackets : List Bracket} {inner : List Lexeme} {closer next : List Char}
    (h : Inside tag (closer ++ next) brackets inner) (hopened : opened.map Prod.fst = brackets)
    (hcloser : IsCloser tag.closeMark closer) :
    scan (.tag tag start opened) offset (texts inner ++ (closer ++ next)) =
      (scan .text (offset + (texts inner ++ closer).length) next).map
        fun more => inner ++ ⟨tag.endKind, closer⟩ :: more := by
  induction h generalizing offset opened with
  | done =>
    rw [List.map_eq_nil_iff.1 hopened]
    have hne : closer ≠ [] := hcloser.ne_nil
    exact scan_of_takes hne (takes_closer hcloser)
  | @inner brackets l more hl hcloses _ ih =>
    have hcloses' : opened = [] → ¬ Closes tag.closeMark (l.text ++ (texts more ++ (closer ++ next))) :=
      fun hnone => hcloses (by rw [← hopened, hnone]; rfl)
    rw [Lexeme.texts_cons, List.append_assoc, scan_of_takes hl.text_ne_nil (takes_inner hl hcloses'),
      ih hopened, map_map]
    simp [Nat.add_assoc]
  | @opening brackets more bracket _ ih =>
    have htakes := @takes_opening tag start offset opened (texts more ++ (closer ++ next)) bracket
    rw [Lexeme.texts_cons, List.append_assoc, scan_of_takes (by simp) htakes, ih (by simp [hopened]),
      map_map]
    simp [Nat.add_assoc, Nat.add_comm, Nat.add_left_comm]
  | @closing brackets more bracket _ ih =>
    obtain ⟨⟨bracket, place⟩, outer, rfl, rfl, houter⟩ := List.map_eq_cons_iff.1 hopened
    have htakes := @takes_closing tag start offset outer (texts more ++ (closer ++ next)) bracket place
    rw [Lexeme.texts_cons, List.append_assoc, scan_of_takes (by simp) htakes, ih houter, map_map]
    simp [Nat.add_assoc, Nat.add_comm, Nat.add_left_comm]

theorem takes_comment_opener {offset : Nat} {opener next : List Char}
    (h : Longest (IsOpener '#') opener next) :
    Mode.text.Takes offset ⟨.commentStart, opener⟩ next (.comment offset) := by
  obtain ⟨tail, rfl⟩ := h.1.eq_cons
  have htail : openerTail ('#' :: (tail ++ next)) = ('{' :: '#' :: tail).length - 1 :=
    openerTail_of_longest h rfl
  refine ⟨'{', '#' :: (tail ++ next), rfl, ?_⟩
  simp only [Mode.step, htail]
  rfl

theorem takes_tag_opener {tag : Tag} {offset : Nat} {opener next : List Char}
    (h : Longest (IsOpener tag.openMark) opener next) :
    Mode.text.Takes offset ⟨tag.startKind, opener⟩ next (.tag tag offset []) := by
  obtain ⟨tail, rfl⟩ := h.1.eq_cons
  have htail : openerTail (tag.openMark :: (tail ++ next)) =
      ('{' :: tag.openMark :: tail).length - 1 := openerTail_of_longest h rfl
  refine ⟨'{', tag.openMark :: (tail ++ next), rfl, ?_⟩
  simp only [Mode.step, htail]
  cases tag <;> rfl

theorem takes_text {offset : Nat} {text next : List Char} (hne : text ≠ [])
    (hplain : IsPlain text next) (hnext : next = [] ∨ Opens next) :
    Mode.text.Takes offset ⟨.text, text⟩ next .text := by
  obtain ⟨c, rest, rfl⟩ := List.exists_cons_of_ne_nil hne
  obtain ⟨hfirst, hmore⟩ := isPlain_cons.1 hplain
  refine ⟨c, rest ++ next, rfl, ?_⟩
  rw [List.cons_append] at hfirst
  simp only [Mode.step, opened?_of_not_opens hfirst, textLength_append hmore hnext]
  rfl

theorem scan_item {offset : Nat} {item : List Lexeme} {next : List Char} (h : IsItem next item) :
    scan .text offset (texts item ++ next) =
      (scan .text (offset + (texts item).length) next).map (item ++ ·) := by
  cases h with
  | @comment opener body closer hopener hbody hcloser =>
    have hne : opener ≠ [] := hopener.1.ne_nil
    have hread := scan_of_takes hne (@takes_comment_opener offset _ _ hopener)
    rw [scan_comment hbody hcloser, map_map] at hread
    simpa [Nat.add_assoc] using hread
  | @tag tag opener closer inner hopener hinner hcloser =>
    have hne : opener ≠ [] := hopener.1.ne_nil
    have hread := scan_of_takes hne (@takes_tag_opener tag offset _ _ hopener)
    rw [scan_inside hinner rfl hcloser, map_map] at hread
    simpa [Nat.add_assoc] using hread

/-- **A template is read as it is written.** -/
theorem scan_template {offset : Nat} {lexemes : List Lexeme} {next : List Char}
    (h : IsTemplate next lexemes)
    (hlast : ∀ l ∈ lexemes.getLast?, l.kind = .text → next = [] ∨ Opens next) :
    scan .text offset (texts lexemes ++ next) =
      (scan .text (offset + (texts lexemes).length) next).map (lexemes ++ ·) := by
  induction h generalizing offset with
  | done =>
    cases hscan : scan .text offset next <;> simp [hscan, Except.map]
  | @text text more hne hplain hhead hmore ih =>
    have hnext : texts more ++ next = [] ∨ Opens (texts more ++ next) := by
      by_cases hend : more = []
      · subst hend
        exact hlast _ rfl rfl
      · exact .inr ((hmore.opens hend hhead).1.append next)
    have hlast' : ∀ l ∈ more.getLast?, l.kind = .text → next = [] ∨ Opens next := by
      intro l hl
      exact hlast l (by rw [List.getLast?_cons, hl]; rfl)
    rw [Lexeme.texts_cons, List.append_assoc, scan_of_takes hne (takes_text hne hplain hnext),
      ih hlast', map_map]
    simp [Nat.add_assoc]
  | @item item more hitem hmore ih =>
    have hlast' : ∀ l ∈ more.getLast?, l.kind = .text → next = [] ∨ Opens next := by
      intro l hl
      exact hlast l (by rw [List.getLast?_append, hl]; rfl)
    rw [Lexeme.texts_append, List.append_assoc, scan_item hitem, ih hlast', map_map]
    simp [Nat.add_assoc]

end TemplateLint
