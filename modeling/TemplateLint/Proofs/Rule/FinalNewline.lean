import TemplateLint.Proofs.Rule.LineEnds

/-!
# A line feed at the end of the file

The rule about line ends takes the last line of a token for one that goes on in the next token. Behind
the last token there is only the end of the file, where nothing goes on, so the blanks at the end of a
last line without a line feed are never found. They are found as soon as the line feed is there, and
nothing else changes: a line feed at the end of a template is more text, since it is not part of any
delimiter. It makes the text at the end longer, or is the text at the end.
-/

namespace TemplateLint

open Lexeme (texts)

/-! ### A template with a line feed behind it -/

theorem Opens.of_newline {text : List Char} (h : Opens (text ++ ['\n'])) : Opens text := by
  obtain ⟨mark, hmark, hstarts⟩ := h
  rcases List.prefix_concat_iff.1 hstarts with heq | hstarts
  · have hlast : mark = '\n' := by simpa using congrArg List.getLast? heq
    rw [hlast] at hmark
    exact absurd hmark (by decide)
  · exact ⟨mark, hmark, hstarts⟩

theorem not_opens_nil : ¬ Opens [] := by
  rintro ⟨mark, -, hstarts⟩
  cases List.prefix_nil.1 hstarts

theorem IsPlain.newline_behind {text next : List Char} (h : IsPlain text next) :
    IsPlain text (next ++ ['\n']) := by
  intro s hs hsuffix hopens
  rw [← List.append_assoc] at hopens
  exact h s hs hsuffix hopens.of_newline

theorem IsPlain.concat_newline {text : List Char} (h : IsPlain text []) :
    IsPlain (text ++ ['\n']) [] := by
  intro s hs hsuffix hopens
  rw [List.append_nil] at hopens
  rcases List.suffix_concat_iff.1 hsuffix with hnil | ⟨front, rfl, hfront⟩
  · exact hs hnil
  · have hfrontOpens := hopens.of_newline
    have hne : front ≠ [] := by
      rintro rfl
      exact not_opens_nil hfrontOpens
    exact h front hne hfront (by rwa [List.append_nil])

/-- With a line feed behind it, a template is still one. The line feed is at the end of the last text if
the template ends with text, and a text of its own if not. -/
theorem IsTemplate.exists_ended {lexemes : List Lexeme} (h : IsTemplate [] lexemes) :
    ∃ front last, IsTemplate [] (front ++ [⟨.text, last ++ ['\n']⟩]) ∧
      (lexemes = front ∧ last = [] ∨ lexemes = front ++ [⟨.text, last⟩]) := by
  induction h with
  | done =>
    exact ⟨[], [], .text (by simp) (isPlain_nil []).concat_newline (by simp) .done, .inl ⟨rfl, rfl⟩⟩
  | @text text more hne hplain hhead hmore ih =>
    by_cases hend : more = []
    · subst hend
      rw [Lexeme.texts_nil, List.append_nil] at hplain
      exact ⟨[], text, .text (by simp) hplain.concat_newline (by simp) .done, .inr rfl⟩
    · obtain ⟨front, last, hended, hlexemes⟩ := ih
      -- What follows the text does not begin with text, so it is not the last text alone.
      have hfront : front ≠ [] := by
        rintro rfl
        rcases hlexemes with ⟨rfl, -⟩ | rfl
        · exact hend rfl
        · exact hhead _ rfl rfl
      have hfirst : ∀ l ∈ (front ++ [(⟨.text, last ++ ['\n']⟩ : Lexeme)]).head?, l.kind ≠ .text := by
        obtain ⟨first, rest, rfl⟩ := List.exists_cons_of_ne_nil hfront
        rcases hlexemes with ⟨rfl, -⟩ | rfl
        · exact hhead
        · exact hhead
      have htexts : texts (front ++ [⟨.text, last ++ ['\n']⟩]) = texts more ++ ['\n'] := by
        rcases hlexemes with ⟨rfl, rfl⟩ | rfl <;> simp
      rw [List.append_nil] at hplain
      refine ⟨⟨.text, text⟩ :: front, last, .text hne ?_ hfirst hended, ?_⟩
      · show IsPlain text (texts (front ++ [⟨.text, last ++ ['\n']⟩]) ++ [])
        rw [htexts, List.append_nil]
        exact hplain.newline_behind
      · rcases hlexemes with ⟨rfl, hlast⟩ | rfl
        · exact .inl ⟨rfl, hlast⟩
        · exact .inr rfl
  | @item item more hitem hmore ih =>
    obtain ⟨front, last, hended, hlexemes⟩ := ih
    refine ⟨item ++ front, last, ?_, ?_⟩
    · rw [List.append_assoc]
      exact .item (hitem.change_next _) hended
    · rcases hlexemes with ⟨rfl, hlast⟩ | rfl
      · exact .inl ⟨rfl, hlast⟩
      · exact .inr (List.append_assoc item front _).symm

namespace TrailingSpace

/-! ### The last line -/

theorem blankEnds_singleton (text : List Char) :
    blankEnds [text] =
      if (EndedLine.before text).EndsBlank then [(EndedLine.before text).blanksFrom] else [] := by
  unfold blankEnds
  split <;> simp_all

theorem flatMap_trailing_text {front : List Char} (hfront : EndsSolid front) (text : List Char) :
    (Lexeme.locate (Position.after front) [⟨.text, text⟩]).flatMap trailing =
      blankEnds (Text.breaks front text) := by
  have hvisible : Lexeme.IsVisible ⟨.text, text⟩ := fun hfree => (by cases hfree)
  have hfound := trailing_eq (fun _ => hfront) hvisible
  rw [Lexeme.locate, List.flatMap_cons, hfound, if_neg (by simp)]
  exact List.append_nil _

/-- A line feed behind a text ends the last line, besides the lines that are ended already. -/
theorem flatMap_trailing_newline {front : List Char} (hfront : EndsSolid front) (text : List Char) :
    (Lexeme.locate (Position.after front) [⟨.text, text ++ ['\n']⟩]).flatMap trailing =
      blankEnds (Text.breaks front text) ++ blankEnds [front ++ text] := by
  rw [flatMap_trailing_text hfront, Text.breaks_append, blankEnds_append]
  rfl

/-- The lexemes of a template, and those of the template with a line feed behind it. -/
theorem flatMap_trailing_ended {lexemes front : List Lexeme} {last : List Char}
    (hended : IsTemplate [] (front ++ [⟨.text, last ++ ['\n']⟩]))
    (hlexemes : lexemes = front ∧ last = [] ∨ lexemes = front ++ [⟨.text, last⟩]) :
    (Lexeme.locate Position.start (front ++ [⟨.text, last ++ ['\n']⟩])).flatMap trailing =
      (Lexeme.locate Position.start lexemes).flatMap trailing ++ blankEnds [texts lexemes] := by
  have hsolid : EndsSolid (texts front) := by
    have hbounded := bounded_of_isTemplate hended fun _ _ _ => (by simp [EndsSolid] : EndsSolid [])
    exact (bounded_append.1 hbounded).2.1 (.inl rfl)
  have hplace : Position.start.advance (texts front) = Position.after (texts front) := rfl
  have hlast := flatMap_trailing_newline hsolid last
  rcases hlexemes with ⟨rfl, rfl⟩ | rfl
  · rw [locate_append, List.flatMap_append, hplace, hlast, Lexeme.locate_eq, List.flatMap_append]
    simp [Text.breaks, blankEnds, trailing]
  · rw [locate_append, locate_append, List.flatMap_append, List.flatMap_append, hplace, hlast,
      flatMap_trailing_text hsolid, List.append_assoc]
    simp

/-- **A line feed at the end of the file ends the last line**, and that is all. A template with a line feed
behind it is read if the template is, and the rule finds in it what it finds in the template, and behind
that the blanks at the end of the last line if there are any. So it finds the same in both exactly if
the last line does not end with blanks. -/
theorem check_final_newline (rule : TrailingSpace) {source : Source} {stream : TokenStream}
    (h : tokenize source = .ok stream) :
    ∃ ended, tokenize { source with content := source.content ++ "\n" } = .ok ended ∧
      rule.check ended = rule.check stream ++
        (let line := EndedLine.before source.content.toList
        if line.EndsBlank then
          [⟨source.displayPath, line.blanksFrom, "A line should not end with blank space(s).",
            rule.severity⟩]
        else []) ∧
      (rule.check ended = rule.check stream ↔ ¬ (EndedLine.before source.content.toList).EndsBlank) := by
  obtain ⟨lexemes, hscan, rfl⟩ := scan_of_tokenize h
  obtain ⟨front, last, hended, hlexemes⟩ := (isTemplate_of_scan hscan).exists_ended
  have htexts : texts (front ++ [⟨.text, last ++ ['\n']⟩]) = (source.content ++ "\n").toList := by
    rw [String.toList_append, ← texts_of_scan hscan]
    rcases hlexemes with ⟨rfl, rfl⟩ | rfl <;> simp
  have hread : tokenize { source with content := source.content ++ "\n" } = .ok _ :=
    tokenize_of_scan (htexts ▸ scan_texts hended 0)
  have hfound := flatMap_trailing_ended hended hlexemes
  rw [texts_of_scan hscan, blankEnds_singleton] at hfound
  refine ⟨_, hread, ?_⟩
  rw [check, check, hfound, List.map_append]
  split <;> simp_all

/-- Behind a tag there is a tab, and a carriage return that counts as part of the line feed to come. -/
theorem check_final_newline_tag :
    let source : Source := ⟨"\x7b\x7b a \x7d\x7d\t\r", "/t/a", "a"⟩
    let stream : TokenStream := ⟨"a", [⟨.varStart, "\x7b\x7b", ⟨1, 0⟩⟩, ⟨.whitespace, " ", ⟨1, 2⟩⟩,
      ⟨.name, "a", ⟨1, 3⟩⟩, ⟨.whitespace, " ", ⟨1, 4⟩⟩, ⟨.varEnd, "\x7d\x7d", ⟨1, 5⟩⟩,
      ⟨.text, "\t\r", ⟨1, 7⟩⟩, ⟨.eof, "", ⟨1, 9⟩⟩]⟩
    tokenize source = .ok stream ∧ TrailingSpace.check {} stream = [] ∧
      ∃ ended, tokenize { source with content := source.content ++ "\n" } = .ok ended ∧
        TrailingSpace.check {} ended =
          [⟨"a", ⟨1, 7⟩, "A line should not end with blank space(s).", .error⟩] := by
  intro source stream
  have hread : tokenize source = .ok stream := by decide +kernel
  have hnone : TrailingSpace.check {} stream = [] := by decide +kernel
  obtain ⟨ended, hended, hfound, -⟩ := check_final_newline {} hread
  refine ⟨hread, hnone, ended, hended, hfound.trans ?_⟩
  rw [hnone]
  decide +kernel

/-- The blank at the end of a file is found only if the file ends with a line feed. -/
theorem check_depends_on_final_newline :
    ¬ ∀ (rule : TrailingSpace) (source : Source) (stream : TokenStream),
      source.content.toList.getLast? ≠ some '\n' → tokenize source = .ok stream →
        ∃ ended, tokenize { source with content := source.content ++ "\n" } = .ok ended ∧
          rule.check ended = rule.check stream := by
  intro hsame
  let source : Source := ⟨"a ", "/t/a", "a"⟩
  let stream : TokenStream := ⟨"a", [⟨.text, "a ", ⟨1, 0⟩⟩, ⟨.eof, "", ⟨1, 2⟩⟩]⟩
  have hread : tokenize source = .ok stream := by decide +kernel
  have hended : tokenize { source with content := source.content ++ "\n" } =
      .ok ⟨"a", [⟨.text, "a \n", ⟨1, 0⟩⟩, ⟨.eof, "", ⟨2, 0⟩⟩]⟩ := by decide +kernel
  obtain ⟨ended, hread', heq⟩ := hsame {} source stream (by decide) hread
  rw [hended] at hread'
  cases hread'
  revert heq
  decide +kernel

end TrailingSpace

end TemplateLint
