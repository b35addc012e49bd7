import Mathlib.Data.List.Basic
import TemplateLint.Proofs.Finding.Grouping
import TemplateLint.Proofs.Text.Lines
import TemplateLint.Report

/-!
# Colours on the console

On a terminal a report is a row of pieces: characters that are shown, and escape sequences that are not
(`Report.Console.pieces`). A text without escape characters has no sequences, so all sequences of the
report are those that open and close a style. The coloured report is the bare one with parts of it in
styles (`Report.Console.Painted`), and two things follow for every text of this kind: what is shown is
the bare text, and each style is closed by its own sequence, before those that were open already.

A style ends in the line that it began in unless a line feed stands in what it is put around. Messages
are never in a style, so only the paths have to be on one line.
-/

namespace TemplateLint

namespace Report.Console

/-! ### What a terminal makes of a text -/

/-- A part of a text on a terminal: a character that is shown, or an escape sequence with a number. -/
inductive Piece where
  | shown (c : Char)
  | sequence (number : Nat)
  deriving DecidableEq, Repr

/-- The number of the escape sequence that a text begins with, and the text behind it. -/
def sequence? : List Char → Option (Nat × List Char)
  | '\x1b' :: '[' :: text =>
    match text.dropWhile Char.isDigit with
    | 'm' :: behind => (Text.number? 10 (text.takeWhile Char.isDigit)).map (·, behind)
    | _ => none
  | _ => none

theorem sequence?_length {text behind : List Char} {number : Nat}
    (h : sequence? text = some (number, behind)) : behind.length < text.length := by
  unfold sequence? at h
  split at h
  · next rest =>
    split at h
    · next tail hdrop =>
      obtain ⟨_, -, heq⟩ := Option.map_eq_some_iff.1 h
      cases heq
      have hlength := (rest.dropWhile_sublist Char.isDigit).length_le
      rw [hdrop] at hlength
      simp only [List.length_cons] at hlength ⊢
      omega
    · cases h
  · cases h

/-- The parts of a text. -/
def pieces (text : List Char) : List Piece :=
  match text with
  | [] => []
  | c :: rest =>
    match _h : sequence? (c :: rest) with
    | some (number, behind) => .sequence number :: pieces behind
    | none => .shown c :: pieces rest
termination_by text.length
decreasing_by
  · exact sequence?_length ‹_›
  · exact Nat.lt_succ_self _

theorem pieces_sequence (number : Nat) (rest : List Char) :
    pieces ((Style.sequence number).toList ++ rest) = .sequence number :: pieces rest := by
  have hdigits : ∀ c ∈ (toString number).toList, c.isDigit = true := fun c hc =>
    Text.isDigit_of_mem_toString hc
  have hchars : (Style.sequence number).toList ++ rest =
      '\x1b' :: '[' :: ((toString number).toList ++ 'm' :: rest) := by
    simp [Style.sequence, String.toList_append]
    rfl
  have hread : sequence? ('\x1b' :: '[' :: ((toString number).toList ++ 'm' :: rest)) =
      some (number, rest) := by
    have hm : 'm'.isDigit = false := by decide
    rw [sequence?, List.dropWhile_append_of_pos hdigits, List.takeWhile_append_of_pos hdigits,
      List.dropWhile_cons_of_neg (by simp [hm]), List.takeWhile_cons_of_neg (by simp [hm]), List.append_nil]
    simp only [Text.number?_toString, Option.map_some]
  rw [hchars, pieces]
  split
  · next heq =>
    rw [hread] at heq
    cases heq
    rfl
  · next heq =>
    rw [hread] at heq
    cases heq

theorem pieces_cons {c : Char} (h : c ≠ '\x1b') (rest : List Char) :
    pieces (c :: rest) = .shown c :: pieces rest := by
  have hread : sequence? (c :: rest) = none := by
    unfold sequence?
    split
    · next heq =>
      cases heq
      exact absurd rfl h
    · rfl
  rw [pieces]
  split
  · next heq =>
    rw [hread] at heq
    cases heq
  · rfl

theorem pieces_bare {text : List Char} (h : '\x1b' ∉ text) (rest : List Char) :
    pieces (text ++ rest) = text.map .shown ++ pieces rest := by
  induction text with
  | nil => rfl
  | cons c text ih =>
    rw [List.mem_cons, not_or] at h
    rw [List.cons_append, pieces_cons (Ne.symm h.1), ih h.2]
    rfl

/-- The character that a part shows. -/
def Piece.char? : Piece → Option Char
  | .shown c => some c
  | .sequence _ => none

/-- A text without its escape sequences. -/
def shownText (text : List Char) : List Char :=
  (pieces text).filterMap Piece.char?

/-- The style that a number switches on. -/
def styleOn? (number : Nat) : Option Style :=
  [.bold, .red, .yellow, .blue, .gray].find? fun style => style.on = number

/-- The styles that are open behind a part, the last one first. A sequence opens its style or closes the
style that was opened last, and no line ends with an open style. -/
def turn (opened : List Style) : Piece → Option (List Style)
  | .shown c => if c = '\n' ∧ opened ≠ [] then none else some opened
  | .sequence number =>
    match styleOn? number, opened with
    | some style, _ => some (style :: opened)
    | none, style :: rest => if number = style.off then some rest else none
    | none, [] => none

/-- Every style that is opened in a text is closed again before its line ends. -/
def ClosesStyles (text : List Char) : Prop :=
  (pieces text).foldlM turn [] = some []

instance (text : List Char) : Decidable (ClosesStyles text) :=
  inferInstanceAs (Decidable (_ = _))

/-! ### Texts with styles in them -/

/-- A text is what another one is when parts of it are put in styles. -/
inductive Painted : String → String → Prop where
  | bare {text : String} (noEscape : '\x1b' ∉ text.toList) : Painted text text
  | wrap (style : Style) {painted text : String} (inner : Painted painted text) :
      Painted (style.wrap painted) text
  | append {a b c d : String} (front : Painted a b) (behind : Painted c d) : Painted (a ++ c) (b ++ d)

/-- A text has parts of its own, whatever stands behind it. -/
def Reads (text : String) (parts : List Piece) : Prop :=
  ∀ rest, pieces (text.toList ++ rest) = parts ++ pieces rest

theorem reads_bare {text : String} (h : '\x1b' ∉ text.toList) : Reads text (text.toList.map .shown) :=
  pieces_bare h

theorem reads_sequence (number : Nat) : Reads (Style.sequence number) [.sequence number] :=
  pieces_sequence number

theorem Reads.append {a b : String} {first second : List Piece} (ha : Reads a first)
    (hb : Reads b second) : Reads (a ++ b) (first ++ second) := by
  intro rest
  rw [String.toList_append, List.append_assoc, ha, hb, List.append_assoc]

theorem Reads.pieces_eq {text : String} {parts : List Piece} (h : Reads text parts) :
    pieces text.toList = parts := by
  have hall := h []
  rwa [List.append_nil, pieces, List.append_nil] at hall

theorem filterMap_shown (text : List Char) : (text.map Piece.shown).filterMap Piece.char? = text := by
  rw [List.filterMap_map]
  exact List.filterMap_some

theorem foldlM_shown {text : List Char} {opened : List Style} (h : opened = [] ∨ '\n' ∉ text) :
    (text.map Piece.shown).foldlM turn opened = some opened := by
  induction text with
  | nil => rfl
  | cons c text ih =>
    have hturn : turn opened (.shown c) = some opened := by
      refine if_neg ?_
      rintro ⟨rfl, hopened⟩
      simp [hopened] at h
    rw [List.map_cons, List.foldlM_cons, hturn]
    exact ih (h.imp_right fun hmem hlater => hmem (List.mem_cons_of_mem c hlater))

theorem turn_on (style : Style) (opened : List Style) :
    turn opened (.sequence style.on) = some (style :: opened) := by
  cases style <;> rfl

theorem turn_off (style : Style) (opened : List Style) :
    turn (style :: opened) (.sequence style.off) = some opened := by
  cases style <;> rfl

/-- The parts of a painted text show the bare text, and leave the styles as they were open before. -/
theorem Painted.exists_parts {painted text : String} (h : Painted painted text) :
    ∃ parts, Reads painted parts ∧ parts.filterMap Piece.char? = text.toList ∧
      ('\n' ∉ text.toList → ∀ opened, parts.foldlM turn opened = some opened) := by
  induction h with
  | @bare text noEscape =>
    exact ⟨_, reads_bare noEscape, filterMap_shown _, fun hline opened => foldlM_shown (.inr hline)⟩
  | wrap style _ ih =>
    obtain ⟨parts, hreads, hshown, hstyles⟩ := ih
    refine ⟨_, ((reads_sequence style.on).append hreads).append (reads_sequence style.off), ?_, ?_⟩
    · rw [List.filterMap_append, List.filterMap_append, hshown]
      exact List.append_nil _
    · intro hline opened
      rw [List.foldlM_append, List.singleton_append, List.foldlM_cons, turn_on]
      show (parts.foldlM turn (style :: opened) >>= fun opened => _) = _
      rw [hstyles hline]
      show [Piece.sequence style.off].foldlM turn (style :: opened) = some opened
      rw [List.foldlM_cons, turn_off]
      rfl
  | append _ _ ihfront ihbehind =>
    obtain ⟨front, hfront, hshown, hstyles⟩ := ihfront
    obtain ⟨behind, hbehind, hshown', hstyles'⟩ := ihbehind
    refine ⟨_, hfront.append hbehind, ?_, fun hline opened => ?_⟩
    · rw [List.filterMap_append, hshown, hshown', String.toList_append]
    · rw [String.toList_append, List.mem_append, not_or] at hline
      rw [List.foldlM_append, hstyles hline.1]
      exact hstyles' hline.2 opened

theorem Painted.shownText_eq {painted text : String} (h : Painted painted text) :
    shownText painted.toList = text.toList := by
  obtain ⟨parts, hreads, hshown, -⟩ := h.exists_parts
  rw [shownText, hreads.pieces_eq, hshown]

/-! ### Lines that close their styles -/

/-- A text begins and ends without an open style, and so do the lines in it. -/
def Closed (text : String) : Prop :=
  ∃ parts, Reads text parts ∧ parts.foldlM turn [] = some []

theorem Closed.closesStyles {text : String} (h : Closed text) : ClosesStyles text.toList := by
  obtain ⟨parts, hreads, hstyles⟩ := h
  rwa [ClosesStyles, hreads.pieces_eq]

theorem Closed.append {a b : String} (ha : Closed a) (hb : Closed b) : Closed (a ++ b) := by
  obtain ⟨front, hfront, hstyles⟩ := ha
  obtain ⟨behind, hbehind, hstyles'⟩ := hb
  refine ⟨_, hfront.append hbehind, ?_⟩
  rw [List.foldlM_append, hstyles]
  exact hstyles'

theorem closed_bare {text : String} (h : '\x1b' ∉ text.toList) : Closed text :=
  ⟨_, reads_bare h, foldlM_shown (.inl rfl)⟩

theorem Painted.closed {painted text : String} (h : Painted painted text) (hline : '\n' ∉ text.toList) :
    Closed painted := by
  obtain ⟨parts, hreads, -, hstyles⟩ := h.exists_parts
  exact ⟨parts, hreads, hstyles hline []⟩

theorem closed_unlines {lines : List String} (h : ∀ line ∈ lines, Closed line) : Closed (unlines lines) := by
  induction lines with
  | nil => exact closed_bare (by decide)
  | cons line lines ih =>
    rw [List.forall_mem_cons] at h
    rw [unlines_cons]
    exact (h.1.append (closed_bare (by decide))).append (ih h.2)

theorem painted_unlines {lines bare : List String} (h : List.Forall₂ Painted lines bare) :
    Painted (unlines lines) (unlines bare) := by
  induction h with
  | nil => exact .bare (by decide)
  | cons hline _ ih =>
    rw [unlines_cons, unlines_cons]
    exact (hline.append (.bare (by decide))).append ih

/-! ### The report -/

/-- What stands behind the badge in the line of a finding. -/
def findingText (v : Violation) : String :=
  " l." ++ toString v.position.line ++ " c." ++ toString v.position.column ++ " — " ++ v.message

theorem findingLine_eq (color : Bool) (v : Violation) :
    findingLine color v = "  " ++ badge color v.severity ++ findingText v := by
  simp only [findingLine, findingText, String.append_assoc]
  rfl

theorem not_mem_findingText {v : Violation} (h : '\x1b' ∉ v.message.toList) :
    '\x1b' ∉ (findingText v).toList := by
  have hline := Text.not_mem_toString (show '\x1b'.isDigit = false by decide) v.position.line
  have hcolumn := Text.not_mem_toString (show '\x1b'.isDigit = false by decide) v.position.column
  simp only [findingText, String.toList_append, List.mem_append, not_or]
  exact ⟨⟨⟨⟨⟨by decide, hline⟩, by decide⟩, hcolumn⟩, by decide⟩, h⟩

theorem painted_paint (style : Style) {text : String} (h : '\x1b' ∉ text.toList) :
    Painted (style.paint true text) (style.paint false text) :=
  .wrap style (.bare h)

theorem painted_badge (severity : Severity) : Painted (badge true severity) (badge false severity) := by
  have hlabel : '\x1b' ∉ (label severity).1.toList ∧ '\x1b' ∉ (label severity).2.toList := by
    cases severity <;> decide
  have hsign := painted_paint (tint severity) hlabel.1
  have hword := painted_paint (tint severity) hlabel.2
  unfold badge
  dsimp only
  refine (hsign.append (.bare (by decide))).append ?_
  split
  · exact hword
  · exact .wrap .bold hword

theorem not_mem_badge (severity : Severity) : '\n' ∉ (badge false severity).toList := by
  cases severity <;> decide

theorem painted_findingLine {v : Violation} (h : '\x1b' ∉ v.message.toList) :
    Painted (findingLine true v) (findingLine false v) := by
  rw [findingLine_eq, findingLine_eq]
  exact (Painted.append (.bare (by decide)) (painted_badge _)).append (.bare (not_mem_findingText h))

theorem closed_findingLine {v : Violation} (h : '\x1b' ∉ v.message.toList) :
    Closed (findingLine true v) := by
  rw [findingLine_eq]
  refine Closed.append (Closed.append (closed_bare (by decide)) ?_) (closed_bare (not_mem_findingText h))
  exact (painted_badge _).closed (not_mem_badge _)

/-- What the summary of findings is made of. -/
theorem summary_eq {found : List Violation} (h : found ≠ []) : summary found =
    "— Summary — " ++ toString found.length ++ " violation(s): errors=" ++ toString (count .error found) ++
      " warnings=" ++ toString (count .warning found) ++ " infos=" ++ toString (count .info found) ++
      " ignored=" ++ toString (count .ignore found) := by
  rw [summary, if_neg (by simpa using h)]
  simp only [String.append_assoc]
  rfl

theorem not_mem_summary {c : Char} (h : c = '\x1b' ∨ c = '\n') (found : List Violation) :
    c ∉ (summary found).toList := by
  have hdigit : c.isDigit = false := by rcases h with rfl | rfl <;> decide
  by_cases hempty : found = []
  · subst hempty
    rcases h with rfl | rfl <;> decide
  · rw [summary_eq hempty]
    simp only [String.toList_append, List.mem_append, Text.not_mem_toString hdigit, or_false]
    rcases h with rfl | rfl <;> decide

theorem mem_of_mem_group {found : List Violation} {group : FileFindings}
    (hgroup : group ∈ groupByFile found) :
    (∃ v ∈ found, v.path = group.path) ∧ ∀ v ∈ group.found, v ∈ found := by
  have hpath : group.path ∈ found.map Violation.path := by
    rw [← List.mem_eraseDups, ← paths_groupByFile]
    exact List.mem_map_of_mem hgroup
  refine ⟨List.mem_map.1 hpath, fun v hv => ?_⟩
  exact (perm_flatMap_groupByFile found).subset (List.mem_flatMap.2 ⟨group, hgroup, hv⟩)

section Found

variable {found : List Violation}
  (hescape : ∀ v ∈ found, '\x1b' ∉ v.path.toList ∧ '\x1b' ∉ v.message.toList)
include hescape

theorem painted_fileLines {group : FileFindings} (hgroup : group ∈ groupByFile found) :
    List.Forall₂ Painted (fileLines true group) (fileLines false group) := by
  obtain ⟨⟨first, hfirst, hpath⟩, hmem⟩ := mem_of_mem_group hgroup
  refine .cons (painted_paint .bold (hpath ▸ (hescape first hfirst).1)) ?_
  rw [List.forall₂_map_left_iff, List.forall₂_map_right_iff, List.forall₂_same]
  exact fun v hv => painted_findingLine (hescape v (hmem v hv)).2

/-- The coloured report is the bare one with styles in it. -/
theorem painted_lines : List.Forall₂ Painted (lines true found) (lines false found) := by
  have hsummary := painted_paint .bold (not_mem_summary (.inl rfl) found)
  refine List.rel_append ?_ (.cons hsummary .nil)
  have hfiles := fun (group : FileFindings) (h : group ∈ groupByFile found) =>
    painted_fileLines hescape h
  generalize groupByFile found = groups at hfiles
  induction groups with
  | nil => exact .nil
  | cons group groups ih =>
    obtain ⟨hgroup, hgroups⟩ := List.forall_mem_cons.1 hfiles
    exact List.rel_append hgroup (ih hgroups)

theorem closed_lines (hline : ∀ v ∈ found, '\n' ∉ v.path.toList) :
    ∀ line ∈ lines true found, Closed line := by
  have hsummary := painted_paint .bold (not_mem_summary (.inl rfl) found)
  refine List.forall_mem_append.2 ⟨fun line hmem => ?_, ?_⟩
  · obtain ⟨group, hgroup, hmem⟩ := List.mem_flatMap.1 hmem
    obtain ⟨⟨first, hfirst, hpath⟩, hfound⟩ := mem_of_mem_group hgroup
    rcases List.mem_cons.1 hmem with rfl | hmem
    · have hheader := painted_paint .bold (hpath ▸ (hescape first hfirst).1)
      exact hheader.closed (hpath ▸ hline first hfirst)
    · obtain ⟨v, hv, rfl⟩ := List.mem_map.1 hmem
      exact closed_findingLine (hescape v (hfound v hv)).2
  · exact List.forall_mem_singleton.2 (hsummary.closed (not_mem_summary (.inr rfl) found))

end Found

/-! ### The summary -/

theorem numbers_summary {found : List Violation} (h : found ≠ []) :
    Text.numbers (summary found).toList = [found.length, count .error found, count .warning found,
      count .info found, count .ignore found] := by
  rw [summary_eq h]
  simp only [String.toList_append, List.append_assoc]
  rw [Text.numbers_label rfl, Text.numbers_toString _ rfl, Text.numbers_label rfl,
    Text.numbers_toString _ rfl, Text.numbers_label rfl, Text.numbers_toString _ rfl,
    Text.numbers_label rfl, Text.numbers_toString _ rfl, Text.numbers_label rfl,
    ← List.append_nil (toString (count .ignore found)).toList, Text.numbers_toString _ rfl]
  rfl

theorem sum_count (found : List Violation) : count .error found + count .warning found +
    count .info found + count .ignore found = found.length := by
  induction found with
  | nil => rfl
  | cons v found ih =>
    simp only [count, List.countP_cons, List.length_cons] at ih ⊢
    cases v.severity <;> simp <;> omega

theorem not_mem_paint {text : String} (h : '\n' ∉ text.toList) (style : Style) (color : Bool) :
    '\n' ∉ (style.paint color text).toList := by
  have hsequence (number : Nat) : '\n' ∉ (Style.sequence number).toList := by
    have hdigits := Text.not_mem_toString (show '\n'.isDigit = false by decide) number
    have hmarks : '\n' ∉ "\x1b[".toList ∧ '\n' ∉ "m".toList := by decide
    show '\n' ∉ ("\x1b[" ++ toString number ++ "m").toList
    simp only [String.toList_append, List.mem_append, not_or]
    exact ⟨⟨hmarks.1, hdigits⟩, hmarks.2⟩
  cases color with
  | false => exact h
  | true =>
    show '\n' ∉ (style.wrap text).toList
    simp only [Style.wrap, String.toList_append, List.mem_append, not_or]
    exact ⟨⟨hsequence _, h⟩, hsequence _⟩

theorem exists_above (above : List String) {line : String} (h : '\n' ∉ line.toList) :
    ∃ front, Text.cutAt '\n' (unlines (above ++ [line])).toList = front ++ [line.toList, []] := by
  induction above with
  | nil => exact ⟨[], cutAt_unlines (List.forall_mem_singleton.2 h)⟩
  | cons first above ih =>
    obtain ⟨front, hfront⟩ := ih
    have hsplit : (unlines (first :: above ++ [line])).toList =
        first.toList ++ '\n' :: (unlines (above ++ [line])).toList := by
      simp [unlines_cons]
    exact ⟨Text.cutAt '\n' first.toList ++ front, by
      rw [hsplit, Text.cutAt_append_cut, hfront, List.append_assoc]⟩

end Report.Console

open Report Report.Console in
/-- **Colours change nothing that is said.** If no path and no message has an escape character in it, the
coloured report without its escape sequences is the bare report, and each style is closed again before
its line ends, as long as paths are on one line. The last line of a report on findings says in either
case how many there are, and how many of each severity: these numbers add up to the first one. -/
theorem console_colors (found : List Violation) :
    ((∀ v ∈ found, '\x1b' ∉ v.path.toList ∧ '\x1b' ∉ v.message.toList) →
      shownText ((Reporter.console true).render found).toList =
        ((Reporter.console false).render found).toList ∧
      ((∀ v ∈ found, '\n' ∉ v.path.toList) →
        ClosesStyles ((Reporter.console true).render found).toList)) ∧
    (found ≠ [] → ∀ color, ∃ above line,
      Text.cutAt '\n' ((Reporter.console color).render found).toList = above ++ [line, []] ∧
      Text.numbers (shownText line) = [found.length, count .error found, count .warning found,
        count .info found, count .ignore found] ∧
      count .error found + count .warning found + count .info found + count .ignore found =
        found.length) := by
  refine ⟨fun hescape => ⟨?_, fun hline => ?_⟩, fun hne color => ?_⟩
  · exact (painted_unlines (painted_lines hescape)).shownText_eq
  · exact (closed_unlines (closed_lines hescape hline)).closesStyles
  · have hsummary := not_mem_summary (.inl rfl) found
    obtain ⟨above, habove⟩ := exists_above ((groupByFile found).flatMap (fileLines color))
      (not_mem_paint (not_mem_summary (.inr rfl) found) .bold color)
    have hshown : shownText (Style.bold.paint color (summary found)).toList = (summary found).toList := by
      cases color with
      | false => exact (Painted.bare hsummary).shownText_eq
      | true => exact (painted_paint .bold hsummary).shownText_eq
    refine ⟨above, _, habove, ?_, sum_count found⟩
    rw [hshown, numbers_summary hne]

open Report.Console in
/-- Two files, with texts that look like what stands in a sequence. -/
theorem console_colors_imitation :
    let found : List Violation := [⟨"[1m", ⟨1, 0⟩, "31m\n[39m", .error⟩, ⟨"b", ⟨2, 3⟩, "m", .ignore⟩]
    (∀ v ∈ found, '\x1b' ∉ v.path.toList ∧ '\x1b' ∉ v.message.toList) ∧
      (∀ v ∈ found, '\n' ∉ v.path.toList) ∧ found ≠ [] ∧
      shownText ((Reporter.console true).render found).toList =
        ((Reporter.console false).render found).toList ∧
      ClosesStyles ((Reporter.console true).render found).toList ∧
      ∃ above line, Text.cutAt '\n' ((Reporter.console true).render found).toList = above ++ [line, []] ∧
        Text.numbers (shownText line) = [2, 1, 0, 0, 1] := by
  intro found
  have hescape : ∀ v ∈ found, '\x1b' ∉ v.path.toList ∧ '\x1b' ∉ v.message.toList := by decide
  have hline : ∀ v ∈ found, '\n' ∉ v.path.toList := by decide
  have hne : found ≠ [] := by decide
  obtain ⟨hcolors, hsummary⟩ := console_colors found
  obtain ⟨hshown, hcloses⟩ := hcolors hescape
  obtain ⟨above, line, hcut, hnumbers, -⟩ := hsummary hne true
  exact ⟨hescape, hline, hne, hshown, hcloses hline, above, line, hcut, hnumbers⟩

end TemplateLint
