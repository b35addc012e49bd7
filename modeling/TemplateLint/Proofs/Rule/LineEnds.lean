import TemplateLint.Proofs.Template.Blanks
import TemplateLint.Proofs.Template.Composition
import TemplateLint.Proofs.Text.EndedLines
import TemplateLint.Proofs.Text.Places
import TemplateLint.Rule.TrailingSpace

/-!
# Line ends, seen in the text

The rule about line ends looks at one token after the other, and a line may be spread over many of them.
It is right nevertheless, because only the end of a line matters. The blanks before a line feed are in
the token of the line feed, all of them, since text and blanks are read as far as they go and whatever
token stands before them ends with a character that is not blank. So what the rule cuts off inside the
token is cut off the line, and the column where the token begins is the rest of the line.

A line feed inside a tag is in blanks or in a string, and those in strings are left alone.
-/

namespace TemplateLint

open Lexeme (texts)
open Position (lastLine)

/-! ### The ends of lines -/

namespace EndedLine

/-- The line without a carriage return right before the line feed. -/
def body (line : EndedLine) : List Char :=
  if line.text.getLast? = some '\r' then line.text.dropLast else line.text

/-- Whether the line ends with a space or a tab. -/
def EndsBlank (line : EndedLine) : Prop :=
  line.body.getLast? = some ' ' ∨ line.body.getLast? = some '\t'

instance (line : EndedLine) : Decidable line.EndsBlank :=
  inferInstanceAs (Decidable (_ ∨ _))

/-- The place behind what is left of the line without the spaces and tabs at its end. -/
def blanksFrom (line : EndedLine) : Position :=
  ⟨line.number, (line.body.rdropWhile fun c => c == ' ' || c == '\t').length⟩

end EndedLine

/-- The kind of the token that holds the character at an offset. -/
def Token.kindAt : List Token → Nat → Option Token.Kind
  | [], _ => none
  | t :: rest, offset =>
    if offset < t.value.length then some t.kind else kindAt rest (offset - t.value.length)

namespace TrailingSpace

/-! ### The end of one line -/

theorem isBlank_of_isTrailing {c : Char} (h : isTrailing c = true) : isBlank c = true := by
  simp only [isTrailing, Bool.or_eq_true, beq_iff_eq] at h
  rcases h with rfl | rfl <;> decide

section Line

variable {front line : List Char}

/-- A line that begins before a token and ends in it, where the part before the token does not end with a
blank. -/
theorem body_eq (hfront : EndsSolid front) {number breakAt : Nat} :
    EndedLine.body ⟨number, front ++ line, breakAt⟩ = front ++ withoutReturn line := by
  rcases List.eq_nil_or_concat line with rfl | ⟨init, c, rfl⟩
  · have hlast : front.getLast? ≠ some '\r' := fun hlast => absurd (hfront _ hlast) (by decide)
    simp [EndedLine.body, withoutReturn, hlast]
  · rw [EndedLine.body, withoutReturn]
    simp only [List.concat_eq_append, ← List.append_assoc, List.getLast?_concat, List.dropLast_concat,
      Option.some.injEq]
    by_cases hc : c = '\r'
    · simp [hc]
    · rw [if_neg hc]
      split
      · next heq => exact absurd (Option.some.inj heq) hc
      · rw [List.append_assoc]

theorem rdropWhile_append_of_endsSolid (hfront : EndsSolid front) :
    (front ++ line).rdropWhile isTrailing = front ++ line.rdropWhile isTrailing := by
  induction line using List.reverseRecOn with
  | nil =>
    rw [List.append_nil, List.rdropWhile_nil, List.append_nil, List.rdropWhile_eq_self_iff]
    intro hne htrailing
    have hsolid := hfront _ (List.getLast?_eq_some_getLast hne)
    rw [isBlank_of_isTrailing htrailing] at hsolid
    cases hsolid
  | append_singleton line c ih =>
    rw [← List.append_assoc, List.rdropWhile_concat, List.rdropWhile_concat, ih]
    split
    · rfl
    · rw [List.append_assoc]

/-- Something is cut off exactly if a space or a tab is at the end. -/
theorem length_trimEnd_eq_iff (hfront : EndsSolid front) (line : List Char) :
    (Text.trimEnd isTrailing line).length = line.length ↔
      ¬ ((front ++ line).getLast? = some ' ' ∨ (front ++ line).getLast? = some '\t') := by
  rcases List.eq_nil_or_concat line with rfl | ⟨init, c, rfl⟩
  · refine iff_of_true rfl ?_
    rw [List.append_nil]
    rintro (hlast | hlast)
    · exact absurd (hfront _ hlast) (by decide)
    · exact absurd (hfront _ hlast) (by decide)
  · have htrim : Text.trimEnd isTrailing (init ++ [c]) =
        if isTrailing c = true then init.rdropWhile isTrailing else init ++ [c] :=
      List.rdropWhile_concat isTrailing init c
    have hclass : isTrailing c = true ↔ c = ' ' ∨ c = '\t' := by
      simp [isTrailing]
    have hle : (init.rdropWhile isTrailing).length ≤ init.length :=
      (List.rdropWhile_prefix isTrailing init).length_le
    rw [List.concat_eq_append, htrim, ← List.append_assoc, List.getLast?_concat, Option.some.injEq,
      Option.some.injEq, ← hclass]
    by_cases hc : isTrailing c = true
    · refine iff_of_false ?_ (not_not_intro hc)
      rw [if_pos hc, List.length_append, List.length_singleton]
      omega
    · exact iff_of_true (by rw [if_neg hc]) hc

/-- What the rule finds at the end of a line of which it sees the part behind some characters. -/
theorem found_eq (hline : '\n' ∉ line) (hfront : EndsSolid (lastLine front)) :
    (if (Text.trimEnd isTrailing (withoutReturn line)).length = (withoutReturn line).length then []
      else [⟨(Position.after front).line, (Position.after front).column +
        (Text.trimEnd isTrailing (withoutReturn line)).length⟩]) =
      ([EndedLine.before (front ++ line)].filter fun l => l.EndsBlank).map EndedLine.blanksFrom := by
  have hbefore : EndedLine.before (front ++ line) =
      ⟨1 + front.count '\n', lastLine front ++ line, (front ++ line).length⟩ := by
    rw [EndedLine.before, Position.lastLine_append, if_neg hline, List.count_append,
      List.count_eq_zero.2 hline]
    rfl
  have hbody : (EndedLine.before (front ++ line)).body = lastLine front ++ withoutReturn line := by
    rw [hbefore, body_eq hfront]
  have hplace : (EndedLine.before (front ++ line)).blanksFrom =
      ⟨(Position.after front).line, (Position.after front).column +
        (Text.trimEnd isTrailing (withoutReturn line)).length⟩ := by
    have htrim : ((lastLine front ++ withoutReturn line).rdropWhile fun c => c == ' ' || c == '\t') =
        lastLine front ++ Text.trimEnd isTrailing (withoutReturn line) :=
      rdropWhile_append_of_endsSolid hfront
    rw [EndedLine.blanksFrom, hbody, htrim, List.length_append, Position.after_eq_counts, hbefore]
  have hends := length_trimEnd_eq_iff hfront (withoutReturn line)
  rw [← hbody] at hends
  by_cases hblank : (EndedLine.before (front ++ line)).EndsBlank
  · rw [if_neg fun heq => hends.1 heq hblank, List.filter_cons_of_pos (by simpa using hblank), ← hplace]
    rfl
  · rw [if_pos (hends.2 hblank), List.filter_cons_of_neg (by simpa using hblank)]
    rfl

end Line

/-! ### The lines that end in one token -/

/-- The places where the blanks at the ends of lines begin, for the lines that end in a text behind some
characters. -/
def blankEnds (fronts : List (List Char)) : List Position :=
  ((fronts.map EndedLine.before).filter fun line => line.EndsBlank).map EndedLine.blanksFrom

theorem blankEnds_append (a b : List (List Char)) :
    blankEnds (a ++ b) = blankEnds a ++ blankEnds b := by
  simp [blankEnds]

theorem blankEnds_cons (front : List Char) (fronts : List (List Char)) :
    blankEnds (front :: fronts) = blankEnds [front] ++ blankEnds fronts :=
  blankEnds_append [front] fronts

theorem trailingFrom_eq {front : List Char} (hfront : EndsSolid (lastLine front))
    (text : List Char) :
    trailingFrom (Position.after front) (Text.cutAt '\n' text) =
      blankEnds (Text.breaks front text) := by
  induction text using Text.cut_induction '\n' generalizing front with
  | last line hline =>
    rw [Text.cutAt_of_not_mem hline, Text.breaks_of_not_mem hline]
    rfl
  | more line rest hline ih =>
    have hlast : lastLine (front ++ line ++ ['\n']) = [] := by
      rw [Position.lastLine_concat, if_pos rfl]
    have hnext : Position.after (front ++ line ++ ['\n']) = ⟨(Position.after front).line + 1, 0⟩ := by
      rw [Position.after_append, Position.after_append, Position.advance_of_not_mem hline]
      rfl
    have hmore := @ih (front ++ line ++ ['\n']) (by rw [hlast]; simp [EndsSolid])
    obtain ⟨second, lines, hlines⟩ := List.exists_cons_of_ne_nil (Text.cutAt_ne_nil '\n' rest)
    rw [hnext] at hmore
    rw [Text.cutAt_append hline, Text.breaks_line hline, blankEnds_cons, ← hmore, hlines, trailingFrom,
      found_eq hline hfront]
    · rfl
    · simp

/-! ### What stands before text and blanks -/

/-- Lexemes behind some characters, in which text and blanks stand only where no blank stands before
them. -/
def Bounded (front : List Char) : List Lexeme → Prop
  | [] => True
  | l :: more =>
    (l.kind = .text ∨ l.kind = .whitespace → EndsSolid front) ∧ Bounded (front ++ l.text) more

theorem bounded_append {front : List Char} {a b : List Lexeme} :
    Bounded front (a ++ b) ↔ Bounded front a ∧ Bounded (front ++ texts a) b := by
  induction a generalizing front with
  | nil => simp [Bounded]
  | cons l a ih => simp [Bounded, ih, and_assoc]

theorem bounded_of_separated {next front : List Char} {inner : List Lexeme}
    (h : Separated next inner) (hkinds : ∀ l ∈ inner, l.kind ≠ .text)
    (hfront : ∀ l ∈ inner.head?, l.kind = .whitespace → EndsSolid front) : Bounded front inner := by
  induction inner generalizing front with
  | nil => trivial
  | cons l more ih =>
    obtain ⟨hne, hmore, hblanks, hsolid⟩ := h
    rw [List.forall_mem_cons] at hkinds
    refine ⟨fun hkind => hfront l rfl (hkind.resolve_left hkinds.1), ih hmore hkinds.2 ?_⟩
    intro second hsecond hkind
    by_cases hblank : l.kind = .whitespace
    · -- Two runs of blanks never stand side by side.
      obtain ⟨rest, rfl⟩ : ∃ rest, more = second :: rest := by
        cases more with
        | nil => cases hsecond
        | cons first rest =>
          cases hsecond
          exact ⟨rest, rfl⟩
      obtain ⟨c, cs, hc⟩ := List.exists_cons_of_ne_nil hmore.1
      have hstop : isBlank c = false := (hblanks hblank).2 c (by simp [hc])
      have hgoes : isBlank c = true := (hmore.2.2.1 hkind).1 c (by simp [hc])
      rw [hgoes] at hstop
      cases hstop
    · exact (hsolid hblank).2.append hne front

theorem endsSolid_of_isOpener {mark : Char} {opener : List Char} (h : IsOpener mark opener)
    (hmark : isGraphic mark = true) (front : List Char) : EndsSolid (front ++ opener) :=
  (solid_of_isGraphic (h.isGraphic hmark)).2.append h.ne_nil front

theorem endsSolid_of_isCloser {mark : Char} {closer : List Char} (h : IsCloser mark closer)
    (hmark : isGraphic mark = true) (front : List Char) : EndsSolid (front ++ closer) :=
  (solid_of_isGraphic (h.isGraphic hmark)).2.append h.ne_nil front

/-- An item is bounded by its delimiters on the inside, and ends with one. -/
theorem bounded_item {next : List Char} {item : List Lexeme} (h : IsItem next item)
    (front : List Char) : Bounded front item ∧ EndsSolid (front ++ texts item) := by
  cases h with
  | @comment opener body closer hopener _ hcloser =>
    have hopens := endsSolid_of_isOpener hopener.1 (by decide) front
    have hcloses := endsSolid_of_isCloser hcloser (by decide) (front ++ (opener ++ body))
    refine ⟨⟨by simp, bounded_append.2 ⟨?_, by simp [Bounded]⟩⟩, by simpa using hcloses⟩
    unfold commentBody
    split
    · trivial
    · exact ⟨fun _ => hopens, trivial⟩
  | @tag tag opener closer inner hopener hinner hcloser =>
    have hopens := endsSolid_of_isOpener hopener.1 (by cases tag <;> decide) front
    have hcloses := endsSolid_of_isCloser hcloser (by cases tag <;> decide)
      (front ++ (opener ++ texts inner))
    refine ⟨⟨?_, bounded_append.2 ⟨?_, ?_⟩⟩, by simpa using hcloses⟩
    · cases tag <;> simp [Tag.startKind]
    · refine bounded_of_separated hinner.separated (fun l hl hkind => ?_) fun _ _ _ => hopens
      have hinside := hinner.isInner_kind l hl
      rw [hkind] at hinside
      cases hinside
    · cases tag <;> simp [Bounded, Tag.endKind]

theorem bounded_of_isTemplate {next : List Char} {lexemes : List Lexeme}
    (h : IsTemplate next lexemes) {front : List Char}
    (hfront : ∀ l ∈ lexemes.head?, l.kind = .text → EndsSolid front) : Bounded front lexemes := by
  induction h generalizing front with
  | done => trivial
  | @text chars more _ _ hhead _ ih =>
    refine ⟨fun _ => hfront _ rfl rfl, ih fun l hl hkind => ?_⟩
    exact absurd hkind (hhead l hl)
  | item hitem _ ih =>
    obtain ⟨hinside, hends⟩ := bounded_item hitem front
    exact bounded_append.2 ⟨hinside, ih fun _ _ _ => hends⟩

/-! ### Whole templates -/

theorem endsSolid_lastLine {front : List Char} (h : EndsSolid front) : EndsSolid (lastLine front) := by
  obtain ⟨before, hbefore⟩ : ∃ before, before ++ lastLine front = front :=
    List.rtakeWhile_suffix _ front
  intro c hc
  have hne : lastLine front ≠ [] := List.ne_nil_of_mem (List.mem_of_mem_getLast? hc)
  refine h c ?_
  rw [← hbefore, List.getLast?_append_of_ne_nil before hne]
  exact hc

theorem breaks_of_isGraphic {text : List Char} (h : ∀ c ∈ text, isGraphic c = true)
    (front : List Char) : Text.breaks front text = [] :=
  Text.breaks_of_not_mem (fun hmem => absurd (h _ hmem) (by decide)) front

/-- The lines that end in one lexeme, if line feeds in strings do not count. -/
theorem trailing_eq {front : List Char} {l : Lexeme}
    (hfront : l.kind = .text ∨ l.kind = .whitespace → EndsSolid front) (hvisible : l.IsVisible) :
    trailing ⟨l.kind, String.ofList l.text, Position.after front⟩ =
      blankEnds (if l.kind = .string then [] else Text.breaks front l.text) := by
  by_cases hblank : l.kind = .text ∨ l.kind = .whitespace
  · have hfound := trailingFrom_eq (endsSolid_lastLine (hfront hblank)) l.text
    rcases hblank with hkind | hkind
    · simp [trailing, hkind, hfound]
    · simp [trailing, hkind, hfound]
  · have hnone : trailing ⟨l.kind, String.ofList l.text, Position.after front⟩ = [] := by
      rw [not_or] at hblank
      unfold trailing
      split
      · next heq => exact absurd heq hblank.1
      · next heq => exact absurd heq hblank.2
      · rfl
    rw [hnone]
    split
    · rfl
    · next hstring =>
      have hfree : l.kind.isFree = false := by
        cases hkind : l.kind <;> simp_all [Token.Kind.isFree]
      rw [breaks_of_isGraphic (hvisible hfree)]
      rfl

/-- Whether a line feed behind some characters is outside the strings among tokens that begin at an
offset. -/
def outsideStrings (tokens : List Token) (offset : Nat) (front : List Char) : Bool :=
  Token.kindAt tokens (front.length - offset) ≠ some .string

theorem filter_outsideStrings_cons {front text : List Char} {kind : Token.Kind} {place : Position}
    {more : List Token} :
    (Text.breaks front text).filter
        (outsideStrings (⟨kind, String.ofList text, place⟩ :: more) front.length) =
      if kind = .string then [] else Text.breaks front text := by
  have hkind : ∀ p ∈ Text.breaks front text,
      outsideStrings (⟨kind, String.ofList text, place⟩ :: more) front.length p =
        decide (kind ≠ .string) := by
    intro p hp
    have hlen := Text.length_of_mem_breaks hp
    have hin : p.length - front.length < (String.ofList text).length := by
      rw [String.length_ofList]
      omega
    rw [outsideStrings, Token.kindAt, if_pos hin]
    simp
  rw [List.filter_congr hkind]
  split
  · next hstring => simp [hstring]
  · next hstring => simp [hstring]

theorem flatMap_trailing_locate {front : List Char} {lexemes : List Lexeme}
    (hbounded : Bounded front lexemes) (hvisible : ∀ l ∈ lexemes, l.IsVisible) :
    (Lexeme.locate (Position.after front) lexemes).flatMap trailing =
      blankEnds ((Text.breaks front (texts lexemes)).filter
        (outsideStrings (Lexeme.locate (Position.after front) lexemes) front.length)) := by
  induction lexemes generalizing front with
  | nil => rfl
  | cons l more ih =>
    rw [List.forall_mem_cons] at hvisible
    have hmore := ih hbounded.2 hvisible.2
    -- Behind the lexeme, an offset that counts from its start is beyond it.
    have hbehind : ∀ p ∈ Text.breaks (front ++ l.text) (texts more),
        outsideStrings (Lexeme.locate (Position.after front) (l :: more)) front.length p =
          outsideStrings (Lexeme.locate (Position.after (front ++ l.text)) more)
            (front ++ l.text).length p := by
      intro p hp
      have hlen := (Text.length_of_mem_breaks hp).1
      rw [List.length_append] at hlen
      have hout : ¬ p.length - front.length < (String.ofList l.text).length := by
        rw [String.length_ofList]
        omega
      have hrest : p.length - front.length - l.text.length = p.length - (front ++ l.text).length := by
        rw [List.length_append]
        omega
      rw [outsideStrings, outsideStrings, Lexeme.locate, Token.kindAt, if_neg hout, String.length_ofList,
        hrest, Position.after_append]
    rw [Lexeme.texts_cons, Text.breaks_append, List.filter_append, List.filter_congr hbehind,
      blankEnds_append, ← hmore, Lexeme.locate, filter_outsideStrings_cons, List.flatMap_cons,
      trailing_eq hbounded.1 hvisible.1, Position.after_append]

/-- **Exactly the lines that end with blanks.** The rule finds one violation for each line that a line
feed outside the strings ends and that has a space or a tab at its end, in the order of the lines and at
the first of these blanks. -/
theorem check_ended_lines (rule : TrailingSpace) {source : Source} {stream : TokenStream}
    (h : tokenize source = .ok stream) :
    rule.check stream =
        ((EndedLine.ofText source.content.toList).filter fun line =>
          Token.kindAt stream.tokens line.breakAt ≠ some .string ∧ line.EndsBlank).map (fun line =>
            ⟨source.displayPath, line.blanksFrom, "A line should not end with blank space(s).",
              rule.severity⟩) ∧
      (rule.check stream).Pairwise fun v w => v.position.line < w.position.line := by
  obtain ⟨lexemes, hscan, rfl⟩ := scan_of_tokenize h
  have htemplate := isTemplate_of_scan hscan
  have hbounded : Bounded [] lexemes := bounded_of_isTemplate htemplate fun _ _ _ => by simp [EndsSolid]
  have hfound := flatMap_trailing_locate hbounded htemplate.isVisible
  have hstart : Position.after [] = Position.start := rfl
  rw [texts_of_scan hscan, hstart] at hfound
  have hlines : ((Text.breaks [] source.content.toList).filter
        (outsideStrings (Lexeme.locate Position.start lexemes) 0)).map EndedLine.before =
      (EndedLine.ofText source.content.toList).filter fun line =>
        Token.kindAt (Lexeme.locate Position.start lexemes) line.breakAt ≠ some .string := by
    rw [EndedLine.ofText_eq, List.filter_map]
    rfl
  rw [check, hfound, blankEnds, List.length_nil, hlines, List.filter_filter, List.map_map]
  refine ⟨by simp only [Bool.decide_and, Bool.and_comm, Function.comp_def], ?_⟩
  exact List.pairwise_map.2 ((EndedLine.pairwise_ofText _).sublist List.filter_sublist)

/-- Four lines end with blanks: one in text, one in a string, one behind a tag and with a carriage
return, and one inside a tag. The one in the string is left alone. -/
theorem check_ended_lines_tags :
    let source : Source :=
      ⟨"a \n\x7b\x7b \"b \n\" \x7d\x7d \t\r\n\x7b% c  \n%\x7d", "/t/a", "a"⟩
    let stream : TokenStream := ⟨"a", [⟨.text, "a \n", ⟨1, 0⟩⟩, ⟨.varStart, "\x7b\x7b", ⟨2, 0⟩⟩,
      ⟨.whitespace, " ", ⟨2, 2⟩⟩, ⟨.string, "\"b \n\"", ⟨2, 3⟩⟩, ⟨.whitespace, " ", ⟨3, 1⟩⟩,
      ⟨.varEnd, "\x7d\x7d", ⟨3, 2⟩⟩, ⟨.text, " \t\r\n", ⟨3, 4⟩⟩, ⟨.blockStart, "\x7b%", ⟨4, 0⟩⟩,
      ⟨.whitespace, " ", ⟨4, 2⟩⟩, ⟨.name, "c", ⟨4, 3⟩⟩, ⟨.whitespace, "  \n", ⟨4, 4⟩⟩,
      ⟨.blockEnd, "%\x7d", ⟨5, 0⟩⟩, ⟨.eof, "", ⟨5, 2⟩⟩]⟩
    let violation := fun position : Position =>
      (⟨"a", position, "A line should not end with blank space(s).", .error⟩ : Violation)
    tokenize source = .ok stream ∧
      ((EndedLine.ofText source.content.toList).filter fun line => line.EndsBlank).map
        EndedLine.blanksFrom = [⟨1, 1⟩, ⟨2, 5⟩, ⟨3, 4⟩, ⟨4, 4⟩] ∧
      TrailingSpace.check {} stream = [⟨1, 1⟩, ⟨3, 4⟩, ⟨4, 4⟩].map violation := by
  intro source stream violation
  have hread : tokenize source = .ok stream := by decide +kernel
  refine ⟨hread, by decide +kernel, ?_⟩
  exact (check_ended_lines {} hread).1.trans (by decide +kernel)

end TrailingSpace

end TemplateLint
