import TemplateLint.Proofs.Rule.Locality
import TemplateLint.Proofs.Template.Blanks

/-!
# Padding, seen in the characters

The rule about spacing looks at the token behind an opening delimiter and at the one before a closing
delimiter. What it is meant to judge are the blanks that stand there in the template, and these are
characters. The two agree because of the way blanks are read in tags: the token beside a delimiter holds
all the blanks there are, or it is no run of blanks and there are none. It makes no difference if both
sides are padded by the same blanks, nor if a tag is empty, and no padding at all is a padding of zero
spaces.
-/

namespace TemplateLint

open Lexeme (texts)

/-! ### Tags in a text -/

/-- A tag of a text, with the characters before and behind it. Modifiers are part of the delimiters. -/
structure TagIn (text : List Char) where
  kind : Tag
  front : List Char
  opener : List Char
  inner : List Char
  closer : List Char
  back : List Char
  text_eq : front ++ (opener ++ (inner ++ (closer ++ back))) = text
  isOpener : IsOpener kind.openMark opener
  isCloser : IsCloser kind.closeMark closer

namespace TagIn

variable {text : List Char}

/-- The token of the opening delimiter. -/
def openToken (tag : TagIn text) : Token :=
  ⟨tag.kind.startKind, String.ofList tag.opener, Position.after tag.front⟩

/-- The token of the closing delimiter. -/
def closeToken (tag : TagIn text) : Token :=
  ⟨tag.kind.endKind, String.ofList tag.closer,
    Position.after (tag.front ++ (tag.opener ++ tag.inner))⟩

/-- The blanks right behind the opening delimiter. -/
def blanksAfter (tag : TagIn text) : List Char :=
  (tag.inner ++ (tag.closer ++ tag.back)).takeWhile isBlank

/-- The blanks right before the closing delimiter, as far as the opening one. -/
def blanksBefore (tag : TagIn text) : List Char :=
  tag.inner.rtakeWhile isBlank

end TagIn

namespace DelimiterSpacing

/-- Whether blanks go over a line break or are the spaces that are asked for. -/
def Pads (rule : DelimiterSpacing) (blanks : List Char) : Prop :=
  '\n' ∈ blanks ∨ blanks = List.replicate rule.spaces ' '

instance (rule : DelimiterSpacing) (blanks : List Char) : Decidable (rule.Pads blanks) :=
  inferInstanceAs (Decidable (_ ∨ _))

/-- The finding at a delimiter that stands behind some characters. -/
def findingBehind (rule : DelimiterSpacing) (path side : String) (front delimiter : List Char) :
    Violation :=
  let spaces := rule.spaces
  let delimiter := String.ofList delimiter
  ⟨path, Position.after front, s!"There should be {spaces} space(s) {side} \"{delimiter}\".",
    rule.severity⟩

/-- What is found at one tag: at its opening delimiter, and then at its closing one. -/
def tagFindings (rule : DelimiterSpacing) (path : String) {text : List Char} (tag : TagIn text) :
    List Violation :=
  (if rule.Pads tag.blanksAfter then []
    else [rule.findingBehind path "after" tag.front tag.opener]) ++
  (if rule.Pads tag.blanksBefore then []
    else [rule.findingBehind path "before" (tag.front ++ (tag.opener ++ tag.inner)) tag.closer])

/-! ### The tokens beside a delimiter -/

theorem acceptsBlanks_iff (rule : DelimiterSpacing) (blanks : List Char) :
    rule.acceptsBlanks blanks = true ↔ rule.Pads blanks := by
  simp only [acceptsBlanks, Pads, Bool.or_eq_true, Bool.and_eq_true, List.contains_iff_mem,
    List.all_eq_true, beq_iff_eq, List.eq_replicate_iff]

theorem accepts_iff (rule : DelimiterSpacing) (neighbour : Option Token) :
    rule.accepts neighbour = true ↔ rule.Pads (blanksOf (neighbour.map Token.lexeme)) := by
  have hnone : (rule.spaces == 0) = true ↔ rule.Pads [] := by
    simp only [Pads, List.not_mem_nil, false_or, beq_iff_eq]
    cases rule.spaces <;> simp [List.replicate_succ]
  cases neighbour with
  | none => exact hnone
  | some t =>
    by_cases hkind : t.kind = .whitespace
    · have hblanks : rule.accepts (some t) = rule.acceptsBlanks t.value.toList := by
        simp [accepts, Option.filter_some, Token.is, hkind]
      rw [hblanks, acceptsBlanks_iff, Option.map_some, blanksOf_of_kind hkind]
      rfl
    · have hother : rule.accepts (some t) = (rule.spaces == 0) := by
        simp [accepts, Option.filter_some, Token.is, hkind]
      rw [hother, hnone, Option.map_some, blanksOf_of_kind_ne hkind]

theorem checkToken_start (rule : DelimiterSpacing) (path : String) (tag : Tag)
    (front opener : List Char) (before behind : Option Token) :
    rule.checkToken path before ⟨tag.startKind, String.ofList opener, Position.after front⟩ behind =
      if rule.Pads (blanksOf (behind.map Token.lexeme)) then []
      else [rule.findingBehind path "after" front opener] := by
  rw [← if_congr (rule.accepts_iff behind) rfl rfl]
  cases tag <;> rfl

theorem checkToken_end (rule : DelimiterSpacing) (path : String) (tag : Tag)
    (front closer : List Char) (before behind : Option Token) :
    rule.checkToken path before ⟨tag.endKind, String.ofList closer, Position.after front⟩ behind =
      if rule.Pads (blanksOf (before.map Token.lexeme)) then []
      else [rule.findingBehind path "before" front closer] := by
  rw [← if_congr (rule.accepts_iff before) rfl rfl]
  cases tag <;> rfl

theorem checkFrom_append_of_neutral (rule : DelimiterSpacing) (path : String) {tokens : List Token}
    (h : ∀ t ∈ tokens, t.kind.opensTag = false ∧ t.kind.closesTag = false) (before : Option Token)
    (rest : List Token) :
    rule.checkFrom path before (tokens ++ rest) =
      rule.checkFrom path (tokens.getLast?.or before) rest := by
  induction tokens generalizing before with
  | nil => rfl
  | cons t tokens ih =>
    rw [List.forall_mem_cons] at h
    have hnothing : rule.checkToken path before t (tokens ++ rest).head? = [] := by
      unfold checkToken
      split <;> simp_all [Token.Kind.opensTag, Token.Kind.closesTag]
    have hlast : tokens.getLast?.or (some t) = (t :: tokens).getLast?.or before := by
      rw [List.getLast?_cons]
      cases tokens.getLast? <;> rfl
    rw [List.cons_append, checkFrom, hnothing, List.nil_append, ih h.2, hlast]

/-! ### Tokens and tags -/

/-- Tokens whose delimiters are those of some tags, and in which the findings of these tags are found,
whatever token stands before them. -/
structure Matches (rule : DelimiterSpacing) (path : String) {text : List Char} (tokens : List Token)
    (tags : List (TagIn text)) : Prop where
  opens : tokens.filter (fun t => t.kind.opensTag) = tags.map TagIn.openToken
  closes : tokens.filter (fun t => t.kind.closesTag) = tags.map TagIn.closeToken
  findings : ∀ before, rule.checkFrom path before tokens = tags.flatMap (rule.tagFindings path)

namespace Matches

variable {rule : DelimiterSpacing} {path : String} {text : List Char} {rest : List Token}
  {tags : List (TagIn text)}

theorem neutral (h : rule.Matches path rest tags) {tokens : List Token}
    (hneutral : ∀ t ∈ tokens, t.kind.opensTag = false ∧ t.kind.closesTag = false) :
    rule.Matches path (tokens ++ rest) tags where
  opens := by
    rw [List.filter_append, h.opens, List.filter_eq_nil_iff.2 fun t ht => by simp [(hneutral t ht).1]]
    rfl
  closes := by
    rw [List.filter_append, h.closes, List.filter_eq_nil_iff.2 fun t ht => by simp [(hneutral t ht).2]]
    rfl
  findings before := by
    rw [rule.checkFrom_append_of_neutral path hneutral, h.findings]

theorem tag (h : rule.Matches path rest tags) (tag : TagIn text) {inner : List Token}
    (hneutral : ∀ t ∈ inner, t.kind.opensTag = false ∧ t.kind.closesTag = false)
    (hafter : blanksOf (inner.head?.map Token.lexeme) = tag.blanksAfter)
    (hbefore : blanksOf (inner.getLast?.map Token.lexeme) = tag.blanksBefore) :
    rule.Matches path (tag.openToken :: (inner ++ tag.closeToken :: rest)) (tag :: tags) := by
  have hopens : tag.openToken.kind.opensTag = true ∧ tag.openToken.kind.closesTag = false := by
    show tag.kind.startKind.opensTag = true ∧ tag.kind.startKind.closesTag = false
    cases tag.kind <;> decide
  have hcloses : tag.closeToken.kind.opensTag = false ∧ tag.closeToken.kind.closesTag = true := by
    show tag.kind.endKind.opensTag = false ∧ tag.kind.endKind.closesTag = true
    cases tag.kind <;> decide
  have hopener : tag.openToken.lexeme.kind ≠ .whitespace := by
    show tag.kind.startKind ≠ .whitespace
    cases tag.kind <;> decide
  have hcloser : tag.closeToken.lexeme.kind ≠ .whitespace := by
    show tag.kind.endKind ≠ .whitespace
    cases tag.kind <;> decide
  -- A delimiter on the other side pads as little as nothing at all.
  have hhead : blanksOf ((inner ++ tag.closeToken :: rest).head?.map Token.lexeme) =
      tag.blanksAfter := by
    rw [← hafter]
    cases inner with
    | nil => exact blanksOf_of_kind_ne hcloser
    | cons t inner => rfl
  have hlast : blanksOf ((inner.getLast?.or (some tag.openToken)).map Token.lexeme) =
      tag.blanksBefore := by
    rw [← hbefore]
    cases inner.getLast? with
    | none => exact blanksOf_of_kind_ne hopener
    | some t => rfl
  have hnoOpener : inner.filter (fun t => t.kind.opensTag) = [] :=
    List.filter_eq_nil_iff.2 fun t ht => by simp [(hneutral t ht).1]
  have hnoCloser : inner.filter (fun t => t.kind.closesTag) = [] :=
    List.filter_eq_nil_iff.2 fun t ht => by simp [(hneutral t ht).2]
  constructor
  · simp [hopens, hcloses, hnoOpener, h.opens]
  · simp [hopens, hcloses, hnoCloser, h.closes]
  · intro before
    rw [checkFrom, rule.checkFrom_append_of_neutral path hneutral, checkFrom, h.findings,
      TagIn.openToken, TagIn.closeToken, checkToken_start, checkToken_end, ← TagIn.openToken,
      ← TagIn.closeToken, hhead, hlast, List.flatMap_cons, tagFindings, List.append_assoc]

end Matches

theorem neutral_of_isInner {kind : Token.Kind} (h : kind.isInner = true) :
    kind.opensTag = false ∧ kind.closesTag = false := by
  cases kind <;> first | exact ⟨rfl, rfl⟩ | cases h

/-- The tags of a template, one after the other, behind some characters that come first. -/
theorem exists_tags (rule : DelimiterSpacing) (path : String) {text : List Char}
    {lexemes : List Lexeme} (h : IsTemplate [] lexemes) (front : List Char)
    (htext : front ++ texts lexemes = text) :
    ∃ tags : List (TagIn text), rule.Matches path (Lexeme.locate (Position.after front) lexemes) tags := by
  induction h generalizing front with
  | done => exact ⟨[], rfl, rfl, fun _ => rfl⟩
  | @text chars more _ _ _ _ ih =>
    obtain ⟨tags, htags⟩ := ih (front ++ chars) (by simpa using htext)
    rw [Position.after_append] at htags
    have hneutral : ∀ t ∈ [(⟨.text, String.ofList chars, Position.after front⟩ : Token)],
        t.kind.opensTag = false ∧ t.kind.closesTag = false :=
      List.forall_mem_singleton.2 ⟨rfl, rfl⟩
    exact ⟨tags, htags.neutral hneutral⟩
  | @item item more hitem _ ih =>
    obtain ⟨tags, htags⟩ := ih (front ++ texts item) (by simpa using htext)
    rw [Position.after_append] at htags
    rw [List.append_nil] at hitem
    cases hitem with
    | @comment opener body closer =>
      refine ⟨tags, ?_⟩
      rw [locate_append]
      refine htags.neutral fun t ht => ?_
      obtain ⟨l, hl, hkind, -⟩ := Lexeme.mem_tokens ht
      rw [hkind]
      rcases kind_of_mem_comment hl with hcomment | hcomment | hcomment <;> rw [hcomment] <;>
        exact ⟨rfl, rfl⟩
    | @tag kind opener closer inner hopener hinner hcloser =>
      have hclosing : StartsSolid (closer ++ texts more) := by
        unfold StartsSolid
        rw [List.head?_append_of_ne_nil _ hcloser.ne_nil]
        exact (solid_of_isGraphic (hcloser.isGraphic (by cases kind <;> decide))).1
      let tag : TagIn text :=
        ⟨kind, front, opener, texts inner, closer, texts more, by simpa using htext, hopener.1, hcloser⟩
      refine ⟨tag :: tags, ?_⟩
      have hlocate : Lexeme.locate (Position.after front)
          (⟨kind.startKind, opener⟩ :: (inner ++ [⟨kind.endKind, closer⟩]) ++ more) =
          tag.openToken :: (Lexeme.tokens (Position.after (front ++ opener)) inner ++
            tag.closeToken :: Lexeme.locate ((Position.after front).advance
              (texts (⟨kind.startKind, opener⟩ :: (inner ++ [⟨kind.endKind, closer⟩])))) more) := by
        simp [Lexeme.locate, locate_append, Position.after_append, TagIn.openToken, TagIn.closeToken, tag]
      rw [hlocate]
      refine htags.tag tag (fun t ht => ?_) ?_ ?_
      · obtain ⟨l, hl, hkind, -⟩ := Lexeme.mem_tokens ht
        rw [hkind]
        exact neutral_of_isInner (hinner.isInner_kind l hl)
      · rw [← List.head?_map, map_lexeme_tokens]
        exact (hinner.separated.leading hclosing).symm
      · rw [getLast?_tokens]
        exact hinner.separated.trailing.symm

/-- **Spacing is judged by the characters.** The delimiters of a template belong to tags, each to one,
and the findings are those of the tags in order: one at the opening delimiter unless the blanks behind it
go over a line break or are the spaces asked for, and one at the closing delimiter in the same way. -/
theorem check_padding (rule : DelimiterSpacing) {source : Source} {stream : TokenStream}
    (h : tokenize source = .ok stream) :
    ∃ tags : List (TagIn source.content.toList),
      stream.tokens.filter (fun t => t.kind.opensTag) = tags.map TagIn.openToken ∧
      stream.tokens.filter (fun t => t.kind.closesTag) = tags.map TagIn.closeToken ∧
      rule.check stream = tags.flatMap (rule.tagFindings source.displayPath) := by
  obtain ⟨lexemes, hscan, rfl⟩ := scan_of_tokenize h
  obtain ⟨tags, htags⟩ := rule.exists_tags source.displayPath (isTemplate_of_scan hscan) []
    (texts_of_scan hscan)
  exact ⟨tags, htags.opens, htags.closes, htags.findings none⟩

/-- A tag whose two paddings are the same blanks, a tag padded by a line break and by nothing, and a
comment, which is no tag. -/
theorem check_padding_shared_blanks :
    let source : Source := ⟨"\x7b\x7b-  \x7d\x7d\x7b#a#\x7d\x7b%\n b%\x7d", "/t/a", "a"⟩
    let found : List Violation :=
      [⟨"a", ⟨1, 0⟩, "There should be 1 space(s) after \"\x7b\x7b-\".", .error⟩,
        ⟨"a", ⟨1, 5⟩, "There should be 1 space(s) before \"\x7d\x7d\".", .error⟩,
        ⟨"a", ⟨2, 2⟩, "There should be 1 space(s) before \"%\x7d\".", .error⟩]
    ∃ tags : List (TagIn source.content.toList),
      tags.map TagIn.openToken =
        [⟨.varStart, "\x7b\x7b-", ⟨1, 0⟩⟩, ⟨.blockStart, "\x7b%", ⟨1, 12⟩⟩] ∧
      tags.map TagIn.closeToken = [⟨.varEnd, "\x7d\x7d", ⟨1, 5⟩⟩, ⟨.blockEnd, "%\x7d", ⟨2, 2⟩⟩] ∧
      tags.flatMap (DelimiterSpacing.tagFindings {} "a") = found := by
  intro source found
  have hread : tokenize source = .ok ⟨"a", [⟨.varStart, "\x7b\x7b-", ⟨1, 0⟩⟩,
      ⟨.whitespace, "  ", ⟨1, 3⟩⟩, ⟨.varEnd, "\x7d\x7d", ⟨1, 5⟩⟩, ⟨.commentStart, "\x7b#", ⟨1, 7⟩⟩,
      ⟨.text, "a", ⟨1, 9⟩⟩, ⟨.commentEnd, "#\x7d", ⟨1, 10⟩⟩, ⟨.blockStart, "\x7b%", ⟨1, 12⟩⟩,
      ⟨.whitespace, "\n ", ⟨1, 14⟩⟩, ⟨.name, "b", ⟨2, 1⟩⟩, ⟨.blockEnd, "%\x7d", ⟨2, 2⟩⟩,
      ⟨.eof, "", ⟨2, 4⟩⟩]⟩ := by decide +kernel
  obtain ⟨tags, hopens, hcloses, hcheck⟩ := check_padding {} hread
  refine ⟨tags, hopens.symm.trans (by decide), hcloses.symm.trans (by decide), ?_⟩
  exact hcheck.symm.trans (by decide +kernel)

end DelimiterSpacing

end TemplateLint
