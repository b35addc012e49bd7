import TemplateLint.Proofs.Rule.Locality
import TemplateLint.Proofs.Text.Lines
import TemplateLint.Proofs.Text.Places

/-!
# Where rules put their findings

The findings of a rule stand at places of characters of the template, each at a place behind the one
before. For three of the rules the places are those of tokens, and for the rule about line ends they are
inside tokens. Both are said by one statement: the positions of the findings are a sublist of the places
of the text.

Two rules give findings that stand behind the token they start from. They do not overlap, because such
a finding is never at or behind the next token that opens a block tag: to get there a rule would have to
pass a token at which it stops.
-/

namespace TemplateLint

open Position (places)

/-! ### Places of tokens -/

theorem positions_tokens_sublist {lexemes : List Lexeme} (hne : ∀ l ∈ lexemes, l.text ≠ [])
    (here : Position) :
    ((Lexeme.tokens here lexemes).map Token.position).Sublist
      (places here (Lexeme.texts lexemes)) := by
  induction lexemes generalizing here with
  | nil => exact .slnil
  | cons l more ih =>
    rw [List.forall_mem_cons] at hne
    obtain ⟨c, text, htext⟩ := List.exists_cons_of_ne_nil hne.1
    rw [Lexeme.texts_cons, Position.places_append, htext]
    refine List.Sublist.cons_cons here ?_
    refine (ih hne.2 _).trans ?_
    rw [htext]
    exact List.sublist_append_right _ _

theorem DelimiterSpacing.positions_sublist (rule : DelimiterSpacing) (path : String)
    (before : Option Token) (tokens : List Token) :
    ((rule.checkFrom path before tokens).map Violation.position).Sublist
      (tokens.map Token.position) := by
  induction tokens generalizing before with
  | nil => exact .slnil
  | cons t rest ih =>
    have htoken : ((rule.checkToken path before t rest.head?).map Violation.position).Sublist
        [t.position] := by
      unfold checkToken
      split
      all_goals try split
      all_goals simp [finding]
    rw [checkFrom, List.map_append]
    exact htoken.append (ih (some t))

/-! ### Looking ahead -/

/-- Whether a token does not open a block tag. -/
def Token.passesBlock (t : Token) : Bool :=
  !t.is .blockStart

/-- What is found ahead of the tokens that open block tags, if it stands before the next one. -/
theorem Token.atEach_sublist {α : Type} {f : Token → List Token → List α} {place : α → Position}
    (hnone : ∀ t rest, t.passesBlock = true → f t rest = [])
    (hahead : ∀ t rest, ((f t rest).map place).Sublist
      ((rest.takeWhile passesBlock).map Token.position))
    (tokens : List Token) :
    ((Token.atEach f tokens).map place).Sublist
      ((tokens.dropWhile passesBlock).map Token.position) := by
  induction tokens with
  | nil => exact .slnil
  | cons t rest ih =>
    by_cases hpasses : t.passesBlock = true
    · rw [atEach, hnone t rest hpasses, List.nil_append, List.dropWhile_cons_of_pos hpasses]
      exact ih
    · -- What is found from here ends before the next block tag, and what the rest finds begins there.
      have hboth := (hahead t rest).append ih
      rw [← List.map_append, ← List.map_append, List.takeWhile_append_dropWhile] at hboth
      rw [atEach, List.dropWhile_cons_of_neg hpasses]
      exact hboth.trans (List.sublist_cons_self _ _)

theorem passesBlock_of_kind {t : Token} {kind : Token.Kind} (h : t.kind = kind)
    (hkind : kind ≠ .blockStart) : t.passesBlock = true := by
  simp [Token.passesBlock, Token.is, h, hkind]

/-- A blank is not the start of a block tag, so the significant tokens before the next one all stand
before it. -/
theorem takeWhile_significant_sublist (tokens : List Token) :
    ((Token.significant tokens).takeWhile Token.passesBlock).Sublist
      (tokens.takeWhile Token.passesBlock) := by
  induction tokens with
  | nil => exact .slnil
  | cons t rest ih =>
    rw [Token.significant_cons]
    split
    · next hblank =>
      rw [Token.is, beq_iff_eq] at hblank
      rw [List.takeWhile_cons_of_pos (passesBlock_of_kind hblank (by decide))]
      exact ih.cons t
    · by_cases hpasses : t.passesBlock = true
      · rw [List.takeWhile_cons_of_pos hpasses, List.takeWhile_cons_of_pos hpasses]
        exact ih.cons_cons t
      · rw [List.takeWhile_cons_of_neg hpasses]
        exact List.nil_sublist _

theorem DeprecatedTag.checkToken_sublist (rule : DeprecatedTag) (path : String) (t : Token)
    (rest : List Token) :
    ((rule.checkToken path t rest).toList.map Violation.position).Sublist
      ((rest.takeWhile Token.passesBlock).map Token.position) := by
  unfold checkToken
  split
  · cases hwords : Token.significant rest with
    | nil => simp
    | cons word names =>
      rw [List.head?_cons, Option.bind_some, finding?]
      split
      · next hname =>
        rw [Token.is, beq_iff_eq] at hname
        have hahead := takeWhile_significant_sublist rest
        rw [hwords, List.takeWhile_cons_of_pos (passesBlock_of_kind hname (by decide))] at hahead
        have hword : [word.position].Sublist ((rest.takeWhile Token.passesBlock).map Token.position) :=
          ((List.singleton_sublist.2 (List.mem_cons_self ..)).trans hahead).map Token.position
        cases removed? rule.version word.value with
        | none => exact List.nil_sublist _
        | some tag => exact hword
      · exact List.nil_sublist _
  · exact List.nil_sublist _

namespace LowerCaseVariable

theorem declared_sublist (tokens : List Token) :
    (declared tokens).Sublist (tokens.takeWhile Token.passesBlock) := by
  induction tokens with
  | nil => exact .slnil
  | cons t rest ih =>
    rw [declared]
    split
    · next hname =>
      rw [Token.is, beq_iff_eq] at hname
      rw [List.takeWhile_cons_of_pos (passesBlock_of_kind hname (by decide))]
      exact ih.cons_cons t
    · split
      · next hcomma =>
        rw [Token.isValue, Bool.and_eq_true, beq_iff_eq] at hcomma
        rw [List.takeWhile_cons_of_pos (passesBlock_of_kind hcomma.1 (by decide))]
        exact ih.cons t
      · exact List.nil_sublist _

theorem targets_sublist (t : Token) (rest : List Token) :
    (targets t rest).Sublist (rest.takeWhile Token.passesBlock) := by
  unfold targets
  split
  · split
    · next word names hwords =>
      split
      · next hset =>
        rw [Token.isValue, Bool.and_eq_true, beq_iff_eq] at hset
        have hahead := takeWhile_significant_sublist rest
        rw [hwords, List.takeWhile_cons_of_pos (passesBlock_of_kind hset.1 (by decide))] at hahead
        exact ((declared_sublist names).cons word).trans hahead
      · exact List.nil_sublist _
    · exact List.nil_sublist _
  · exact List.nil_sublist _

end LowerCaseVariable

/-! ### Places inside tokens -/

namespace TrailingSpace

theorem length_withoutReturn_le (line : List Char) : (withoutReturn line).length ≤ line.length := by
  unfold withoutReturn
  split
  · simp
  · exact le_rfl

theorem length_trimEnd_le (drop : Char → Bool) (text : List Char) :
    (Text.trimEnd drop text).length ≤ text.length := by
  have hle := (List.dropWhile_sublist drop (l := text.reverse)).length_le
  rw [List.length_reverse] at hle
  rwa [Text.trimEnd, List.length_reverse]

/-- The blanks at the end of a line begin at one of its characters. -/
theorem kept_mem_places {line : List Char} (hline : '\n' ∉ line) (here : Position)
    (h : (Text.trimEnd isTrailing (withoutReturn line)).length ≠ (withoutReturn line).length) :
    ⟨here.line, here.column + (Text.trimEnd isTrailing (withoutReturn line)).length⟩ ∈
      places here line := by
  have hkept := length_trimEnd_le isTrailing (withoutReturn line)
  have hle := length_withoutReturn_le line
  refine Position.mem_places_iff.2
    ⟨(Text.trimEnd isTrailing (withoutReturn line)).length, by omega, ?_⟩
  rw [Position.advance_of_not_mem fun hmem => hline (List.mem_of_mem_take hmem), List.length_take,
    Nat.min_eq_left (by omega)]

theorem trailingFrom_sublist (here : Position) (text : List Char) :
    (trailingFrom here (Text.cutAt '\n' text)).Sublist (places here text) := by
  induction text using Text.cut_induction '\n' generalizing here with
  | last line hline =>
    rw [Text.cutAt_of_not_mem hline]
    exact List.nil_sublist _
  | more line rest hline ih =>
    have hnext : here.advance (line ++ ['\n']) = ⟨here.line + 1, 0⟩ := by
      rw [Position.advance_append, Position.advance_of_not_mem hline]
      rfl
    have hplaces : places here (line ++ '\n' :: rest) =
        places here line ++ places (here.advance line) ['\n'] ++ places ⟨here.line + 1, 0⟩ rest := by
      rw [← Position.places_append, ← hnext, ← Position.places_append]
      simp
    obtain ⟨second, lines, hlines⟩ := List.exists_cons_of_ne_nil (Text.cutAt_ne_nil '\n' rest)
    rw [Text.cutAt_append hline, hplaces, hlines, trailingFrom, ← hlines]
    · -- A line has its finding at one of its own characters; the line feed itself is never one.
      refine List.Sublist.append ?_ (ih _)
      refine List.Sublist.trans ?_ (List.sublist_append_left _ _)
      split
      · exact List.nil_sublist _
      · next hdiffers => exact List.singleton_sublist.2 (kept_mem_places hline here hdiffers)
    · simp

theorem trailing_sublist (t : Token) :
    (trailing t).Sublist (places t.position t.value.toList) := by
  unfold trailing
  split
  · exact trailingFrom_sublist _ _
  · exact trailingFrom_sublist _ _
  · exact List.nil_sublist _

theorem flatMap_trailing_sublist (here : Position) (lexemes : List Lexeme) :
    ((Lexeme.tokens here lexemes).flatMap trailing).Sublist
      (places here (Lexeme.texts lexemes)) := by
  induction lexemes generalizing here with
  | nil => exact .slnil
  | cons l more ih =>
    have hfirst := trailing_sublist ⟨l.kind, String.ofList l.text, here⟩
    rw [String.toList_ofList] at hfirst
    rw [Lexeme.tokens, List.flatMap_cons, Lexeme.texts_cons, Position.places_append]
    exact hfirst.append (ih _)

end TrailingSpace

/-! ### All rules -/

theorem Rule.positions_sublist (rule : Rule) (path : String) {lexemes : List Lexeme}
    (hne : ∀ l ∈ lexemes, l.text ≠ []) (here : Position) :
    ((rule.check ⟨path, Lexeme.tokens here lexemes⟩).map Violation.position).Sublist
      (places here (Lexeme.texts lexemes)) := by
  have htokens := positions_tokens_sublist hne here
  have hdrop := ((List.dropWhile_sublist Token.passesBlock).map Token.position).trans htokens
  cases rule with
  | delimiterSpacing r => exact (r.positions_sublist path none _).trans htokens
  | trailingSpace r =>
    have hplaces := TrailingSpace.flatMap_trailing_sublist here lexemes
    simpa [check, TrailingSpace.check, Function.comp_def] using hplaces
  | lowerCaseVariable r =>
    have htargets : ((LowerCaseVariable.allTargets (Lexeme.tokens here lexemes)).map
        Token.position).Sublist (places here (Lexeme.texts lexemes)) := by
      rw [LowerCaseVariable.allTargets_eq_atEach]
      refine (Token.atEach_sublist ?_ ?_ _).trans hdrop
      · intro t rest hpasses
        simp only [Token.passesBlock, Bool.not_eq_true'] at hpasses
        simp [LowerCaseVariable.targets, hpasses]
      · exact fun t rest => (LowerCaseVariable.targets_sublist t rest).map Token.position
    have hfilter := (List.filter_sublist (p := fun t : Token =>
      !LowerCaseVariable.isLowerCase t.value.toList)
      (l := LowerCaseVariable.allTargets (Lexeme.tokens here lexemes))).map Token.position
    simpa [check, LowerCaseVariable.check, Function.comp_def] using hfilter.trans htargets
  | deprecatedTag r =>
    simp only [check, DeprecatedTag.check, DeprecatedTag.checkFrom_eq_atEach]
    refine (Token.atEach_sublist ?_ (r.checkToken_sublist path) _).trans hdrop
    intro t rest hpasses
    simp only [Token.passesBlock, Bool.not_eq_true'] at hpasses
    simp [DeprecatedTag.checkToken, hpasses]

/-- **Findings stand at characters of the template, in order.** -/
theorem Rule.positions_sublist_of_tokenize (rule : Rule) {source : Source} {stream : TokenStream}
    (h : tokenize source = .ok stream) :
    ((rule.check stream).map Violation.position).Sublist
      (places Position.start source.content.toList) := by
  obtain ⟨lexemes, hscan, rfl⟩ := scan_of_tokenize h
  rw [rule.check_locate _ (isTemplate_of_scan hscan), ← texts_of_scan hscan]
  exact rule.positions_sublist _ (fun l hl => (lexemes_of_scan hscan l hl).2) _

end TemplateLint
