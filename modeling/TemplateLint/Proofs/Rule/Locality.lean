import TemplateLint.Proofs.Template.Composition
import TemplateLint.Proofs.Template.Kinds
import TemplateLint.Rule

/-!
# Rules judge one item at a time

What a rule says about a template is made of what it says about the parts. The reason is not in the rules
alone: two of them run ahead from the opening token of a tag, and one looks at the tokens beside a
delimiter, and none of them checks that it is still in the same tag. But a tag that is opened is closed,
and every rule stops at the closing token at the latest, so what comes behind it does not matter. On the
other side, a rule that looks back does so from a closing token only, and no template begins with one.

The rules depend on places only in that they repeat them. So a template that is moved has its findings
moved in the same way.
-/

namespace TemplateLint

open Token.Kind (Enclosed)

/-! ### Looking ahead from each token -/

/-- What a function of a token and the tokens behind it gives for all tokens, one after the other. -/
def Token.atEach {α : Type} (f : Token → List Token → List α) : List Token → List α
  | [] => []
  | t :: rest => f t rest ++ atEach f rest

theorem DeprecatedTag.checkFrom_eq_atEach (rule : DeprecatedTag) (path : String)
    (tokens : List Token) :
    rule.checkFrom path tokens =
      Token.atEach (fun t rest => (rule.checkToken path t rest).toList) tokens := by
  induction tokens with
  | nil => rfl
  | cons t rest ih => rw [checkFrom, ih, Token.atEach]

theorem LowerCaseVariable.allTargets_eq_atEach (tokens : List Token) :
    allTargets tokens = Token.atEach targets tokens := by
  induction tokens with
  | nil => rfl
  | cons t rest ih => rw [allTargets, ih, Token.atEach]

/-- A function that does not look behind the end of the tag that a token opens. -/
def StaysInTag {α : Type} (f : Token → List Token → List α) : Prop :=
  ∀ t rest more, (t.kind.opensTag = true → ∃ closer ∈ rest, closer.kind.closesTag = true) →
    f t (rest ++ more) = f t rest

theorem StaysInTag.atEach_append {α : Type} {f : Token → List Token → List α} (hf : StaysInTag f)
    {a : List Token} (ha : Enclosed (a.map Token.kind)) (b : List Token) :
    Token.atEach f (a ++ b) = Token.atEach f a ++ Token.atEach f b := by
  induction a with
  | nil => rfl
  | cons t a ih =>
    have hcloser : t.kind.opensTag = true → ∃ closer ∈ a, closer.kind.closesTag = true := by
      intro hopens
      obtain ⟨kind, hkind, hcloses⟩ := ha.1 hopens
      obtain ⟨closer, hmem, rfl⟩ := List.mem_map.1 hkind
      exact ⟨closer, hmem, hcloses⟩
    rw [List.cons_append, Token.atEach, hf t a b hcloser, ih ha.2, Token.atEach, List.append_assoc]

theorem kind_of_closesTag {t : Token} (h : t.kind.closesTag = true) :
    t.kind = .varEnd ∨ t.kind = .blockEnd := by
  cases hkind : t.kind <;> simp_all [Token.Kind.closesTag]

theorem opensTag_of_is_blockStart {t : Token} (h : t.is .blockStart = true) :
    t.kind.opensTag = true := by
  rw [Token.is, beq_iff_eq] at h
  rw [h]
  rfl

theorem isSignificant_of_closesTag {t : Token} (h : t.kind.closesTag = true) :
    t.isSignificant = true := by
  rcases kind_of_closesTag h with hkind | hkind <;> simp [Token.isSignificant, Token.is, hkind]

theorem mem_significant_of_closesTag {t : Token} {tokens : List Token} (hmem : t ∈ tokens)
    (h : t.kind.closesTag = true) : t ∈ Token.significant tokens :=
  List.mem_filter.2 ⟨hmem, isSignificant_of_closesTag h⟩

theorem DeprecatedTag.staysInTag (rule : DeprecatedTag) (path : String) :
    StaysInTag fun t rest => (rule.checkToken path t rest).toList := by
  intro t rest more hcloser
  show (rule.checkToken path t (rest ++ more)).toList = (rule.checkToken path t rest).toList
  unfold checkToken
  by_cases hstart : t.is .blockStart = true
  · obtain ⟨closer, hmem, hcloses⟩ := hcloser (opensTag_of_is_blockStart hstart)
    have hne : Token.significant rest ≠ [] :=
      List.ne_nil_of_mem (mem_significant_of_closesTag hmem hcloses)
    rw [if_pos hstart, if_pos hstart, Token.significant_append, List.head?_append_of_ne_nil _ hne]
  · rw [if_neg hstart, if_neg hstart]

namespace LowerCaseVariable

/-- Nothing is declared from the closing token of a tag on. -/
theorem declared_append {rest : List Token} (h : ∃ closer ∈ rest, closer.kind.closesTag = true)
    (more : List Token) : declared (rest ++ more) = declared rest := by
  induction rest with
  | nil => simp at h
  | cons t rest ih =>
    by_cases hcloses : t.kind.closesTag = true
    · rcases kind_of_closesTag hcloses with hkind | hkind <;>
        simp [declared, Token.is, Token.isValue, hkind]
    · have hrest : ∃ closer ∈ rest, closer.kind.closesTag = true := by
        obtain ⟨closer, hmem, hcloser⟩ := h
        rcases List.mem_cons.1 hmem with rfl | hmem
        · exact absurd hcloser hcloses
        · exact ⟨closer, hmem, hcloser⟩
      rw [List.cons_append, declared, declared, ih hrest]

theorem staysInTag : StaysInTag targets := by
  intro t rest more hcloser
  unfold targets
  by_cases hstart : t.is .blockStart = true
  · obtain ⟨closer, hmem, hcloses⟩ := hcloser (opensTag_of_is_blockStart hstart)
    have hkept := mem_significant_of_closesTag hmem hcloses
    rw [if_pos hstart, if_pos hstart, Token.significant_append]
    cases hrest : Token.significant rest with
    | nil =>
      rw [hrest] at hkept
      cases hkept
    | cons word names =>
      rw [List.cons_append]
      by_cases hset : word.isValue .name "set" = true
      · have hnames : ∃ closer ∈ names, closer.kind.closesTag = true := by
          rw [hrest] at hkept
          rcases List.mem_cons.1 hkept with rfl | hmem
          · rcases kind_of_closesTag hcloses with hkind | hkind <;> simp [Token.isValue, hkind] at hset
          · exact ⟨closer, hmem, hcloses⟩
        simp only [if_pos hset, declared_append hnames]
      · simp only [if_neg hset]
  · rw [if_neg hstart, if_neg hstart]

end LowerCaseVariable

/-! ### Looking at the tokens beside -/

theorem DelimiterSpacing.checkFrom_append (rule : DelimiterSpacing) (path : String)
    {a b : List Token} (ha : Enclosed (a.map Token.kind))
    (hb : ∀ t ∈ b.head?, t.kind.closesTag = false) (before : Option Token) :
    rule.checkFrom path before (a ++ b) =
      rule.checkFrom path before a ++ rule.checkFrom path none b := by
  induction a generalizing before with
  | nil =>
    cases b with
    | nil => rfl
    | cons t b =>
      have hkind := hb t rfl
      have hsame : rule.checkToken path before t b.head? = rule.checkToken path none t b.head? := by
        unfold checkToken
        split <;> simp_all [Token.Kind.closesTag]
      simp only [List.nil_append, checkFrom, hsame]
  | cons t a ih =>
    have hsame : rule.checkToken path before t (a ++ b).head? =
        rule.checkToken path before t a.head? := by
      by_cases hopens : t.kind.opensTag = true
      · obtain ⟨kind, hkind, -⟩ := ha.1 hopens
        have hne : a ≠ [] := fun hempty => by simp [hempty] at hkind
        rw [List.head?_append_of_ne_nil a hne]
      · unfold checkToken
        split <;> simp_all [Token.Kind.opensTag]
    rw [List.cons_append, checkFrom, hsame, ih ha.2, checkFrom, List.append_assoc]

/-! ### All rules -/

theorem Rule.check_append (rule : Rule) (path : String) {a b : List Token}
    (ha : Enclosed (a.map Token.kind)) (hb : ∀ t ∈ b.head?, t.kind.closesTag = false) :
    rule.check ⟨path, a ++ b⟩ = rule.check ⟨path, a⟩ ++ rule.check ⟨path, b⟩ := by
  cases rule with
  | delimiterSpacing r => exact r.checkFrom_append path ha hb none
  | trailingSpace r => simp [check, TrailingSpace.check]
  | lowerCaseVariable r =>
    simp only [check, LowerCaseVariable.check, LowerCaseVariable.allTargets_eq_atEach,
      LowerCaseVariable.staysInTag.atEach_append ha, List.filter_append, List.map_append]
  | deprecatedTag r =>
    simp only [check, DeprecatedTag.check, DeprecatedTag.checkFrom_eq_atEach]
    exact (r.staysInTag path).atEach_append ha b

theorem Rule.check_end (rule : Rule) (path : String) (here : Position) :
    rule.check ⟨path, [⟨.eof, "", here⟩]⟩ = [] := by
  cases rule <;> rfl

theorem map_kind_tokens (here : Position) (lexemes : List Lexeme) :
    (Lexeme.tokens here lexemes).map Token.kind = lexemes.map Lexeme.kind := by
  induction lexemes generalizing here with
  | nil => rfl
  | cons l more ih => simp [Lexeme.tokens, ih]

/-- The mark of the end makes no difference to a rule. -/
theorem Rule.check_locate (rule : Rule) (path : String) {lexemes : List Lexeme}
    (h : IsTemplate [] lexemes) (here : Position) :
    rule.check ⟨path, Lexeme.locate here lexemes⟩ =
      rule.check ⟨path, Lexeme.tokens here lexemes⟩ := by
  have henclosed := h.enclosed
  rw [← map_kind_tokens here] at henclosed
  rw [Lexeme.locate_eq, rule.check_append path henclosed (by simp [Token.Kind.closesTag]),
    rule.check_end, List.append_nil]

/-! ### Templates that are moved -/

/-- The same finding with some more characters before it. -/
def Violation.shift (front : List Char) (v : Violation) : Violation :=
  { v with position := v.position.shift front }

section Shift

variable (front : List Char)

theorem DelimiterSpacing.checkFrom_shift (rule : DelimiterSpacing) (path : String)
    (before : Option Token) (tokens : List Token) :
    rule.checkFrom path (before.map (Token.shift front)) (tokens.map (Token.shift front)) =
      (rule.checkFrom path before tokens).map (Violation.shift front) := by
  have haccepts : ∀ neighbour : Option Token,
      rule.accepts (neighbour.map (Token.shift front)) = rule.accepts neighbour := by
    intro neighbour
    cases neighbour with
    | none => rfl
    | some t =>
      have his : (t.shift front).is .whitespace = t.is .whitespace := rfl
      by_cases hblank : t.is .whitespace = true
      · simp only [accepts, Option.map_some, Option.filter_some, his, hblank, if_true]
        rfl
      · simp only [accepts, Option.map_some, Option.filter_some, his, hblank]
        rfl
  induction tokens generalizing before with
  | nil => rfl
  | cons t rest ih =>
    have htoken : rule.checkToken path (before.map (Token.shift front)) (t.shift front)
        (rest.map (Token.shift front)).head? =
          (rule.checkToken path before t rest.head?).map (Violation.shift front) := by
      have hkind : (t.shift front).kind = t.kind := rfl
      unfold checkToken
      rw [hkind, List.head?_map, haccepts, haccepts]
      split
      all_goals try split
      all_goals rfl
    have hmore := ih (some t)
    rw [Option.map_some] at hmore
    rw [List.map_cons, checkFrom, htoken, hmore, checkFrom, List.map_append]

theorem Token.atEach_shift {α β : Type} {f : Token → List Token → List α}
    {g : Token → List Token → List β} {move : α → β}
    (h : ∀ t rest, g (t.shift front) (rest.map (Token.shift front)) = (f t rest).map move)
    (tokens : List Token) :
    Token.atEach g (tokens.map (Token.shift front)) = (Token.atEach f tokens).map move := by
  induction tokens with
  | nil => rfl
  | cons t rest ih => rw [List.map_cons, atEach, h, ih, atEach, List.map_append]

theorem significant_shift (tokens : List Token) :
    Token.significant (tokens.map (Token.shift front)) =
      (Token.significant tokens).map (Token.shift front) := by
  unfold Token.significant
  rw [List.filter_map]
  rfl

theorem DeprecatedTag.checkToken_shift (rule : DeprecatedTag) (path : String) (t : Token)
    (rest : List Token) :
    (rule.checkToken path (t.shift front) (rest.map (Token.shift front))).toList =
      (rule.checkToken path t rest).toList.map (Violation.shift front) := by
  have hfirst : (Token.significant (rest.map (Token.shift front))).head? =
      (Token.significant rest).head?.map (Token.shift front) := by
    rw [significant_shift, List.head?_map]
  have his : (t.shift front).is .blockStart = t.is .blockStart := rfl
  unfold checkToken
  rw [his, hfirst]
  by_cases hstart : t.is .blockStart = true
  · rw [if_pos hstart, if_pos hstart]
    cases (Token.significant rest).head? with
    | none => rfl
    | some word =>
      have hword : (word.shift front).is .name = word.is .name := rfl
      have hvalue : (word.shift front).value = word.value := rfl
      simp only [Option.map_some, Option.bind_some, finding?, hword, hvalue]
      split
      · cases removed? rule.version word.value <;> rfl
      · rfl
  · rw [if_neg hstart, if_neg hstart]
    rfl

namespace LowerCaseVariable

theorem declared_shift (tokens : List Token) :
    declared (tokens.map (Token.shift front)) = (declared tokens).map (Token.shift front) := by
  induction tokens with
  | nil => rfl
  | cons t rest ih =>
    have hname : (t.shift front).is .name = t.is .name := rfl
    have hcomma : (t.shift front).isValue .punctuation "," = t.isValue .punctuation "," := rfl
    simp only [List.map_cons, declared, hname, hcomma, ih]
    split
    · rfl
    · split <;> rfl

theorem targets_shift (t : Token) (rest : List Token) :
    targets (t.shift front) (rest.map (Token.shift front)) =
      (targets t rest).map (Token.shift front) := by
  have his : (t.shift front).is .blockStart = t.is .blockStart := rfl
  unfold targets
  rw [his, significant_shift]
  by_cases hstart : t.is .blockStart = true
  · rw [if_pos hstart, if_pos hstart]
    cases Token.significant rest with
    | nil => rfl
    | cons word names =>
      have hset : (word.shift front).isValue .name "set" = word.isValue .name "set" := rfl
      simp only [List.map_cons, hset, declared_shift]
      split <;> rfl
  · rw [if_neg hstart, if_neg hstart]
    rfl

end LowerCaseVariable

theorem TrailingSpace.trailingFrom_shift {here : Position} (hline : 1 ≤ here.line)
    (lines : List (List Char)) :
    trailingFrom (here.shift front) lines =
      (trailingFrom here lines).map fun p => p.shift front := by
  induction lines generalizing here with
  | nil => rfl
  | cons line more ih =>
    cases more with
    | nil => rfl
    | cons second more =>
      have hnext : (⟨(here.shift front).line + 1, 0⟩ : Position) =
          (⟨here.line + 1, 0⟩ : Position).shift front := by
        have hne : ¬ here.line + 1 = 1 := by omega
        simp only [Position.shift, if_neg hne]
        congr 1
        omega
      have hplace : ∀ kept : Nat,
          (⟨(here.shift front).line, (here.shift front).column + kept⟩ : Position) =
            (⟨here.line, here.column + kept⟩ : Position).shift front := by
        intro kept
        simp only [Position.shift]
        split
        · congr 1
          omega
        · rfl
      have hmore := @ih ⟨here.line + 1, 0⟩ (by simp)
      simp only [trailingFrom, hnext, hmore, hplace, List.map_append]
      split <;> rfl

theorem TrailingSpace.trailing_shift {t : Token} (hline : 1 ≤ t.position.line) :
    trailing (t.shift front) = (trailing t).map fun p => p.shift front := by
  have hkind : (t.shift front).kind = t.kind := rfl
  unfold trailing
  rw [hkind]
  split
  · exact trailingFrom_shift front hline _
  · exact trailingFrom_shift front hline _
  · rfl

theorem Rule.check_shift (rule : Rule) (path : String) {tokens : List Token}
    (hlines : ∀ t ∈ tokens, 1 ≤ t.position.line) :
    rule.check ⟨path, tokens.map (Token.shift front)⟩ =
      (rule.check ⟨path, tokens⟩).map (Violation.shift front) := by
  cases rule with
  | delimiterSpacing r => exact r.checkFrom_shift front path none tokens
  | trailingSpace r =>
    have hplaces : (tokens.map (Token.shift front)).flatMap TrailingSpace.trailing =
        (tokens.flatMap TrailingSpace.trailing).map fun p => p.shift front := by
      rw [List.flatMap_map, List.map_flatMap]
      exact List.flatMap_congr fun t ht => TrailingSpace.trailing_shift front (hlines t ht)
    simp only [check, TrailingSpace.check, hplaces, List.map_map]
    rfl
  | lowerCaseVariable r =>
    have htargets : LowerCaseVariable.allTargets (tokens.map (Token.shift front)) =
        (LowerCaseVariable.allTargets tokens).map (Token.shift front) := by
      simp only [LowerCaseVariable.allTargets_eq_atEach]
      exact Token.atEach_shift front (LowerCaseVariable.targets_shift front) tokens
    simp only [check, LowerCaseVariable.check, htargets, List.filter_map, List.map_map]
    rfl
  | deprecatedTag r =>
    simp only [check, DeprecatedTag.check, DeprecatedTag.checkFrom_eq_atEach]
    exact Token.atEach_shift front (r.checkToken_shift front path) tokens

end Shift

/-! ### Templates put together -/

theorem one_le_line_of_mem {tokens : List Token} (h : Token.Located tokens) :
    ∀ t ∈ tokens, 1 ≤ t.position.line := by
  intro t ht
  obtain ⟨before, behind, rfl⟩ := List.append_of_mem ht
  have hline := (h before t behind rfl).1
  omega

theorem locate_append_shift (a b : List Lexeme) :
    Lexeme.locate Position.start (a ++ b) =
      Lexeme.tokens Position.start a ++
        (Lexeme.locate Position.start b).map (Token.shift (Lexeme.texts a)) := by
  have hmoved := locate_after_append (Lexeme.texts a) [] b
  rw [List.append_nil] at hmoved
  rw [locate_append]
  exact congrArg _ hmoved

theorem IsTemplate.head_locate {lexemes : List Lexeme} (h : IsTemplate [] lexemes)
    (here : Position) : ∀ t ∈ (Lexeme.locate here lexemes).head?, t.kind.closesTag = false := by
  cases lexemes with
  | nil => simp [Lexeme.locate, Token.Kind.closesTag]
  | cons l more => simpa [Lexeme.locate] using h.head_not_closesTag l rfl

/-- The findings in the tokens of two templates that stand side by side. -/
theorem Rule.check_locate_append (rule : Rule) (path : String) {a b : List Lexeme}
    (ha : IsTemplate [] a) (hb : IsTemplate [] b) :
    rule.check ⟨path, Lexeme.locate Position.start (a ++ b)⟩ =
      rule.check ⟨path, Lexeme.locate Position.start a⟩ ++
        (rule.check ⟨path, Lexeme.locate Position.start b⟩).map
          (Violation.shift (Lexeme.texts a)) := by
  have henclosed := ha.enclosed
  rw [← map_kind_tokens Position.start] at henclosed
  have hhead : ∀ t ∈ ((Lexeme.locate Position.start b).map (Token.shift (Lexeme.texts a))).head?,
      t.kind.closesTag = false := by
    intro t ht
    rw [List.head?_map] at ht
    obtain ⟨first, hfirst, rfl⟩ := Option.map_eq_some_iff.1 ht
    exact hb.head_locate Position.start first hfirst
  have hlines := one_le_line_of_mem (Lexeme.located_locate b)
  rw [locate_append_shift, rule.check_append path henclosed hhead, rule.check_shift _ path hlines,
    rule.check_locate path ha]

/-- **Rules are local.** Where two templates may be put together, a rule finds in both together what it
finds in the first one and then what it finds in the second one, moved by the text of the first. -/
theorem rule_check_append (rule : Rule) (front behind realPath displayPath : String)
    {stream more : TokenStream} (hfront : tokenize ⟨front, realPath, displayPath⟩ = .ok stream)
    (hbehind : tokenize ⟨behind, realPath, displayPath⟩ = .ok more)
    (hjoins : Joins front stream.tokens behind) :
    ∃ both, tokenize ⟨front ++ behind, realPath, displayPath⟩ = .ok both ∧
      rule.check both =
        rule.check stream ++ (rule.check more).map (Violation.shift front.toList) := by
  obtain ⟨a, ha, rfl⟩ := scan_of_tokenize hfront
  obtain ⟨b, hb, rfl⟩ := scan_of_tokenize hbehind
  have htemplate : IsTemplate [] a := isTemplate_of_scan ha
  have htexts : Lexeme.texts a = front.toList := texts_of_scan ha
  have hboth := scan_append_of_seam htemplate (hjoins.seam ha)
  rw [htexts, ← String.toList_append, hb, shifted_ok] at hboth
  have hread : tokenize ⟨front ++ behind, realPath, displayPath⟩ = _ := tokenize_of_scan hboth
  refine ⟨_, hread, ?_⟩
  rw [← htexts]
  exact rule.check_locate_append displayPath htemplate (isTemplate_of_scan hb)

/-- A name that is not in lower case, in a tag behind two lines of text. -/
theorem rule_check_append_two_lines :
    ∃ both, tokenize ⟨"a\nb " ++ "\x7b% set Cd = 1 %\x7d \n", "", "t.twig"⟩ = .ok both ∧
      (Rule.lowerCaseVariable {}).check both = [⟨"t.twig", ⟨2, 9⟩,
        "The \"Cd\" variable should be in lower case (use _ as a separator).", .warning⟩] := by
  have hfront : tokenize ⟨"a\nb ", "", "t.twig"⟩ = .ok ⟨"t.twig",
      [⟨.text, "a\nb ", ⟨1, 0⟩⟩, ⟨.eof, "", ⟨2, 2⟩⟩]⟩ := by decide +kernel
  have hbehind : tokenize ⟨"\x7b% set Cd = 1 %\x7d \n", "", "t.twig"⟩ = .ok ⟨"t.twig",
      [⟨.blockStart, "\x7b%", ⟨1, 0⟩⟩, ⟨.whitespace, " ", ⟨1, 2⟩⟩, ⟨.name, "set", ⟨1, 3⟩⟩,
        ⟨.whitespace, " ", ⟨1, 6⟩⟩, ⟨.name, "Cd", ⟨1, 7⟩⟩, ⟨.whitespace, " ", ⟨1, 9⟩⟩,
        ⟨.operator, "=", ⟨1, 10⟩⟩, ⟨.whitespace, " ", ⟨1, 11⟩⟩, ⟨.number, "1", ⟨1, 12⟩⟩,
        ⟨.whitespace, " ", ⟨1, 13⟩⟩, ⟨.blockEnd, "%\x7d", ⟨1, 14⟩⟩, ⟨.text, " \n", ⟨1, 16⟩⟩,
        ⟨.eof, "", ⟨2, 0⟩⟩]⟩ := by decide +kernel
  have hopens : Opens "\x7b% set Cd = 1 %\x7d \n".toList := ⟨'%', by simp, by decide⟩
  obtain ⟨both, hboth, hcheck⟩ := rule_check_append (.lowerCaseVariable {}) _ _ _ _ hfront hbehind
    (.inr ⟨_, rfl, .inr ⟨rfl, by decide, hopens⟩⟩)
  refine ⟨both, hboth, hcheck.trans ?_⟩
  decide +kernel

end TemplateLint
