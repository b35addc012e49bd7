import TemplateLint.Proofs.Template.Acceptance

/-!
# Errors point at what they blame

An error carries a place and a message, and a user believes both. `Diagnosis` says for every message
what stands at the place it is given with. An error is about the first item that cannot be read: all
that stands before it is a template, so nothing there is to blame.

Which bracket or which item is blamed was decided while the reader went along, and `LocatedFault.Fits`
has this for the characters of the item alone. Here it is turned into a statement about the whole
template.
-/

namespace TemplateLint

open Lexeme (texts)

/-- What stands in a template at the offset that an error names, for every message that an error in the
item from `start` on can have. -/
inductive Diagnosis (chars : List Char) (start : Nat) : Nat → String → Prop
  | comment {opener behind : List Char} : chars.drop start = opener ++ behind →
      Longest (IsOpener '#') opener behind → ¬ ['#', '}'] <:+: behind →
      Diagnosis chars start start "Unclosed comment"
  | variableTag : ['{', '{'] <+: chars.drop start →
      Diagnosis chars start start "Unclosed \"variable\""
  | blockTag : ['{', '%'] <+: chars.drop start → Diagnosis chars start start "Unclosed \"block\""
  | string {offset : Nat} {quote : Char} : quote ∈ ['"', '\x27'] → chars[offset]? = some quote →
      ¬ OccursPlain quote (chars.drop (offset + 1)) → Diagnosis chars start offset "Unclosed string"
  | unclosed {offset : Nat} {c : Char} : c ∈ ['(', '[', '{'] → chars[offset]? = some c →
      Diagnosis chars start offset s!"Unclosed \"{c}\""
  | unexpected {offset : Nat} {c : Char} : c ∈ [')', ']', '}'] → chars[offset]? = some c →
      Diagnosis chars start offset s!"Unexpected \"{c}\""
  | character {offset : Nat} {c : Char} : isBlank c = false → chars[offset]? = some c →
      Diagnosis chars start offset s!"Unexpected character \"{c}\""

theorem Stands.getElem? {front chars behind : List Char} {offset : Nat} {c : Char}
    (h : Stands front.length chars offset c behind) :
    front.length ≤ offset ∧ (front ++ chars)[offset]? = some c ∧
      (front ++ chars).drop (offset + 1) = behind := by
  obtain ⟨middle, rfl, rfl⟩ := h
  have hsplit : front ++ (middle ++ c :: behind) = (front ++ middle) ++ c :: behind := by simp
  rw [hsplit, ← List.length_append]
  refine ⟨by simp, by simp, ?_⟩
  rw [← List.drop_drop, List.drop_left]
  rfl

/-- A fault that fits an item is a diagnosis for the whole template. -/
theorem LocatedFault.Fits.diagnosis {front chars : List Char} {located : LocatedFault}
    (h : located.Fits front.length chars) (hne : chars ≠ []) :
    front.length ≤ located.offset ∧ located.offset < (front ++ chars).length ∧
      Diagnosis (front ++ chars) front.length located.offset located.fault.message := by
  obtain ⟨offset, fault⟩ := located
  have hpos : 0 < chars.length := List.length_pos_iff.2 hne
  have hlt : front.length < (front ++ chars).length := by
    rw [List.length_append]
    omega
  have hdrop : (front ++ chars).drop front.length = chars := List.drop_left
  have hstands : ∀ c behind, Stands front.length chars offset c behind →
      front.length ≤ offset ∧ offset < (front ++ chars).length ∧ (front ++ chars)[offset]? = some c ∧
        (front ++ chars).drop (offset + 1) = behind := by
    intro c behind h
    obtain ⟨hle, hget, hbehind⟩ := h.getElem?
    exact ⟨hle, (List.getElem?_eq_some_iff.1 hget).1, hget, hbehind⟩
  cases fault with
  | unclosedComment =>
    obtain ⟨rfl, opener, behind, rfl, hopener, hnone⟩ := h
    exact ⟨le_rfl, hlt, .comment hdrop hopener hnone⟩
  | unclosedTag tag =>
    obtain ⟨rfl, hstarts⟩ := h
    rw [← hdrop] at hstarts
    cases tag
    · exact ⟨le_rfl, hlt, .variableTag hstarts⟩
    · exact ⟨le_rfl, hlt, .blockTag hstarts⟩
  | unclosedString =>
    obtain ⟨quote, behind, hplace, hquote, hnone⟩ := h
    obtain ⟨hle, hlt, hget, rfl⟩ := hstands quote behind hplace
    exact ⟨hle, hlt, .string hquote hget hnone⟩
  | unclosedBracket bracket =>
    obtain ⟨behind, hplace⟩ := h
    obtain ⟨hle, hlt, hget, -⟩ := hstands _ behind hplace
    exact ⟨hle, hlt, .unclosed (by cases bracket <;> decide) hget⟩
  | unexpectedBracket bracket =>
    obtain ⟨behind, hplace⟩ := h
    obtain ⟨hle, hlt, hget, -⟩ := hstands _ behind hplace
    exact ⟨hle, hlt, .unexpected (by cases bracket <;> decide) hget⟩
  | unexpectedCharacter c =>
    obtain ⟨hblank, behind, hplace⟩ := h
    obtain ⟨hle, hlt, hget, -⟩ := hstands c behind hplace
    exact ⟨hle, hlt, .character hblank hget⟩

/-- A fault of a template, with the template that stands before the item it is about. -/
theorem exists_item_of_fault {chars : List Char} {located : LocatedFault}
    (h : scan .text 0 chars = .error located) :
    ∃ lexemes next, chars = texts lexemes ++ next ∧ IsTemplate [] lexemes ∧ Opens next ∧
      located.Fits (texts lexemes).length next := by
  obtain ⟨lexemes, next, hread⟩ := exists_readTo 0 chars
  have hscan := hread.scan_eq
  obtain ⟨rfl, htemplate, hnext⟩ := hread
  rw [h] at hscan
  rcases hnext with rfl | ⟨hopens, fault, hfault, hfits⟩
  · rw [scan_nil_text] at hscan
    cases hscan
  · rw [hfault] at hscan
    have hsame : located = fault := Except.error.inj hscan
    rw [Nat.zero_add, ← hsame] at hfits
    exact ⟨lexemes, next, rfl, IsTemplate.of_append htemplate, hopens, hfits⟩

/-- **Every error is where it says.** All before the item at fault can be read, and at the place of the
error stands what its message blames. -/
theorem tokenize_error {source : Source} {e : SyntaxError} (h : tokenize source = .error e) :
    e.path = source.displayPath ∧ ∃ start offset, start ≤ offset ∧ offset < source.content.length ∧
      e.position.line = 1 + (source.content.toList.take offset).count '\n' ∧
      e.position.column = (Position.lastLine (source.content.toList.take offset)).length ∧
      (∃ stream, tokenize { source with
        content := String.ofList (source.content.toList.take start) } = .ok stream) ∧
      Opens (source.content.toList.drop start) ∧
      Diagnosis source.content.toList start offset e.message := by
  cases hscan : scan .text 0 source.content.toList with
  | ok lexemes =>
    rw [tokenize_of_scan hscan] at h
    cases h
  | error located =>
    rw [tokenize_of_fault hscan] at h
    cases h
    obtain ⟨lexemes, next, hchars, htemplate, hopens, hfits⟩ := exists_item_of_fault hscan
    have hne : next ≠ [] := by
      intro hempty
      rw [hempty] at hopens
      obtain ⟨mark, -, hstarts⟩ := hopens
      simp at hstarts
    obtain ⟨hle, hlt, hdiagnosis⟩ := hfits.diagnosis hne
    rw [← hchars] at hlt hdiagnosis
    refine ⟨rfl, (texts lexemes).length, located.offset, hle, hlt, ?_, ?_, ?_, ?_, hdiagnosis⟩
    · simp [Position.after_eq_counts]
    · simp [Position.after_eq_counts]
    · have hbefore : scan .text 0 (String.ofList (source.content.toList.take
          (texts lexemes).length)).toList = .ok lexemes := by
        rw [String.toList_ofList, hchars, List.take_left]
        exact scan_texts htemplate 0
      exact ⟨_, tokenize_of_scan hbefore⟩
    · rwa [hchars, List.drop_left]

/-- A bracket that is closed by one of another kind. -/
theorem tokenize_error_bracket :
    ∃ start offset, start ≤ offset ∧
      Diagnosis "a \x7b# b #\x7d\n\x7b\x7b (x ] \x7d\x7d".toList start offset "Unclosed \"(\"" := by
  have h : tokenize ⟨"a \x7b# b #\x7d\n\x7b\x7b (x ] \x7d\x7d", "", "t.twig"⟩ =
      .error ⟨"t.twig", ⟨2, 3⟩, "Unclosed \"(\""⟩ := by decide +kernel
  obtain ⟨-, start, offset, hle, -, -, -, -, -, hdiagnosis⟩ := tokenize_error h
  exact ⟨start, offset, hle, hdiagnosis⟩

end TemplateLint
