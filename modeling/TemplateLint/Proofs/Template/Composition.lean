import TemplateLint.Proofs.Template.Acceptance

/-!
# Templates side by side

Behind an item the reader stands where it stood at the start: in plain text, with nothing open. All it
remembers of the past is how many characters there were, and it uses this number only to say where a
fault is. So a template behind another one is read as it is alone, only the places are moved. The same
holds behind text, as long as the text ends where an item opens and does not end with a brace that could
become part of a delimiter.

Nothing in the first template may depend on the second one either. This is a fact about the grammar,
`IsTemplate.append_of_seam`, and not about the reader.
-/

namespace TemplateLint

open Lexeme (texts)

/-! ### Readers that have seen more -/

/-- A fault behind some more characters. -/
def LocatedFault.shift (count : Nat) (located : LocatedFault) : LocatedFault :=
  ⟨count + located.offset, located.fault⟩

/-- Open brackets behind some more characters. -/
def OpenBrackets.shift (count : Nat) (opened : OpenBrackets) : OpenBrackets :=
  opened.map fun (bracket, start) => (bracket, count + start)

/-- The same place with some more characters before it. -/
def Mode.shift (count : Nat) : Mode → Mode
  | .text => .text
  | .comment start => .comment (count + start)
  | .tag self start opened => .tag self (count + start) (opened.shift count)

/-- The same step with some more characters before it. -/
def Step.shift (count : Nat) (step : Step) : Step :=
  { step with mode := step.mode.shift count }

section Shift

variable (count : Nat)

/-- A result that depends on the number of characters before it only in the offsets it names. -/
def shifted {α : Type} (f : α → α) (result : Except LocatedFault α) : Except LocatedFault α :=
  (result.map f).mapError (LocatedFault.shift count)

@[simp]
theorem shifted_ok {α : Type} (f : α → α) (a : α) : shifted count f (.ok a) = .ok (f a) := rfl

@[simp]
theorem shifted_error {α : Type} (f : α → α) (fault : LocatedFault) :
    shifted count f (.error fault) = .error (fault.shift count) := rfl

theorem pass_shift (opened : OpenBrackets) (offset : Nat) (c : Char) :
    (opened.shift count).pass (count + offset) c =
      shifted count (OpenBrackets.shift count) (opened.pass offset c) := by
  unfold OpenBrackets.pass
  cases Bracket.opened? c with
  | some bracket => rfl
  | none =>
    cases Bracket.closed? c with
    | none => rfl
    | some bracket =>
      cases opened with
      | nil => rfl
      | cons p opened =>
        obtain ⟨inner, place⟩ := p
        simp only [OpenBrackets.shift, List.map_cons]
        by_cases hsame : inner = bracket
        · simp [hsame, OpenBrackets.shift]
        · simp [hsame, LocatedFault.shift]

theorem commentStep_shift (start : Nat) (ahead : List Char) (n : Nat) :
    Mode.commentStep (count + start) ahead n = (Mode.commentStep start ahead n).shift count := by
  unfold Mode.commentStep
  cases n with
  | zero => rfl
  | succ n =>
    by_cases hlast : (ahead[n]?).any isModifier = true
    · cases n <;> simp [hlast, Step.shift, Mode.shift]
    · simp [hlast, Step.shift, Mode.shift]

theorem step_shift (mode : Mode) (offset : Nat) (c : Char) (rest : List Char) :
    (mode.shift count).step (count + offset) c rest =
      shifted count (Step.shift count) (mode.step offset c rest) := by
  cases mode with
  | text =>
    simp only [Mode.shift, Mode.step]
    split <;> rfl
  | comment start =>
    simp only [Mode.shift, Mode.step]
    split
    · rfl
    · rw [commentStep_shift, shifted_ok]
  | tag self start opened =>
    have hempty : (opened.shift count).isEmpty = opened.isEmpty := by cases opened <;> rfl
    simp only [Mode.shift, Mode.step, hempty, pass_shift]
    split
    · rfl
    · cases opened.pass offset c with
      | error fault => rfl
      | ok opened' =>
        cases innerLexeme c rest <;>
          simp [bind, Except.bind, Step.shift, Mode.shift, LocatedFault.shift]

theorem finish_shift (mode : Mode) :
    (mode.shift count).finish = shifted count id mode.finish := by
  cases mode with
  | text => rfl
  | comment start => rfl
  | tag self start opened => cases opened <;> rfl

/-- **The reader forgets the past** but for the offsets in what it reports. -/
theorem scan_shift (mode : Mode) (offset : Nat) (text : List Char) :
    scan (mode.shift count) (count + offset) text = shifted count id (scan mode offset text) := by
  induction hlen : text.length using Nat.strong_induction_on generalizing mode offset text with
  | _ n ih =>
    cases text with
    | nil =>
      rw [scan, scan, finish_shift]
      cases mode.finish <;> rfl
    | cons c rest =>
      have hstep := step_shift count mode offset c rest
      cases hhere : mode.step offset c rest with
      | error fault =>
        rw [hhere, shifted_error] at hstep
        rw [scan_cons_of_fault hstep, scan_cons_of_fault hhere, shifted_error]
      | ok step =>
        rw [hhere, shifted_ok] at hstep
        have hshorter : (rest.drop step.tail).length < n := by
          rw [← hlen, List.length_drop, List.length_cons]
          omega
        have hmore := ih _ hshorter step.mode (offset + step.tail + 1) _ rfl
        rw [← Nat.add_assoc, ← Nat.add_assoc] at hmore
        rw [scan_cons_of_step hstep, scan_cons_of_step hhere]
        simp only [Step.shift, hmore]
        cases scan step.mode (offset + step.tail + 1) (rest.drop step.tail) <;> rfl

end Shift

theorem scan_append_of_seam {lexemes : List Lexeme} {behind : List Char}
    (h : IsTemplate [] lexemes) (hseam : Seam lexemes behind) :
    scan .text 0 (texts lexemes ++ behind) =
      (shifted (texts lexemes).length id (scan .text 0 behind)).map (lexemes ++ ·) := by
  have hbehind := scan_shift (texts lexemes).length .text 0 behind
  rw [← hbehind, scan_template (h.append_of_seam hseam) fun l hl htext => .inr (hseam l hl htext).2]
  rw [Nat.zero_add, Nat.add_zero]
  rfl

/-! ### Tokens behind more text -/

/-- The same token with some more characters before it. -/
def Token.shift (front : List Char) (t : Token) : Token :=
  { t with position := t.position.shift front }

/-- The same error with some more characters before it. -/
def SyntaxError.shift (front : List Char) (e : SyntaxError) : SyntaxError :=
  { e with position := e.position.shift front }

theorem locate_after_append (front before : List Char) (lexemes : List Lexeme) :
    Lexeme.locate (Position.after (front ++ before)) lexemes =
      (Lexeme.locate (Position.after before) lexemes).map (Token.shift front) := by
  induction lexemes generalizing before with
  | nil => simp [Lexeme.locate, Token.shift, Position.after_append_eq_shift]
  | cons l more ih =>
    have hmore := ih (before ++ l.text)
    rw [← List.append_assoc, Position.after_append, Position.after_append before,
      Position.after_append_eq_shift] at hmore
    simp [Lexeme.locate, Token.shift, hmore, Position.after_append_eq_shift]

theorem locate_append (here : Position) (a b : List Lexeme) :
    Lexeme.locate here (a ++ b) =
      Lexeme.tokens here a ++ Lexeme.locate (here.advance (texts a)) b := by
  induction a generalizing here with
  | nil => rfl
  | cons l a ih => simp [Lexeme.locate, Lexeme.tokens, ih]

/-! ### Templates put together -/

/-- The tokens besides those that mark the end. -/
def Token.parts (tokens : List Token) : List Token :=
  tokens.filter fun t => t.kind ≠ .eof

theorem parts_locate {lexemes : List Lexeme} (h : ∀ l ∈ lexemes, l.kind ≠ .eof) (here : Position) :
    Token.parts (Lexeme.locate here lexemes) = Lexeme.tokens here lexemes := by
  have hparts : (Lexeme.tokens here lexemes).filter (fun t => t.kind ≠ .eof) =
      Lexeme.tokens here lexemes := by
    refine List.filter_eq_self.2 fun t ht => ?_
    obtain ⟨l, hl, hkind, -⟩ := Lexeme.mem_tokens ht
    simpa [hkind] using h l hl
  rw [Token.parts, Lexeme.locate_eq, List.filter_append, hparts]
  simp

/-- Where another template may be put behind one that was read: behind nothing, behind an item, and
behind text that does not end with a brace if the other template begins with an item. -/
def Joins (front : String) (tokens : List Token) (behind : String) : Prop :=
  front = "" ∨ ∃ last ∈ (Token.parts tokens).getLast?,
    last.kind ∈ [Token.Kind.varEnd, .blockEnd, .commentEnd] ∨
      last.kind = .text ∧ last.value.toList.getLast? ≠ some '{' ∧ Opens behind.toList

theorem map_lexeme_tokens (here : Position) (lexemes : List Lexeme) :
    (Lexeme.tokens here lexemes).map Token.lexeme = lexemes := by
  induction lexemes generalizing here with
  | nil => rfl
  | cons l more ih => simp [Lexeme.tokens, Token.lexeme, ih]

theorem getLast?_tokens (here : Position) (lexemes : List Lexeme) :
    (Lexeme.tokens here lexemes).getLast?.map Token.lexeme = lexemes.getLast? := by
  rw [← List.getLast?_map, map_lexeme_tokens]

theorem Joins.seam {front behind : String} {lexemes : List Lexeme}
    (h : Joins front (Lexeme.locate Position.start lexemes) behind)
    (hscan : scan .text 0 front.toList = .ok lexemes) : Seam lexemes behind.toList := by
  rcases h with rfl | ⟨last, hlast, hkinds⟩
  · rw [String.toList_empty, scan_nil_text] at hscan
    cases hscan
    simp [Seam]
  · intro l hl htext
    have hparts := parts_locate (fun l hl => (lexemes_of_scan hscan l hl).1) Position.start
    have hsame := getLast?_tokens Position.start lexemes
    rw [← hparts, hlast, hl] at hsame
    cases hsame
    rcases hkinds with hitem | ⟨-, hbrace, hopens⟩
    · have hkind : last.kind = .text := htext
      simp [hkind] at hitem
    · exact ⟨hbrace, hopens⟩

/-- **Templates put side by side** are read side by side. Where they may be joined, the second one has
the tokens or the error it has alone, moved by the text of the first one. -/
theorem tokenize_append (front behind realPath displayPath : String) {stream : TokenStream}
    (hfront : tokenize ⟨front, realPath, displayPath⟩ = .ok stream)
    (hjoins : Joins front stream.tokens behind) :
    tokenize ⟨front ++ behind, realPath, displayPath⟩ =
      match tokenize ⟨behind, realPath, displayPath⟩ with
      | .ok more => .ok ⟨displayPath,
          Token.parts stream.tokens ++ more.tokens.map (Token.shift front.toList)⟩
      | .error e => .error (e.shift front.toList) := by
  obtain ⟨lexemes, hscan, rfl⟩ := scan_of_tokenize hfront
  have hseam := hjoins.seam hscan
  have htexts : texts lexemes = front.toList := texts_of_scan hscan
  have hboth := scan_append_of_seam (isTemplate_of_scan hscan) hseam
  rw [htexts] at hboth
  have hparts := parts_locate (fun l hl => (lexemes_of_scan hscan l hl).1) Position.start
  rw [← String.toList_append] at hboth
  cases hbehind : scan .text 0 behind.toList with
  | ok more =>
    rw [hbehind] at hboth
    have hplaces : Lexeme.locate (Position.start.advance front.toList) more =
        (Lexeme.locate Position.start more).map (Token.shift front.toList) := by
      have hmoved := locate_after_append front.toList [] more
      rwa [List.append_nil] at hmoved
    rw [@tokenize_of_scan ⟨behind, realPath, displayPath⟩ more hbehind,
      @tokenize_of_scan ⟨front ++ behind, realPath, displayPath⟩ (lexemes ++ more) hboth,
      locate_append, htexts, hparts, hplaces]
  | error located =>
    obtain ⟨offset, fault⟩ := located
    rw [hbehind] at hboth
    rw [@tokenize_of_fault ⟨behind, realPath, displayPath⟩ offset fault hbehind,
      @tokenize_of_fault ⟨front ++ behind, realPath, displayPath⟩ _ fault hboth]
    have htake : ((front ++ behind).toList.take (front.toList.length + offset)) =
        front.toList ++ behind.toList.take offset := by
      rw [String.toList_append, List.take_length_add_append]
    simp only [SyntaxError.shift, htake, Position.after_append_eq_shift]

/-- A bracket that is left open in a template, which begins at the end of another one's second line. -/
theorem tokenize_append_fault :
    tokenize ⟨"a\n\x7b\x7b x \x7d\x7d" ++ "b \x7b% (", "", "t.twig"⟩ =
      .error ⟨"t.twig", ⟨2, 12⟩, "Unclosed \"(\""⟩ := by
  have hfront : tokenize ⟨"a\n\x7b\x7b x \x7d\x7d", "", "t.twig"⟩ = .ok ⟨"t.twig",
      [⟨.text, "a\n", ⟨1, 0⟩⟩, ⟨.varStart, "\x7b\x7b", ⟨2, 0⟩⟩, ⟨.whitespace, " ", ⟨2, 2⟩⟩,
        ⟨.name, "x", ⟨2, 3⟩⟩, ⟨.whitespace, " ", ⟨2, 4⟩⟩, ⟨.varEnd, "\x7d\x7d", ⟨2, 5⟩⟩,
        ⟨.eof, "", ⟨2, 7⟩⟩]⟩ := by decide +kernel
  have hbehind : tokenize ⟨"b \x7b% (", "", "t.twig"⟩ =
      .error ⟨"t.twig", ⟨1, 5⟩, "Unclosed \"(\""⟩ := by decide +kernel
  rw [tokenize_append _ _ _ _ hfront (.inr ⟨_, rfl, .inl (by decide)⟩), hbehind]
  rfl

end TemplateLint
