import TemplateLint.Proofs.Text.Position
import TemplateLint.Template.Scan

/-!
# Reading loses nothing

Every step of the reader cuts a lexeme off the front of what lies ahead. So whatever lengths the steps
decide on, the texts of the lexemes joined together are the template, and the place of a token is the
end of everything before it. What a step adds to this is that its lexeme has a first character and is
never the mark of the end, which `Lexeme.locate` writes once, behind the last lexeme.

The equations for `scan` at the front of the module are how the rest of the theory runs the reader: no
other module unfolds it.
-/

namespace TemplateLint

/-! ### One step of a scan -/

theorem scan_nil_text (offset : Nat) : scan .text offset [] = .ok [] := by
  rw [scan]
  rfl

theorem scan_nil_of_fault {mode : Mode} {fault : LocatedFault} (offset : Nat)
    (h : mode.finish = .error fault) : scan mode offset [] = .error fault := by
  rw [scan, h]
  rfl

theorem scan_cons_of_step {mode : Mode} {offset : Nat} {c : Char} {rest : List Char} {step : Step}
    (h : mode.step offset c rest = .ok step) :
    scan mode offset (c :: rest) =
      (scan step.mode (offset + step.tail + 1) (rest.drop step.tail)).map
        (⟨step.kind, c :: rest.take step.tail⟩ :: ·) := by
  rw [scan, h]
  cases hmore : scan step.mode (offset + step.tail + 1) (rest.drop step.tail) with
  | error fault => simp [bind, Except.bind, Except.map, hmore]
  | ok more => simp [bind, Except.bind, Except.map, pure, Except.pure, hmore]

theorem scan_cons_of_fault {mode : Mode} {offset : Nat} {c : Char} {rest : List Char}
    {fault : LocatedFault} (h : mode.step offset c rest = .error fault) :
    scan mode offset (c :: rest) = .error fault := by
  rw [scan, h]
  rfl

/-- A property of the lexemes of all successful scans, proved step by step. -/
theorem scan_induction {P : List Char → List Lexeme → Prop} (hnil : P [] [])
    (hcons : ∀ (mode : Mode) (offset : Nat) (c : Char) (rest : List Char) (step : Step)
      (more : List Lexeme), mode.step offset c rest = .ok step → P (rest.drop step.tail) more →
      P (c :: rest) (⟨step.kind, c :: rest.take step.tail⟩ :: more))
    {mode : Mode} {offset : Nat} {text : List Char} {lexemes : List Lexeme}
    (h : scan mode offset text = .ok lexemes) : P text lexemes := by
  induction hlen : text.length using Nat.strong_induction_on
    generalizing mode offset text lexemes with
  | _ n ih =>
    cases text with
    | nil =>
      cases hfinish : mode.finish with
      | error fault =>
        rw [scan_nil_of_fault offset hfinish] at h
        simp at h
      | ok =>
        rw [scan, hfinish] at h
        cases h
        exact hnil
    | cons c rest =>
      cases hstep : mode.step offset c rest with
      | error fault =>
        rw [scan_cons_of_fault hstep] at h
        simp at h
      | ok step =>
        rw [scan_cons_of_step hstep] at h
        cases hmore : scan step.mode (offset + step.tail + 1) (rest.drop step.tail) with
        | error fault =>
          rw [hmore] at h
          simp [Except.map] at h
        | ok more =>
          rw [hmore] at h
          cases h
          have hshorter : (rest.drop step.tail).length < n := by
            rw [← hlen, List.length_drop, List.length_cons]
            omega
          exact hcons mode offset c rest step more hstep (ih _ hshorter hmore rfl)

/-! ### The lexemes are the text -/

/-- The texts of lexemes, joined. -/
def Lexeme.texts (lexemes : List Lexeme) : List Char :=
  lexemes.flatMap Lexeme.text

namespace Lexeme

@[simp]
theorem texts_nil : texts [] = [] := rfl

@[simp]
theorem texts_cons (l : Lexeme) (more : List Lexeme) : texts (l :: more) = l.text ++ texts more :=
  rfl

@[simp]
theorem texts_append (a b : List Lexeme) : texts (a ++ b) = texts a ++ texts b := by
  simp [texts]

end Lexeme

theorem texts_of_scan {mode : Mode} {offset : Nat} {text : List Char} {lexemes : List Lexeme}
    (h : scan mode offset text = .ok lexemes) : Lexeme.texts lexemes = text := by
  apply scan_induction (P := fun text lexemes => Lexeme.texts lexemes = text) ?_ ?_ h
  · rfl
  · intro mode offset c rest step more _ ih
    rw [Lexeme.texts_cons, ih, List.cons_append, List.take_append_drop]

/-! ### No lexeme is empty or marks the end -/

theorem Tag.startKind_ne_eof (tag : Tag) : tag.startKind ≠ .eof := by
  cases tag <;> decide

theorem Tag.endKind_ne_eof (tag : Tag) : tag.endKind ≠ .eof := by
  cases tag <;> decide

/-- A word is an operator or a name. -/
theorem wordKind_ne {kind : Token.Kind} (hoperator : .operator ≠ kind) (hname : .name ≠ kind)
    (word : List Char) : wordKind word ≠ kind := by
  unfold wordKind
  split
  · exact hoperator
  · exact hname

theorem innerLexeme_kind_ne_eof {c : Char} {rest : List Char} {kind : Token.Kind} {tail : Nat}
    (h : innerLexeme c rest = .ok (kind, tail)) : kind ≠ .eof := by
  unfold innerLexeme at h
  repeat' split at h
  all_goals simp only [Except.ok.injEq, Prod.mk.injEq, reduceCtorEq] at h
  all_goals obtain ⟨rfl, -⟩ := h
  all_goals first | exact wordKind_ne (by decide) (by decide) _ | decide

theorem commentStep_kind_ne_eof (start : Nat) (ahead : List Char) (n : Nat) :
    (Mode.commentStep start ahead n).kind ≠ .eof := by
  unfold Mode.commentStep
  repeat' split
  all_goals simp

theorem step_kind_ne_eof {mode : Mode} {offset : Nat} {c : Char} {rest : List Char} {step : Step}
    (h : mode.step offset c rest = .ok step) : step.kind ≠ .eof := by
  cases mode with
  | text =>
    simp only [Mode.step] at h
    split at h
    · cases h
      simp
    · cases h
      simp
    · next kind _ =>
      cases h
      exact kind.startKind_ne_eof
  | comment start =>
    simp only [Mode.step] at h
    split at h
    · cases h
    · cases h
      exact commentStep_kind_ne_eof start _ _
  | tag self start opened =>
    simp only [Mode.step] at h
    split at h
    · cases h
      exact self.endKind_ne_eof
    · cases hpass : opened.pass offset c with
      | error fault => simp [hpass, bind, Except.bind] at h
      | ok opened' =>
        simp only [hpass, bind, Except.bind] at h
        split at h
        · next kind tail hinner =>
          cases h
          exact innerLexeme_kind_ne_eof hinner
        · cases h

theorem lexemes_of_scan {mode : Mode} {offset : Nat} {text : List Char} {lexemes : List Lexeme}
    (h : scan mode offset text = .ok lexemes) :
    ∀ l ∈ lexemes, l.kind ≠ .eof ∧ l.text ≠ [] := by
  apply scan_induction (P := fun _ lexemes => ∀ l ∈ lexemes, l.kind ≠ .eof ∧ l.text ≠ []) ?_ ?_ h
  · simp
  · intro mode offset c rest step more hstep ih l hl
    rcases List.mem_cons.1 hl with rfl | hmore
    · exact ⟨step_kind_ne_eof hstep, List.cons_ne_nil _ _⟩
    · exact ih l hmore

/-! ### Tokens stand where the text before them ends -/

namespace Token

/-- The values of tokens, joined. -/
def written (tokens : List Token) : String :=
  String.join (tokens.map Token.value)

/-- Every token carries the line and the column that are counted in the values of the tokens before
it. -/
def Located (tokens : List Token) : Prop :=
  ∀ (before : List Token) (t : Token) (behind : List Token), tokens = before ++ t :: behind →
    t.position.line = 1 + (written before).toList.count '\n' ∧
      t.position.column = (Position.lastLine (written before).toList).length

@[simp]
theorem written_nil : written [] = "" := rfl

@[simp]
theorem toList_written_cons (t : Token) (tokens : List Token) :
    (written (t :: tokens)).toList = t.value.toList ++ (written tokens).toList := by
  simp [written]

end Token

namespace Lexeme

/-- The tokens of lexemes from a place on, without the mark of the end. -/
def tokens (here : Position) : List Lexeme → List Token
  | [] => []
  | l :: more => ⟨l.kind, String.ofList l.text, here⟩ :: tokens (here.advance l.text) more

theorem locate_eq (here : Position) (lexemes : List Lexeme) :
    locate here lexemes = tokens here lexemes ++ [⟨.eof, "", here.advance (texts lexemes)⟩] := by
  induction lexemes generalizing here with
  | nil => rfl
  | cons l more ih => simp [locate, tokens, ih]

theorem toList_written_locate (here : Position) (lexemes : List Lexeme) :
    (Token.written (locate here lexemes)).toList = texts lexemes := by
  induction lexemes generalizing here with
  | nil => rfl
  | cons l more ih => simp [locate, ih]

theorem mem_tokens {here : Position} {lexemes : List Lexeme} {t : Token}
    (h : t ∈ tokens here lexemes) :
    ∃ l ∈ lexemes, t.kind = l.kind ∧ t.value = String.ofList l.text := by
  induction lexemes generalizing here with
  | nil => simp [tokens] at h
  | cons l more ih =>
    rcases List.mem_cons.1 h with rfl | hmore
    · exact ⟨l, by simp, rfl, rfl⟩
    · obtain ⟨l', hl', hsame⟩ := ih hmore
      exact ⟨l', List.mem_cons_of_mem l hl', hsame⟩

/-- The place of a token, reached by moving along the values of the tokens before it. -/
theorem position_of_locate {here : Position} {lexemes : List Lexeme} {before behind : List Token}
    {t : Token} (h : locate here lexemes = before ++ t :: behind) :
    t.position = here.advance (Token.written before).toList := by
  induction before generalizing here lexemes with
  | nil =>
    cases lexemes with
    | nil =>
      cases h
      rfl
    | cons l more =>
      cases h
      rfl
  | cons first before ih =>
    cases lexemes with
    | nil => simp [locate] at h
    | cons l more =>
      rw [locate, List.cons_append, List.cons.injEq] at h
      obtain ⟨rfl, hmore⟩ := h
      rw [ih hmore, Token.toList_written_cons, Position.advance_append, String.toList_ofList]

theorem located_locate (lexemes : List Lexeme) : Token.Located (locate Position.start lexemes) := by
  intro before t behind h
  have hposition : t.position = Position.after (Token.written before).toList := position_of_locate h
  rw [Position.after_eq_counts] at hposition
  simp [hposition]

end Lexeme

/-! ### Streams of tokens -/

theorem tokenize_of_scan {source : Source} {lexemes : List Lexeme}
    (h : scan .text 0 source.content.toList = .ok lexemes) :
    tokenize source = .ok ⟨source.displayPath, Lexeme.locate Position.start lexemes⟩ := by
  simp only [tokenize, h]

theorem tokenize_of_fault {source : Source} {offset : Nat} {fault : Fault}
    (h : scan .text 0 source.content.toList = .error ⟨offset, fault⟩) :
    tokenize source = .error
      ⟨source.displayPath, Position.after (source.content.toList.take offset), fault.message⟩ := by
  simp only [tokenize, h]

theorem scan_of_tokenize {source : Source} {stream : TokenStream}
    (h : tokenize source = .ok stream) :
    ∃ lexemes, scan .text 0 source.content.toList = .ok lexemes ∧
      stream = ⟨source.displayPath, Lexeme.locate Position.start lexemes⟩ := by
  cases hscan : scan .text 0 source.content.toList with
  | error located =>
    rw [tokenize_of_fault hscan] at h
    cases h
  | ok lexemes =>
    rw [tokenize_of_scan hscan] at h
    cases h
    exact ⟨lexemes, rfl, rfl⟩

theorem written_of_tokenize {source : Source} {stream : TokenStream}
    (h : tokenize source = .ok stream) : Token.written stream.tokens = source.content := by
  obtain ⟨lexemes, hscan, rfl⟩ := scan_of_tokenize h
  rw [← String.toList_inj, Lexeme.toList_written_locate, texts_of_scan hscan]

/-- **Nothing is lost.** The values of the tokens are the template, one empty token marks the end and
no other token is empty, and every token is where it says. -/
theorem tokenize_lossless {source : Source} {stream : TokenStream}
    (h : tokenize source = .ok stream) :
    Token.written stream.tokens = source.content ∧
      (∃ (tokens : List Token) (last : Token), stream.tokens = tokens ++ [last] ∧
        last.kind = .eof ∧ last.value = "" ∧ ∀ t ∈ tokens, t.kind ≠ .eof ∧ t.value ≠ "") ∧
      Token.Located stream.tokens := by
  have hwritten := written_of_tokenize h
  obtain ⟨lexemes, hscan, rfl⟩ := scan_of_tokenize h
  refine ⟨hwritten, ⟨Lexeme.tokens Position.start lexemes, _, Lexeme.locate_eq _ _, rfl, rfl, ?_⟩,
    Lexeme.located_locate lexemes⟩
  intro t ht
  obtain ⟨l, hl, hkind, hvalue⟩ := Lexeme.mem_tokens ht
  obtain ⟨hne, htext⟩ := lexemes_of_scan hscan l hl
  refine ⟨hkind ▸ hne, fun hempty => htext ?_⟩
  rw [hvalue] at hempty
  simpa using congrArg String.toList hempty

/-- A comment over two lines, whose delimiters have modifiers. -/
theorem tokenize_lossless_comment :
    Token.Located [⟨.text, "a\n", ⟨1, 0⟩⟩, ⟨.commentStart, "\x7b#-", ⟨2, 0⟩⟩, ⟨.text, " b\n", ⟨2, 3⟩⟩,
      ⟨.commentEnd, "~#\x7d", ⟨3, 0⟩⟩, ⟨.eof, "", ⟨3, 3⟩⟩] := by
  have h : tokenize ⟨"a\n\x7b#- b\n~#\x7d", "", "t.twig"⟩ = .ok ⟨"t.twig", [⟨.text, "a\n", ⟨1, 0⟩⟩,
      ⟨.commentStart, "\x7b#-", ⟨2, 0⟩⟩, ⟨.text, " b\n", ⟨2, 3⟩⟩, ⟨.commentEnd, "~#\x7d", ⟨3, 0⟩⟩,
      ⟨.eof, "", ⟨3, 3⟩⟩]⟩ := by cbv
  exact (tokenize_lossless h).2.2

end TemplateLint
