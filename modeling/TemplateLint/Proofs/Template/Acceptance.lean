import TemplateLint.Proofs.Template.Fault

/-!
# Exactly the grammar is read

The reader takes every template as the grammar cuts it, and where there is no template it reports a
fault. Together this says that reading succeeds just on the templates, and since the reader is a
function, a template can be cut into lexemes in one way only. The grammar itself is not looked at for
this: no rule of it has to be played off against another.

Tokens are lexemes with places. The places follow from the lexemes, so a stream of tokens is the answer
of the reader exactly if its lexemes are a template, its values are the text, and its places are those
that are counted in the text.
-/

namespace TemplateLint

open Lexeme (texts)

/-! ### Lexemes -/

theorem scan_texts {lexemes : List Lexeme} (h : IsTemplate [] lexemes) (offset : Nat) :
    scan .text offset (texts lexemes) = .ok lexemes := by
  have hscan := @scan_template offset lexemes [] h (fun _ _ _ => .inl rfl)
  rw [List.append_nil, scan_nil_text] at hscan
  simpa [Except.map] using hscan

/-- What the reader does behind a template is what it does with the rest. -/
theorem ReadTo.scan_eq {start : Nat} {chars next : List Char} {lexemes : List Lexeme}
    (h : ReadTo start chars lexemes next) :
    scan .text start chars =
      (scan .text (start + (texts lexemes).length) next).map (lexemes ++ ·) := by
  rw [h.chars_eq]
  refine scan_template h.isTemplate fun _ _ _ => ?_
  rcases h.next_cases with hnil | ⟨hopens, -⟩
  · exact .inl hnil
  · exact .inr hopens

theorem isTemplate_of_scan {offset : Nat} {chars : List Char} {lexemes : List Lexeme}
    (h : scan .text offset chars = .ok lexemes) : IsTemplate [] lexemes := by
  obtain ⟨front, next, hread⟩ := exists_readTo offset chars
  rw [hread.scan_eq] at h
  rcases hread.next_cases with rfl | ⟨-, fault, hfault, -⟩
  · rw [scan_nil_text] at h
    have hfront : front ++ [] = lexemes := Except.ok.inj h
    rw [List.append_nil] at hfront
    exact hfront ▸ hread.isTemplate
  · rw [hfault] at h
    cases h

/-! ### Tokens -/

/-- What is left of a token without its place. -/
def Token.lexeme (t : Token) : Lexeme :=
  ⟨t.kind, t.value.toList⟩

/-- Tokens whose lexemes are a template, and a last one that is empty and marks the end. -/
def Token.WellFormed (tokens : List Token) : Prop :=
  ∃ lexemes, tokens.map Token.lexeme = lexemes ++ [⟨.eof, []⟩] ∧ IsTemplate [] lexemes

theorem map_lexeme_locate (here : Position) (lexemes : List Lexeme) :
    (Lexeme.locate here lexemes).map Token.lexeme = lexemes ++ [⟨.eof, []⟩] := by
  induction lexemes generalizing here with
  | nil => rfl
  | cons l more ih => simp [Lexeme.locate, Token.lexeme, ih]

theorem toList_written (tokens : List Token) :
    (Token.written tokens).toList = texts (tokens.map Token.lexeme) := by
  induction tokens with
  | nil => rfl
  | cons t tokens ih => simp [Token.lexeme, ih]

theorem written_congr {a b : List Token} (h : a.map Token.lexeme = b.map Token.lexeme) :
    Token.written a = Token.written b := by
  rw [← String.toList_inj, toList_written, toList_written, h]

theorem Token.Located.of_concat {tokens : List Token} {last : Token}
    (h : Token.Located (tokens ++ [last])) : Token.Located tokens := by
  intro before t behind heq
  subst heq
  exact h before t (behind ++ [last]) (by simp)

/-- The places of tokens follow from their lexemes. -/
theorem Token.Located.eq_of_lexemes {a b : List Token} (ha : Token.Located a)
    (hb : Token.Located b) (h : a.map Token.lexeme = b.map Token.lexeme) : a = b := by
  induction a using List.reverseRecOn generalizing b with
  | nil => simpa using h.symm
  | append_singleton a t ih =>
    obtain ⟨b, u, rfl⟩ : ∃ front u, b = front ++ [u] := by
      refine ⟨b.dropLast, b.getLast ?_, (List.dropLast_append_getLast _).symm⟩
      intro hempty
      simp [hempty] at h
    simp only [List.map_append, List.map_cons, List.map_nil] at h
    obtain ⟨hfront, hlast⟩ := List.append_inj' h rfl
    have hlexeme : t.lexeme = u.lexeme := List.singleton_inj.1 hlast
    obtain rfl := ih ha.of_concat hb.of_concat hfront
    have hposition : t.position = u.position := by
      obtain ⟨hline, hcolumn⟩ := ha a t [] rfl
      obtain ⟨hline', hcolumn'⟩ := hb a u [] rfl
      cases ht : t.position
      cases hu : u.position
      simp_all
    obtain ⟨kind, value, position⟩ := t
    obtain ⟨kind', value', position'⟩ := u
    simp only [Token.lexeme, Lexeme.mk.injEq, String.toList_inj] at hlexeme
    obtain ⟨rfl, rfl⟩ := hlexeme
    cases hposition
    rfl

/-! ### Streams -/

theorem wellFormed_congr {a b : List Token} (h : a.map Token.lexeme = b.map Token.lexeme) :
    Token.WellFormed a ↔ Token.WellFormed b := by
  rw [Token.WellFormed, Token.WellFormed, h]

theorem wellFormed_of_tokenize {source : Source} {stream : TokenStream}
    (h : tokenize source = .ok stream) :
    stream.path = source.displayPath ∧ Token.WellFormed stream.tokens ∧
      Token.written stream.tokens = source.content ∧ Token.Located stream.tokens := by
  have hwritten := written_of_tokenize h
  obtain ⟨lexemes, hscan, rfl⟩ := scan_of_tokenize h
  exact ⟨rfl, ⟨lexemes, map_lexeme_locate _ _, isTemplate_of_scan hscan⟩, hwritten,
    Lexeme.located_locate lexemes⟩

/-- A well-formed list of tokens is what the reader makes of its values, but for the places. -/
theorem exists_tokenize_of_wellFormed {source : Source} {tokens : List Token}
    (hwell : Token.WellFormed tokens) (hwritten : Token.written tokens = source.content) :
    ∃ stream, tokenize source = .ok stream ∧
      tokens.map Token.lexeme = stream.tokens.map Token.lexeme := by
  obtain ⟨lexemes, hlexemes, htemplate⟩ := hwell
  have htexts : source.content.toList = texts lexemes := by
    rw [← hwritten, toList_written, hlexemes]
    simp
  have hscan := scan_texts htemplate 0
  rw [← htexts] at hscan
  refine ⟨_, tokenize_of_scan hscan, ?_⟩
  rw [hlexemes, map_lexeme_locate]

/-- **Just the grammar is read, in the only way it allows.** A stream is the answer for a template
exactly if it is well-formed, its values are the template and its places are right. And if the places
are left aside, any list of tokens that is well-formed and whose values are the template is the
answer. -/
theorem tokenize_eq_ok_iff (source : Source) :
    (∀ stream, tokenize source = .ok stream ↔
      stream.path = source.displayPath ∧ Token.WellFormed stream.tokens ∧
        Token.written stream.tokens = source.content ∧ Token.Located stream.tokens) ∧
    ∀ tokens, Token.WellFormed tokens ∧ Token.written tokens = source.content ↔
      ∃ stream, tokenize source = .ok stream ∧
        tokens.map Token.lexeme = stream.tokens.map Token.lexeme := by
  refine ⟨fun stream => ⟨wellFormed_of_tokenize, ?_⟩, fun tokens => ⟨?_, ?_⟩⟩
  · intro hstream
    obtain ⟨hpath, hwell, hwritten, hlocated⟩ := hstream
    obtain ⟨stream', hstream, hlexemes⟩ := exists_tokenize_of_wellFormed hwell hwritten
    obtain ⟨hpath', -, -, hlocated'⟩ := wellFormed_of_tokenize hstream
    have htokens := hlocated.eq_of_lexemes hlocated' hlexemes
    obtain ⟨path, tokens⟩ := stream
    obtain ⟨path', tokens'⟩ := stream'
    cases hpath.trans hpath'.symm
    cases htokens
    exact hstream
  · intro htokens
    exact exists_tokenize_of_wellFormed htokens.1 htokens.2
  · intro hanswer
    obtain ⟨stream, hstream, hlexemes⟩ := hanswer
    obtain ⟨-, hwell, hwritten, -⟩ := wellFormed_of_tokenize hstream
    exact ⟨(wellFormed_congr hlexemes).2 hwell, (written_congr hlexemes).trans hwritten⟩

/-- The text in a comment can end with a modifier, if the delimiter behind it has another one. -/
theorem comment_text_ends_with_modifier :
    ¬ ∀ source stream, tokenize source = .ok stream → ∀ opener body closer : Token,
      [opener, body, closer] <:+: stream.tokens → opener.kind = .commentStart →
      body.kind = .text → closer.kind = .commentEnd →
      ∀ c ∈ body.value.toList.getLast?, isModifier c = false := by
  intro h
  have hread : tokenize ⟨"\x7b# a--#\x7d", "", "t.twig"⟩ = .ok ⟨"t.twig",
      [⟨.commentStart, "\x7b#", ⟨1, 0⟩⟩, ⟨.text, " a-", ⟨1, 2⟩⟩, ⟨.commentEnd, "-#\x7d", ⟨1, 5⟩⟩,
        ⟨.eof, "", ⟨1, 8⟩⟩]⟩ := by cbv
  have hlast := h _ _ hread _ _ _ ⟨[], [⟨.eof, "", ⟨1, 8⟩⟩], rfl⟩ rfl rfl rfl '-' (by decide)
  revert hlast
  decide

end TemplateLint
