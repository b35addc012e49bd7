import TemplateLint.Proofs.Template.Acceptance

/-!
# The kinds of tokens in a template

Rules see the tokens of a template and not its grammar. They look at the next token or run ahead to the
next one of some kind, and nothing in them says where the tag ends. What keeps them inside the tag is a
fact about kinds: a token that opens a tag has one behind it that closes a tag, and no template begins
with such a closing token.

The second fact here is about what is written in a token. Line breaks and other characters that do not
show can stand in text, in blanks and in strings. Tokens of all other kinds are written with the visible
characters of ASCII.
-/

namespace TemplateLint

open Lexeme (texts)

namespace Token.Kind

/-- Whether tokens of a kind open a tag. -/
def opensTag : Token.Kind → Bool
  | .varStart | .blockStart => true
  | _ => false

/-- Whether tokens of a kind close a tag. -/
def closesTag : Token.Kind → Bool
  | .varEnd | .blockEnd => true
  | _ => false

/-- Whether tokens of a kind stand inside tags. -/
def isInner : Token.Kind → Bool
  | .whitespace | .name | .number | .string | .operator | .punctuation => true
  | _ => false

/-- Whether tokens of a kind can hold any character. -/
def isFree : Token.Kind → Bool
  | .text | .whitespace | .string => true
  | _ => false

/-- Every kind that opens a tag has one behind it that closes a tag. -/
def Enclosed : List Token.Kind → Prop
  | [] => True
  | kind :: rest =>
    (kind.opensTag = true → ∃ closer ∈ rest, closer.closesTag = true) ∧ Enclosed rest

theorem Enclosed.append {a b : List Token.Kind} (ha : Enclosed a) (hb : Enclosed b) :
    Enclosed (a ++ b) := by
  induction a with
  | nil => exact hb
  | cons kind a ih =>
    refine ⟨fun hopens => ?_, ih ha.2⟩
    obtain ⟨closer, hmem, hcloses⟩ := ha.1 hopens
    exact ⟨closer, List.mem_append_left b hmem, hcloses⟩

theorem enclosed_of_not_opens {kinds : List Token.Kind}
    (h : ∀ kind ∈ kinds, kind.opensTag = false) : Enclosed kinds := by
  induction kinds with
  | nil => trivial
  | cons kind kinds ih =>
    rw [List.forall_mem_cons] at h
    exact ⟨fun hopens => by simp [h.1] at hopens, ih h.2⟩

theorem opensTag_of_isInner {kind : Token.Kind} (h : kind.isInner = true) :
    kind.opensTag = false := by
  cases kind <;> first | rfl | cases h

end Token.Kind

open Token.Kind (Enclosed)

/-! ### Tags -/

theorem isInner_wordKind (word : List Char) : (wordKind word).isInner = true := by
  unfold wordKind
  split <;> rfl

theorem IsInner.isInner_kind {l : Lexeme} {next : List Char} (h : IsInner l next) :
    l.kind.isInner = true := by
  cases h with
  | word => exact isInner_wordKind _
  | _ => rfl

theorem Inside.isInner_kind {tag : Tag} {next : List Char} {opened : List Bracket}
    {inner : List Lexeme} (h : Inside tag next opened inner) :
    ∀ l ∈ inner, l.kind.isInner = true := by
  induction h with
  | done => simp
  | inner hl _ _ ih => exact List.forall_mem_cons.2 ⟨hl.isInner_kind, ih⟩
  | opening bracket _ ih => exact List.forall_mem_cons.2 ⟨rfl, ih⟩
  | closing bracket _ ih => exact List.forall_mem_cons.2 ⟨rfl, ih⟩

theorem kind_of_mem_comment {opener body closer : List Char} {l : Lexeme}
    (h : l ∈ (⟨.commentStart, opener⟩ : Lexeme) :: (commentBody body ++ [⟨.commentEnd, closer⟩])) :
    l.kind = .commentStart ∨ l.kind = .text ∨ l.kind = .commentEnd := by
  rw [List.mem_cons, List.mem_append, List.mem_singleton] at h
  rcases h with rfl | hbody | rfl
  · exact .inl rfl
  · rw [eq_of_mem_commentBody hbody]
    exact .inr (.inl rfl)
  · exact .inr (.inr rfl)

theorem IsItem.enclosed {next : List Char} {item : List Lexeme} (h : IsItem next item) :
    Enclosed (item.map Lexeme.kind) := by
  cases h with
  | @comment opener body closer _ _ _ =>
    apply Token.Kind.enclosed_of_not_opens
    intro kind hkind
    obtain ⟨l, hl, rfl⟩ := List.mem_map.1 hkind
    rcases kind_of_mem_comment hl with hkind | hkind | hkind <;> rw [hkind] <;> rfl
  | @tag tag opener closer inner _ hinner _ =>
    have hcloses : tag.endKind.closesTag = true := by cases tag <;> rfl
    have hopens : tag.endKind.opensTag = false := by cases tag <;> rfl
    refine ⟨fun _ => ⟨tag.endKind, by simp, hcloses⟩, ?_⟩
    rw [List.map_append]
    refine Enclosed.append (Token.Kind.enclosed_of_not_opens fun kind hkind => ?_)
      (Token.Kind.enclosed_of_not_opens (by simpa using hopens))
    obtain ⟨l, hl, rfl⟩ := List.mem_map.1 hkind
    exact Token.Kind.opensTag_of_isInner (hinner.isInner_kind l hl)

theorem IsTemplate.enclosed {next : List Char} {lexemes : List Lexeme}
    (h : IsTemplate next lexemes) : Enclosed (lexemes.map Lexeme.kind) := by
  induction h with
  | done => trivial
  | text _ _ _ _ ih => exact ⟨fun hopens => (by cases hopens), ih⟩
  | item hitem _ ih =>
    rw [List.map_append]
    exact hitem.enclosed.append ih

theorem IsTemplate.head_not_closesTag {next : List Char} {lexemes : List Lexeme}
    (h : IsTemplate next lexemes) : ∀ l ∈ lexemes.head?, l.kind.closesTag = false := by
  cases h with
  | done => simp
  | text => simp [Token.Kind.closesTag]
  | item hitem _ =>
    cases hitem with
    | comment => simp [Token.Kind.closesTag]
    | tag tag => cases tag <;> simp [Token.Kind.closesTag, Tag.startKind]

/-! ### Visible characters -/

/-- Whether a character is a visible one of ASCII. -/
def isGraphic (c : Char) : Bool :=
  32 < c.toNat && c.toNat < 127

theorem isGraphic_of_isWordPart {c : Char} (h : isWordPart c = true) : isGraphic c = true := by
  have hrange := toNat_of_isWordPart h
  simp only [isGraphic, Bool.and_eq_true, decide_eq_true_eq]
  omega

theorem IsDigits.isGraphic {text : List Char} (h : IsDigits text) :
    ∀ c ∈ text, isGraphic c = true :=
  fun c hc => isGraphic_of_isWordPart (isWordPart_of_isDigit (h.2 c hc))

theorem IsOperator.isGraphic {text : List Char} (h : IsOperator text) :
    ∀ c ∈ text, isGraphic c = true := by
  have hdouble : doubleOperators.all
      (fun p => decide (TemplateLint.isGraphic p.1 = true ∧ TemplateLint.isGraphic p.2 = true)) = true := by
    decide
  have hsingle : singleOperators.all (fun c => decide (TemplateLint.isGraphic c = true)) = true := by
    decide
  rcases h with ⟨a, b, hmem, rfl⟩ | ⟨c, hmem, rfl⟩
  · simpa using of_mem_of_all hdouble hmem
  · simpa using of_mem_of_all hsingle hmem

theorem isGraphic_of_isModifier {c : Char} (h : isModifier c = true) : isGraphic c = true := by
  simp only [isModifier, Bool.or_eq_true, beq_iff_eq] at h
  rcases h with rfl | rfl <;> decide

theorem IsOpener.isGraphic {mark : Char} {text : List Char} (h : IsOpener mark text)
    (hmark : isGraphic mark = true) : ∀ c ∈ text, isGraphic c = true := by
  rcases h with rfl | ⟨m, hm, rfl⟩
  · simpa using ⟨by decide, hmark⟩
  · simpa using ⟨by decide, hmark, isGraphic_of_isModifier hm⟩

theorem IsCloser.isGraphic {mark : Char} {text : List Char} (h : IsCloser mark text)
    (hmark : isGraphic mark = true) : ∀ c ∈ text, isGraphic c = true := by
  rcases h with rfl | ⟨m, hm, rfl⟩
  · simpa using ⟨hmark, by decide⟩
  · simpa using ⟨isGraphic_of_isModifier hm, hmark, by decide⟩

/-- A lexeme is written with visible characters unless it can hold any. -/
def Lexeme.IsVisible (l : Lexeme) : Prop :=
  l.kind.isFree = false → ∀ c ∈ l.text, isGraphic c = true

theorem IsInner.isVisible {l : Lexeme} {next : List Char} (h : IsInner l next) : l.IsVisible := by
  intro hkind
  cases h with
  | blanks => cases hkind
  | string => cases hkind
  | word h =>
    obtain ⟨c, cs, rfl, hc, hcs⟩ := h.1
    refine List.forall_mem_cons.2 ⟨?_, fun d hd => isGraphic_of_isWordPart (hcs d hd)⟩
    exact isGraphic_of_isWordPart (isWordPart_of_isWordStart hc)
  | number h =>
    rcases h.1 with hdigits | ⟨whole, fraction, hwhole, hfraction, rfl⟩
    · exact hdigits.isGraphic
    · refine List.forall_mem_append.2 ⟨hwhole.isGraphic, ?_⟩
      exact List.forall_mem_cons.2 ⟨by decide, hfraction.isGraphic⟩
  | operator h => exact h.1.isGraphic
  | mark hc _ =>
    have hmarks : punctuationMarks.all (fun c => decide (isGraphic c = true)) = true := by decide
    simpa using of_mem_of_all hmarks hc

theorem Inside.isVisible {tag : Tag} {next : List Char} {opened : List Bracket}
    {inner : List Lexeme} (h : Inside tag next opened inner) : ∀ l ∈ inner, l.IsVisible := by
  induction h with
  | done => simp
  | inner hl _ _ ih => exact List.forall_mem_cons.2 ⟨hl.isVisible, ih⟩
  | opening bracket _ ih =>
    refine List.forall_mem_cons.2 ⟨fun _ => List.forall_mem_singleton.2 ?_, ih⟩
    cases bracket <;> decide
  | closing bracket _ ih =>
    refine List.forall_mem_cons.2 ⟨fun _ => List.forall_mem_singleton.2 ?_, ih⟩
    cases bracket <;> decide

theorem isVisible_commentBody (body : List Char) : ∀ l ∈ commentBody body, l.IsVisible := by
  intro l hl hkind
  rw [eq_of_mem_commentBody hl] at hkind
  cases hkind

theorem IsItem.isVisible {next : List Char} {item : List Lexeme} (h : IsItem next item) :
    ∀ l ∈ item, l.IsVisible := by
  cases h with
  | comment hopener _ hcloser =>
    refine List.forall_mem_cons.2 ⟨fun _ => hopener.1.isGraphic (by decide), ?_⟩
    refine List.forall_mem_append.2 ⟨isVisible_commentBody _, ?_⟩
    exact List.forall_mem_singleton.2 fun _ => hcloser.isGraphic (by decide)
  | tag tag hopener hinner hcloser =>
    have hopen : isGraphic tag.openMark = true := by cases tag <;> decide
    have hclose : isGraphic tag.closeMark = true := by cases tag <;> decide
    refine List.forall_mem_cons.2 ⟨fun _ => hopener.1.isGraphic hopen, ?_⟩
    refine List.forall_mem_append.2 ⟨hinner.isVisible, ?_⟩
    exact List.forall_mem_singleton.2 fun _ => hcloser.isGraphic hclose

theorem IsTemplate.isVisible {next : List Char} {lexemes : List Lexeme}
    (h : IsTemplate next lexemes) : ∀ l ∈ lexemes, l.IsVisible := by
  induction h with
  | done => simp
  | text _ _ _ _ ih => exact List.forall_mem_cons.2 ⟨fun hkind => (by cases hkind), ih⟩
  | item hitem _ ih => exact List.forall_mem_append.2 ⟨hitem.isVisible, ih⟩

end TemplateLint
