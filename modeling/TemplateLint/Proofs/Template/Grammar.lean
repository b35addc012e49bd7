import TemplateLint.Proofs.Template.Lossless
import TemplateLint.Proofs.Template.Recognition

/-!
# The grammar of templates

A template is plain text with items in it, and an item is a comment or a tag. The grammar says which
lists of lexemes are templates. It is stated for lexemes with characters behind them, because a lexeme
depends on what follows it: `IsTemplate next lexemes` says that the lexemes are a template as far as
they go, when the characters `next` come next.

What follows matters little. Taking characters away at the end never does harm, and an item does not
depend on what follows it at all, since it ends with a delimiter that is complete by itself. Only plain
text at the end of a template can be spoilt by what is put behind it.
-/

namespace TemplateLint

open Lexeme (texts)

/-- The lexemes inside a tag in which some brackets are open, up to the place where the tag is closed
and all brackets are closed. Where no bracket is open, nothing stands that could close the tag. An
opening bracket cannot do so, and before a closing one a bracket is open. -/
inductive Inside (tag : Tag) (next : List Char) : List Bracket → List Lexeme → Prop
  | done : Inside tag next [] []
  | inner {opened : List Bracket} {l : Lexeme} {more : List Lexeme} :
      IsInner l (texts more ++ next) →
      (opened = [] → ¬ Closes tag.closeMark (l.text ++ (texts more ++ next))) →
      Inside tag next opened more → Inside tag next opened (l :: more)
  | opening {opened : List Bracket} {more : List Lexeme} (bracket : Bracket) :
      Inside tag next (bracket :: opened) more →
      Inside tag next opened (⟨.punctuation, [bracket.openChar]⟩ :: more)
  | closing {opened : List Bracket} {more : List Lexeme} (bracket : Bracket) :
      Inside tag next opened more →
      Inside tag next (bracket :: opened) (⟨.punctuation, [bracket.closeChar]⟩ :: more)

/-- The lexeme between the delimiters of a comment, if there is anything. -/
def commentBody (body : List Char) : List Lexeme :=
  if body = [] then [] else [⟨.text, body⟩]

/-- The characters between the delimiters of a comment. The closing delimiter takes the modifier
before it, so they end with one only if the delimiter has one of its own. -/
def IsCommentBody (body closer : List Char) : Prop :=
  ¬ ['#', '}'] <:+: body ∧ (closer = ['#', '}'] → ∀ c ∈ body.getLast?, isModifier c = false)

/-- The lexemes of one comment or one tag. -/
inductive IsItem (next : List Char) : List Lexeme → Prop
  | comment {opener body closer : List Char} :
      Longest (IsOpener '#') opener (body ++ (closer ++ next)) → IsCommentBody body closer →
      IsCloser '#' closer →
      IsItem next (⟨.commentStart, opener⟩ :: (commentBody body ++ [⟨.commentEnd, closer⟩]))
  | tag (tag : Tag) {opener closer : List Char} {inner : List Lexeme} :
      Longest (IsOpener tag.openMark) opener (texts inner ++ (closer ++ next)) →
      Inside tag (closer ++ next) [] inner → IsCloser tag.closeMark closer →
      IsItem next (⟨tag.startKind, opener⟩ :: (inner ++ [⟨tag.endKind, closer⟩]))

/-- The lexemes of a template. Two texts never stand side by side. -/
inductive IsTemplate (next : List Char) : List Lexeme → Prop
  | done : IsTemplate next []
  | text {text : List Char} {more : List Lexeme} :
      text ≠ [] → IsPlain text (texts more ++ next) → (∀ l ∈ more.head?, l.kind ≠ .text) →
      IsTemplate next more → IsTemplate next (⟨.text, text⟩ :: more)
  | item {item more : List Lexeme} :
      IsItem (texts more ++ next) item → IsTemplate next more → IsTemplate next (item ++ more)

@[simp]
theorem texts_commentBody (body : List Char) : texts (commentBody body) = body := by
  unfold commentBody
  split
  · next h => simp [h]
  · simp

theorem eq_of_mem_commentBody {body : List Char} {l : Lexeme} (h : l ∈ commentBody body) :
    l = ⟨.text, body⟩ := by
  unfold commentBody at h
  split at h
  · cases h
  · exact List.mem_singleton.1 h

/-! ### Less behind the lexemes -/

theorem Inside.of_append {tag : Tag} {next behind : List Char} {opened : List Bracket}
    {inner : List Lexeme} (h : Inside tag (next ++ behind) opened inner) :
    Inside tag next opened inner := by
  induction h with
  | done => exact .done
  | @inner opened l more hl hcloses _ ih =>
    rw [← List.append_assoc] at hl hcloses
    refine .inner hl.of_append (fun hnone hclosed => hcloses hnone ?_) ih
    simpa only [List.append_assoc] using hclosed.append behind
  | opening bracket _ ih => exact .opening bracket ih
  | closing bracket _ ih => exact .closing bracket ih

theorem IsItem.of_append {next behind : List Char} {item : List Lexeme}
    (h : IsItem (next ++ behind) item) : IsItem next item := by
  cases h with
  | comment hopener hbody hcloser =>
    rw [← List.append_assoc, ← List.append_assoc, List.append_assoc _ _ next] at hopener
    exact .comment hopener.of_append hbody hcloser
  | tag tag hopener hinner hcloser =>
    rw [← List.append_assoc, ← List.append_assoc, List.append_assoc _ _ next] at hopener
    rw [← List.append_assoc] at hinner
    exact .tag tag hopener.of_append hinner.of_append hcloser

theorem IsTemplate.of_append {next behind : List Char} {lexemes : List Lexeme}
    (h : IsTemplate (next ++ behind) lexemes) : IsTemplate next lexemes := by
  induction h with
  | done => exact .done
  | text hne hplain hhead _ ih =>
    rw [← List.append_assoc] at hplain
    exact .text hne hplain.of_append hhead ih
  | item hitem _ ih =>
    rw [← List.append_assoc] at hitem
    exact .item hitem.of_append ih

/-! ### More behind the lexemes -/

theorem Inside.append {tag : Tag} {next : List Char} {opened : List Bracket} {inner : List Lexeme}
    (h : Inside tag next opened inner) (hnext : 2 ≤ next.length) (behind : List Char) :
    Inside tag (next ++ behind) opened inner := by
  induction h with
  | done => exact .done
  | @inner opened l more hl hcloses _ ih =>
    have hlen : 2 ≤ (texts more ++ next).length := by
      rw [List.length_append]
      omega
    refine .inner ?_ (fun hnone hclosed => hcloses hnone ?_) ih
    · rw [← List.append_assoc]
      exact hl.append hlen behind
    · rw [← List.append_assoc, ← List.append_assoc] at hclosed
      rw [← List.append_assoc]
      have hpos : 0 < l.text.length := List.length_pos_iff.2 hl.text_ne_nil
      refine hclosed.of_append ?_
      rw [List.append_assoc, List.length_append]
      omega
  | opening bracket _ ih => exact .opening bracket ih
  | closing bracket _ ih => exact .closing bracket ih

theorem IsItem.append {next : List Char} {item : List Lexeme} (h : IsItem next item)
    (behind : List Char) : IsItem (next ++ behind) item := by
  cases h with
  | @comment opener body closer hopener hbody hcloser =>
    refine .comment ?_ hbody hcloser
    rw [← List.append_assoc, ← List.append_assoc, List.append_assoc _ _ next]
    refine hopener.append_of_bounded behind fun w hw => hw.length.2.trans ?_
    have hopen := hopener.1.length.1
    have hclose := hcloser.length.1
    simp only [List.length_append]
    omega
  | @tag tag opener closer inner hopener hinner hcloser =>
    have hopen := hopener.1.length.1
    have hclose := hcloser.length.1
    refine .tag tag ?_ ?_ hcloser
    · rw [← List.append_assoc, ← List.append_assoc, List.append_assoc _ _ next]
      refine hopener.append_of_bounded behind fun w hw => hw.length.2.trans ?_
      simp only [List.length_append]
      omega
    · rw [← List.append_assoc]
      refine hinner.append ?_ behind
      rw [List.length_append]
      omega

/-- An item ends where it ends, whatever follows. -/
theorem IsItem.change_next {next : List Char} {item : List Lexeme} (h : IsItem next item)
    (next' : List Char) : IsItem next' item :=
  have halone : IsItem [] item := IsItem.of_append h
  halone.append next'

/-- An item opens with a delimiter, which is seen whole in the item's first two characters. -/
theorem IsItem.opens {next : List Char} {item : List Lexeme} (h : IsItem next item) :
    Opens (texts item) ∧ 2 ≤ (texts item).length := by
  have hopens : ∀ (mark : Char) (opener more : List Char), mark ∈ ['{', '%', '#'] →
      IsOpener mark opener → Opens (opener ++ more) ∧ 2 ≤ (opener ++ more).length := by
    intro mark opener more hmark hopener
    refine ⟨⟨mark, hmark, ?_⟩, ?_⟩
    · rcases hopener with rfl | ⟨m, -, rfl⟩ <;> simp
    · have := hopener.length.1
      rw [List.length_append]
      omega
  cases h with
  | comment hopener _ _ => exact hopens '#' _ _ (by simp) hopener.1
  | tag tag hopener _ _ =>
    exact hopens tag.openMark _ _ (by cases tag <;> simp [Tag.openMark]) hopener.1

theorem IsItem.ne_nil {next : List Char} {item : List Lexeme} (h : IsItem next item) : item ≠ [] := by
  cases h <;> simp

theorem IsItem.head_kind {next : List Char} {item : List Lexeme} (h : IsItem next item) :
    ∀ l ∈ item.head?, l.kind ≠ .text := by
  cases h with
  | comment => simp
  | tag tag => cases tag <;> simp [Tag.startKind]

/-- A template that does not begin with text, and is not at its end, begins with an item. -/
theorem IsTemplate.opens {next : List Char} {lexemes : List Lexeme} (h : IsTemplate next lexemes)
    (hne : lexemes ≠ []) (hhead : ∀ l ∈ lexemes.head?, l.kind ≠ .text) :
    Opens (texts lexemes) ∧ 2 ≤ (texts lexemes).length := by
  cases h with
  | done => exact absurd rfl hne
  | text => exact absurd rfl (hhead _ rfl)
  | item hitem _ =>
    obtain ⟨hopens, hlen⟩ := hitem.opens
    rw [Lexeme.texts_append, List.length_append]
    exact ⟨hopens.append _, by omega⟩

/-- What may come behind lexemes: anything behind an item, and only an item behind text that does not
end with a brace. -/
def Seam (lexemes : List Lexeme) (behind : List Char) : Prop :=
  ∀ l ∈ lexemes.getLast?, l.kind = .text → l.text.getLast? ≠ some '{' ∧ Opens behind

theorem IsPlain.append_of_length {text next : List Char} (h : IsPlain text next)
    (hnext : 2 ≤ next.length) (behind : List Char) : IsPlain text (next ++ behind) := by
  intro s hs hsuffix hopens
  rw [← List.append_assoc] at hopens
  refine h s hs hsuffix (hopens.of_append ?_)
  rw [List.length_append]
  omega

theorem IsPlain.append_of_last {text : List Char} (h : IsPlain text [])
    (hlast : text.getLast? ≠ some '{') (behind : List Char) : IsPlain text behind := by
  intro s hs hsuffix hopens
  obtain ⟨c, cs, rfl⟩ := List.exists_cons_of_ne_nil hs
  cases cs with
  | nil =>
    obtain ⟨mark, -, hstarts⟩ := hopens
    obtain ⟨rfl, -⟩ := List.cons_prefix_cons.1 hstarts
    obtain ⟨front, rfl⟩ := hsuffix
    exact hlast (by simp)
  | cons d cs =>
    refine h _ hs hsuffix ?_
    rw [List.append_nil]
    exact hopens.of_append (by simp)

theorem IsTemplate.append_of_seam {lexemes : List Lexeme} {behind : List Char}
    (h : IsTemplate [] lexemes) (hseam : Seam lexemes behind) : IsTemplate behind lexemes := by
  induction h with
  | done => exact .done
  | @text text more hne hplain hhead hmore ih =>
    rw [List.append_nil] at hplain
    by_cases hend : more = []
    · subst hend
      refine .text hne ?_ hhead .done
      exact hplain.append_of_last (hseam _ rfl rfl).1 behind
    · refine .text hne (hplain.append_of_length (hmore.opens hend hhead).2 behind) hhead (ih ?_)
      obtain ⟨l, more, rfl⟩ := List.exists_cons_of_ne_nil hend
      intro last hlast
      exact hseam last (by rwa [List.getLast?_cons_cons])
  | @item item more hitem hmore ih =>
    refine .item (hitem.change_next _) ?_
    by_cases hend : more = []
    · subst hend
      exact .done
    · refine ih fun last hlast => hseam last ?_
      rwa [List.getLast?_append_of_ne_nil _ hend]

end TemplateLint
