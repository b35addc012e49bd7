import TemplateLint.Text.Position

/-!
# Tokens

A template is plain text with three kinds of items in it: output tags, block tags and comments. Each
item is opened and closed by a delimiter token. Inside tags nothing is thrown away: every run of blanks
is a token of its own, so that rules about spacing can look at it. The last token of a stream that was
read from a template marks the end and is empty.
-/

namespace TemplateLint

namespace Token

/-- What a token is. -/
inductive Kind where
  | text
  | varStart
  | varEnd
  | blockStart
  | blockEnd
  | commentStart
  | commentEnd
  | whitespace
  | name
  | number
  | string
  | operator
  | punctuation
  | eof
  deriving DecidableEq, Repr, Inhabited

end Token

/-- A part of a template, with the place where it begins. -/
structure Token where
  kind : Token.Kind
  value : String
  position : Position
  deriving DecidableEq, Repr, Inhabited

namespace Token

/-- Whether a token is of a kind. -/
def is (t : Token) (kind : Kind) : Bool :=
  t.kind == kind

/-- Whether a token is of a kind and has a value. -/
def isValue (t : Token) (kind : Kind) (value : String) : Bool :=
  t.kind == kind && t.value == value

/-- Whether a token says something: all do but runs of blanks. -/
def isSignificant (t : Token) : Bool :=
  !t.is .whitespace

/-- The tokens of a run that say something. A rule that looks ahead goes through these. -/
def significant (tokens : List Token) : List Token :=
  tokens.filter isSignificant

theorem significant_cons (t : Token) (rest : List Token) :
    significant (t :: rest) =
      if t.is .whitespace then significant rest else t :: significant rest := by
  unfold significant
  rw [List.filter_cons, isSignificant]
  cases t.is .whitespace with
  | false => rfl
  | true => rfl

theorem significant_append (a b : List Token) :
    significant (a ++ b) = significant a ++ significant b :=
  List.filter_append a b

end Token

/-- The tokens of one template, with the path its findings are reported under. -/
structure TokenStream where
  path : String
  tokens : List Token
  deriving DecidableEq, Repr, Inhabited

end TemplateLint
