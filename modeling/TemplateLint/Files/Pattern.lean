import TemplateLint.Files.Path

/-!
# File patterns

A pattern is a path in which some characters stand for others: `?` for any character, `*` for any run
of characters, and a bracketed class for one character in or, after `!`, not in a set. A part of the path
that is `**` and nothing else stands for any number of directories.

A class is closed by the first bracket behind its first member, so a closing bracket can be that member.
A class that is not closed, a run of three or more stars, and two stars beside anything but a slash are
mistakes. A pattern is checked as a whole before it is cut at its slashes, and then part by part.
-/

namespace TemplateLint.Pattern

/-- Members of a class of characters. -/
inductive Member where
  | single (c : Char)
  | range (low high : Char)
  deriving DecidableEq, Repr, Inhabited

/-- Whether a character is among members. -/
def Member.holds (c : Char) : Member → Bool
  | .single d => c == d
  | .range low high => low ≤ c && c ≤ high

/-- What one place in a pattern stands for. -/
inductive Atom where
  | char (c : Char)
  | anyChar
  | anyRun
  | anyDirectories
  | within (members : List Member)
  | without (members : List Member)
  deriving DecidableEq, Repr, Inhabited

/-- What can be wrong with a pattern. -/
inductive Mistake where
  | manyStars
  | starsInPart
  | openClass
  deriving DecidableEq, Repr, Inhabited

/-- A mistake, with its place in the text that was read. -/
structure PatternError where
  index : Nat
  mistake : Mistake
  deriving DecidableEq, Repr, Inhabited

/-- The mistake in words. -/
def Mistake.message : Mistake → String
  | .manyStars => "wildcards are either regular `*` or recursive `**`"
  | .starsInPart => "recursive wildcards must form a single path component"
  | .openClass => "invalid range pattern"

/-- The mistake and its place in words. -/
def PatternError.message (e : PatternError) : String :=
  let index := e.index
  s!"Pattern syntax error near position {index}: {e.mistake.message}"

/-! ## Reading -/

/-- The members that the text of a class lists. -/
def members : List Char → List Member
  | low :: '-' :: high :: rest => .range low high :: members rest
  | c :: rest => .single c :: members rest
  | [] => []

/-- A class whose first member is given, and the text behind the bracket that closes it. -/
def readClass? (first : Char) (rest : List Char) : Option (List Member × List Char) :=
  match rest.dropWhile (· ≠ ']') with
  | [] => none
  | _ :: behind => some (members (first :: rest.takeWhile (· ≠ ']')), behind)

theorem readClass?_length {first : Char} {rest behind : List Char} {found : List Member}
    (h : readClass? first rest = some (found, behind)) : behind.length < rest.length := by
  unfold readClass? at h
  split at h
  · cases h
  · next _ tail heq =>
    obtain ⟨_, rfl⟩ := by simpa using h
    have := (rest.dropWhile_sublist (· ≠ ']')).length_le
    simp only [heq, List.length_cons] at this
    omega

/-- The atoms of a pattern's text, given its place in the pattern and the character before it. -/
def readFrom (index : Nat) (before : Option Char) (text : List Char) :
    Except PatternError (List Atom) :=
  match text with
  | [] => .ok []
  | '?' :: rest => do return .anyChar :: (← readFrom (index + 1) (some '?') rest)
  | '*' :: '*' :: '*' :: _ => .error ⟨index + 2, .manyStars⟩
  | '*' :: '*' :: rest =>
    if before = none ∨ before = some '/' then
      match rest with
      | [] => .ok [.anyDirectories]
      | '/' :: more => do return .anyDirectories :: (← readFrom (index + 3) (some '/') more)
      | _ :: _ => .error ⟨index + 2, .starsInPart⟩
    else .error ⟨index - 1, .starsInPart⟩
  | '*' :: rest => do return .anyRun :: (← readFrom (index + 1) (some '*') rest)
  | '[' :: '!' :: first :: rest =>
    match _h : readClass? first rest with
    | none => .error ⟨index, .openClass⟩
    | some (found, behind) => do
      return .without found ::
        (← readFrom (index + text.length - behind.length) (some ']') behind)
  | '[' :: '!' :: [] => .error ⟨index, .openClass⟩
  | '[' :: first :: rest =>
    match _h : readClass? first rest with
    | none => .error ⟨index, .openClass⟩
    | some (found, behind) => do
      return .within found ::
        (← readFrom (index + text.length - behind.length) (some ']') behind)
  | '[' :: [] => .error ⟨index, .openClass⟩
  | c :: rest => do return .char c :: (← readFrom (index + 1) (some c) rest)
termination_by text.length
decreasing_by
  all_goals simp only [List.length_cons]
  all_goals first
    | omega
    | have := readClass?_length ‹_›
      omega

/-- The atoms of a pattern's text. -/
def read (text : List Char) : Except PatternError (List Atom) :=
  readFrom 0 none text

/-! ## Matching -/

/-- Whether an atom that stands for one character stands for this one. -/
def Atom.holds (c : Char) : Atom → Bool
  | .char d => c == d
  | .anyChar => true
  | .within members => members.any (Member.holds c)
  | .without members => !members.any (Member.holds c)
  | .anyRun => false
  | .anyDirectories => false

/-- Whether an atom stands for runs of characters. -/
def Atom.isRun : Atom → Bool
  | .anyRun | .anyDirectories => true
  | _ => false

/-- Whether atoms stand for a text. -/
def accepts : List Atom → List Char → Bool
  | [], text => text.isEmpty
  | atom :: atoms, [] => atom.isRun && accepts atoms []
  | atom :: atoms, c :: text =>
    if atom.isRun then accepts atoms (c :: text) || accepts (atom :: atoms) text
    else atom.holds c && accepts atoms text
termination_by atoms text => atoms.length + text.length

/-- Whether atoms stand for a name. A name that is no text is passed over. -/
def acceptsName (atoms : List Atom) (name : RawPath) : Bool :=
  (Utf8.text? name).any fun text => accepts atoms text.toList

/-! ## Parts -/

/-- A part of a pattern between slashes. -/
inductive Segment where
  /-- A name as it is written. -/
  | literal (name : String)
  /-- Any number of directories. -/
  | recursive
  /-- A name that the atoms stand for. -/
  | wild (atoms : List Atom)
  deriving DecidableEq, Repr, Inhabited

/-- The characters of atoms that all stand for themselves. -/
def literal? : List Atom → Option (List Char)
  | [] => some []
  | .char c :: atoms => (literal? atoms).map (c :: ·)
  | _ :: _ => none

namespace Segment

/-- The part that atoms make. -/
def ofAtoms (atoms : List Atom) : Segment :=
  if atoms = [.anyDirectories] then .recursive
  else
    match literal? atoms with
    | some text => .literal (String.ofList text)
    | none => .wild atoms

/-- Whether a part stands for a name. -/
def holds (segment : Segment) (name : RawPath) : Bool :=
  match segment with
  | .literal text => Utf8.encode text == name
  | .recursive => true
  | .wild atoms => acceptsName atoms name

end Segment

/-- Parts in which no two stand for any number of directories in a row: one says the same. -/
def mergeRecursive : List Segment → List Segment
  | .recursive :: .recursive :: rest => mergeRecursive (.recursive :: rest)
  | segment :: rest => segment :: mergeRecursive rest
  | [] => []

/-- A pattern for absolute paths, cut into its parts. -/
structure Glob where
  segments : List Segment
  /-- A slash at the end asks for directories. -/
  onlyDirectories : Bool
  deriving DecidableEq, Repr, Inhabited

/-- The texts between slashes, without the empty one behind a slash at the end. -/
def cutParts (text : List Char) : List (List Char) :=
  let parts := Text.cutAt '/' text
  if parts.getLast? = some [] then parts.dropLast else parts

/-- The pattern that the text of an absolute path means. -/
def compile (pattern : String) : Except PatternError Glob := do
  let text := pattern.toList
  let _ ← read text
  let parts ← (cutParts text.tail).mapM read
  return ⟨mergeRecursive (parts.map Segment.ofAtoms), text.getLast? == some '/'⟩

/-- The pattern that stands for a text and for nothing else. -/
def escape (text : String) : String :=
  String.ofList (text.toList.flatMap fun c => if c ∈ ['?', '*', '[', ']'] then ['[', c, ']'] else [c])

end TemplateLint.Pattern
