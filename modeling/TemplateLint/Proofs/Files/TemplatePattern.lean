import Mathlib.Data.List.Basic
import TemplateLint.Files.Discovery
import TemplateLint.Proofs.Text.Lines
import TemplateLint.Proofs.Text.Utf8

/-!
# The pattern of a search

The pattern for the templates below a directory is the escaped path of the directory, `**`, and a last
part with the extension. The escaped path is read as classes of one character and plain characters, so
each of its parts stands for one name, and there is no mistake in it. What can be wrong with the pattern
is wrong with the extension: `toOption_compile` takes the two apart.

The reader counts characters to say where a mistake is. Neither the atoms nor the mistakes themselves
depend on the count, so what is read is given as an option here.
-/

namespace TemplateLint

namespace Path

theorem lossy_append_slash (a b : RawPath) :
    Utf8.lossy (a ++ slash :: b) = Utf8.lossy a ++ ("/" ++ Utf8.lossy b) :=
  Utf8.lossy_append_ascii (d := '/') (by decide) a b

theorem lossy_slash_cons (path : RawPath) :
    (Utf8.lossy (slash :: path)).toList = '/' :: (Utf8.lossy path).toList := by
  have hsplit := lossy_append_slash [] path
  rw [List.nil_append] at hsplit
  rw [hsplit, Utf8.lossy_nil, String.toList_append, String.toList_append]
  rfl

/-- A path that is read as a text is read name by name. -/
theorem lossy_joinWith (names : List RawPath) :
    Utf8.lossy (Text.joinWith slash names) = "/".intercalate (names.map Utf8.lossy) := by
  induction names with
  | nil =>
    rw [Text.joinWith, Utf8.lossy_nil]
    rfl
  | cons name names ih =>
    cases names with
    | nil =>
      rw [Text.joinWith, List.map_singleton]
      simp
    | cons next names =>
      have hjoin : Text.joinWith slash (name :: next :: names) =
          name ++ slash :: Text.joinWith slash (next :: names) := rfl
      rw [hjoin, lossy_append_slash, ih]
      simp only [List.map_cons, String.intercalate_cons_cons, String.append_assoc]

end Path

namespace Pattern

/-! ### Reading -/

theorem toOption_cons (result : Except PatternError (List Atom)) (atom : Atom) :
    (do return atom :: (← result)).toOption = result.toOption.map (atom :: ·) := by
  cases result <;> rfl

theorem toOption_readFrom_congr (index other : Nat) (before : Option Char) (text : List Char) :
    (readFrom index before text).toOption = (readFrom other before text).toOption := by
  fun_induction readFrom index before text generalizing other with
  | case1 => rw [readFrom]
  | case2 index before rest ih => rw [readFrom, toOption_cons, toOption_cons, ih]
  | case3 => rw [readFrom]; rfl
  | case4 index before hbefore => rw [readFrom, if_pos hbefore]
  | case5 index before hbefore more _ ih =>
    rw [readFrom, if_pos hbefore, toOption_cons, toOption_cons, ih]
  | case6 index before hbefore head tail hslash hstar =>
    rw [readFrom.eq_6 _ _ _ _ hslash hstar, if_pos hbefore]
    rfl
  | case7 index before rest hstar hbefore =>
    conv_rhs => unfold readFrom
    split <;> grind [Except.toOption]
  | case8 index before rest hstars hstar ih =>
    rw [readFrom.eq_7 _ _ _ hstars hstar, toOption_cons, toOption_cons, ih]
  | case9 index before first rest hclass =>
    rw [readFrom.eq_8]
    split
    · rfl
    · next hsome => cases hclass.symm.trans hsome
  | case10 index before first rest found behind hclass ih =>
    rw [readFrom.eq_8]
    split
    · next hnone => cases hclass.symm.trans hnone
    · next hsome =>
      cases hclass.symm.trans hsome
      rw [toOption_cons, toOption_cons, ih]
  | case11 => rw [readFrom]; rfl
  | case12 index before first rest hmore hend hclass =>
    rw [readFrom.eq_10 _ _ _ _ hmore hend]
    split
    · rfl
    · next hsome => cases hclass.symm.trans hsome
  | case13 index before first rest hmore hend found behind hclass ih =>
    rw [readFrom.eq_10 _ _ _ _ hmore hend]
    split
    · next hnone => cases hclass.symm.trans hnone
    · next hsome =>
      cases hclass.symm.trans hsome
      rw [toOption_cons, toOption_cons, ih]
  | case14 => rw [readFrom]; rfl
  | case15 index before c rest h1 h2 h3 h4 h5 h6 h7 h8 ih =>
    rw [readFrom.eq_12 _ _ _ _ h1 h2 h3 h4 h5 h6 h7 h8, toOption_cons, toOption_cons, ih]

/-- The atoms of a text behind a character, if there is no mistake in it. -/
def atoms? (before : Option Char) (text : List Char) : Option (List Atom) :=
  (readFrom 0 before text).toOption

theorem toOption_readFrom (index : Nat) (before : Option Char) (text : List Char) :
    (readFrom index before text).toOption = atoms? before text :=
  toOption_readFrom_congr index 0 before text

theorem atoms?_nil (before : Option Char) : atoms? before [] = some [] := by
  rw [atoms?, readFrom]
  rfl

/-- Any character but these three stands for itself. -/
theorem atoms?_cons {c : Char} (h : c ∉ ['?', '*', '[']) (before : Option Char) (rest : List Char) :
    atoms? before (c :: rest) = (atoms? (some c) rest).map (.char c :: ·) := by
  simp only [List.mem_cons, List.not_mem_nil, or_false, not_or] at h
  rw [atoms?, readFrom.eq_12 _ _ _ _ (by simp [h]) (by simp [h]) (by simp [h]) (by simp [h])
    (by simp [h]) (by simp [h]) (by simp [h]) (by simp [h]), toOption_cons, toOption_readFrom]

theorem atoms?_class {c : Char} (h : c ≠ '!') (before : Option Char) (rest : List Char) :
    atoms? before ('[' :: c :: ']' :: rest) =
      (atoms? (some ']') rest).map (.within [.single c] :: ·) := by
  have hclass : readClass? c (']' :: rest) = some ([.single c], rest) := by
    simp [readClass?, members]
  rw [atoms?, readFrom.eq_10 _ _ _ _ (by simp [h]) (by simp [h])]
  split
  · next hnone => cases hclass.symm.trans hnone
  · next hsome =>
    cases hclass.symm.trans hsome
    rw [toOption_cons, toOption_readFrom]

theorem atoms?_directories {before : Option Char} (h : before = none ∨ before = some '/')
    (rest : List Char) :
    atoms? before ('*' :: '*' :: '/' :: rest) =
      (atoms? (some '/') rest).map (.anyDirectories :: ·) := by
  rw [atoms?, readFrom, if_pos h, toOption_cons, toOption_readFrom]

theorem atoms?_run {c : Char} (h : c ∉ ['?', '*', '[']) (before : Option Char) (rest : List Char) :
    atoms? before ('*' :: c :: rest) = (atoms? (some c) rest).map (.anyRun :: .char c :: ·) := by
  have hc : c ≠ '*' := by simp at h; exact h.2.1
  rw [atoms?, readFrom.eq_7 _ _ _ (by simp [hc]) (by simp [hc]), toOption_cons, toOption_readFrom,
    atoms?_cons h, Option.map_map]
  rfl

theorem atoms?_plain {text : List Char} (h : ∀ c ∈ text, c ∉ ['?', '*', '[']) (before : Option Char) :
    atoms? before text = some (text.map .char) := by
  induction text generalizing before with
  | nil => exact atoms?_nil before
  | cons c text ih =>
    rw [atoms?_cons (h c List.mem_cons_self), ih fun d hd => h d (List.mem_cons_of_mem c hd)]
    rfl

/-! ### Escaped texts -/

/-- A text in which each character stands for itself only. -/
def escapeChars (text : List Char) : List Char :=
  text.flatMap fun c => if c ∈ ['?', '*', '[', ']'] then ['[', c, ']'] else [c]

theorem toList_escape (text : String) : (escape text).toList = escapeChars text.toList :=
  String.toList_ofList

/-- What an escaped character is read as. -/
def quote (c : Char) : Atom :=
  if c ∈ ['?', '*', '[', ']'] then .within [.single c] else .char c

theorem escapeChars_cons (c : Char) (text : List Char) :
    escapeChars (c :: text) =
      (if c ∈ ['?', '*', '[', ']'] then ['[', c, ']'] else [c]) ++ escapeChars text :=
  List.flatMap_cons

theorem escapeChars_append (a b : List Char) :
    escapeChars (a ++ b) = escapeChars a ++ escapeChars b :=
  List.flatMap_append

/-- An escaped text is read whatever stands behind it. -/
theorem atoms?_escape (text rest : List Char) (before : Option Char) :
    ∃ last, atoms? before (escapeChars text ++ rest) =
      (atoms? last rest).map (text.map quote ++ ·) := by
  induction text generalizing before with
  | nil => exact ⟨before, by simp [escapeChars]⟩
  | cons c text ih =>
    rw [escapeChars_cons, List.map_cons, quote]
    split
    · next hwild =>
      have hc : c ≠ '!' := by
        rintro rfl
        exact absurd hwild (by decide)
      obtain ⟨last, hlast⟩ := ih (some ']')
      refine ⟨last, ?_⟩
      simp only [List.cons_append, List.nil_append, atoms?_class hc, hlast, Option.map_map]
      rfl
    · next hwild =>
      obtain ⟨last, hlast⟩ := ih (some c)
      refine ⟨last, ?_⟩
      rw [List.singleton_append, List.cons_append, atoms?_cons (by simp_all), hlast, Option.map_map]
      rfl

theorem atoms?_escape_end (text : List Char) (before : Option Char) :
    atoms? before (escapeChars text) = some (text.map quote) := by
  obtain ⟨last, hlast⟩ := atoms?_escape text [] before
  rwa [List.append_nil, atoms?_nil, Option.map_some, List.append_nil] at hlast

theorem slash_mem_escapeChars {text : List Char} : '/' ∈ escapeChars text ↔ '/' ∈ text := by
  rw [escapeChars, List.mem_flatMap]
  constructor
  · rintro ⟨c, hc, hslash⟩
    split at hslash
    · next hwild =>
      simp only [List.mem_cons, List.not_mem_nil, or_false] at hslash
      rcases hslash with hslash | rfl | hslash
      · exact absurd hslash (by decide)
      · exact hc
      · exact absurd hslash (by decide)
    · rwa [List.mem_singleton.1 hslash]
  · intro hmem
    exact ⟨'/', hmem, by simp⟩

theorem cutAt_escapeChars (text : List Char) :
    Text.cutAt '/' (escapeChars text) = (Text.cutAt '/' text).map escapeChars := by
  induction text using Text.cut_induction '/' with
  | last line hline =>
    rw [Text.cutAt_of_not_mem hline, Text.cutAt_of_not_mem (mt slash_mem_escapeChars.1 hline)]
    rfl
  | more line rest hline ih =>
    have hslash : escapeChars ('/' :: rest) = '/' :: escapeChars rest := rfl
    rw [escapeChars_append, hslash, Text.cutAt_append (mt slash_mem_escapeChars.1 hline), ih,
      Text.cutAt_append hline]
    rfl

/-! ### Parts -/

theorem toOption_mapM {α β : Type} (f : α → Except PatternError β) (list : List α) :
    (list.mapM f).toOption = list.mapM fun a => (f a).toOption := by
  induction list with
  | nil => rfl
  | cons a list ih =>
    rw [List.mapM_cons, List.mapM_cons, ← ih]
    cases f a with
    | error e => rfl
    | ok b => cases list.mapM f <;> rfl

theorem toOption_compile (pattern : String) :
    (compile pattern).toOption = (atoms? none pattern.toList).bind fun _ =>
      ((cutParts pattern.toList.tail).mapM (atoms? none)).map fun parts =>
        ⟨mergeRecursive (parts.map Segment.ofAtoms), pattern.toList.getLast? == some '/'⟩ := by
  have hparts := toOption_mapM read (cutParts pattern.toList.tail)
  rw [show (fun text => (read text).toOption) = atoms? none from rfl] at hparts
  rw [← hparts, compile, atoms?, ← read]
  cases read pattern.toList with
  | error e => rfl
  | ok atoms =>
    show (do
      let parts ← (cutParts pattern.toList.tail).mapM read
      return (⟨_, _⟩ : Glob)).toOption = _
    cases (cutParts pattern.toList.tail).mapM read <;> rfl

theorem cutParts_append (front behind : List Char) :
    cutParts (front ++ '/' :: behind) = Text.cutAt '/' front ++ cutParts behind := by
  have hne := Text.cutAt_ne_nil '/' behind
  simp only [cutParts, Text.cutAt_append_cut, List.getLast?_append_of_ne_nil _ hne,
    List.dropLast_append_of_ne_nil hne]
  split <;> rfl

/-- The part of a pattern that stands for a name. -/
def nameSegment (name : List Char) : Segment :=
  .ofAtoms (name.map quote)

theorem mapM_escaped (names : List (List Char)) :
    (names.map escapeChars).mapM (atoms? none) = some (names.map (List.map quote)) := by
  induction names with
  | nil => rfl
  | cons name names ih =>
    rw [List.map_cons, List.mapM_cons, ih, atoms?_escape_end]
    rfl

end Pattern

namespace Discovery

open Pattern

/-- An extension without the points at its front. -/
def bareExtension (ext : String) : List Char :=
  ext.toList.dropWhile (· == '.')

theorem toList_templatePattern (root : RawPath) (ext : String) :
    (templatePattern root ext).toList =
      escapeChars (Utf8.lossy root).toList ++ '/' :: '*' :: '*' :: '/' :: '*' :: '.' :: bareExtension ext := by
  simp [templatePattern, toList_escape, bareExtension]

/-- The parts of the pattern behind the one that stands for any directories. -/
def lastSegments? (ext : List Char) : Option (List Segment) :=
  (atoms? (some '.') ext).bind fun _ =>
    ((cutParts ('*' :: '.' :: ext)).mapM (atoms? none)).map (List.map Segment.ofAtoms)

theorem atoms?_templatePattern (root : RawPath) (ext : String) :
    ∃ front, atoms? none (templatePattern root ext).toList =
      (atoms? (some '.') (bareExtension ext)).map (front ++ ·) := by
  obtain ⟨last, hlast⟩ := atoms?_escape (Utf8.lossy root).toList
    ('/' :: '*' :: '*' :: '/' :: '*' :: '.' :: bareExtension ext) none
  refine ⟨(Utf8.lossy root).toList.map quote ++ [.char '/', .anyDirectories, .anyRun, .char '.'], ?_⟩
  rw [toList_templatePattern, hlast, atoms?_cons (by decide), atoms?_directories (.inr rfl),
    atoms?_run (by decide), Option.map_map, Option.map_map, Option.map_map]
  congr 1
  funext atoms
  simp

theorem mapM_lastParts (ext : List Char) :
    (cutParts ('*' :: '*' :: '/' :: '*' :: '.' :: ext)).mapM (atoms? none) =
      ((cutParts ('*' :: '.' :: ext)).mapM (atoms? none)).map ([.anyDirectories] :: ·) := by
  have hstars : atoms? none ['*', '*'] = some [.anyDirectories] := by
    rw [atoms?, readFrom, if_pos (.inl rfl)]
    rfl
  rw [show '*' :: '*' :: '/' :: '*' :: '.' :: ext = ['*', '*'] ++ '/' :: '*' :: '.' :: ext from rfl,
    cutParts_append, Text.cutAt_of_not_mem (by decide), List.singleton_append, List.mapM_cons, hstars]
  cases (cutParts ('*' :: '.' :: ext)).mapM (atoms? none) <;> rfl

/-- The pattern has a mistake just if its extension has one, and then the parts of the directory stand
for its names. -/
theorem toOption_templatePattern {root : RawPath} {text : List Char}
    (hroot : (Utf8.lossy root).toList = '/' :: text) (ext : String) :
    (compile (templatePattern root ext)).toOption =
      (lastSegments? (bareExtension ext)).map fun last =>
        ⟨mergeRecursive ((Text.cutAt '/' text).map nameSegment ++ .recursive :: last),
          ('.' :: bareExtension ext).getLast? == some '/'⟩ := by
  obtain ⟨front, hfront⟩ := atoms?_templatePattern root ext
  have htail : (templatePattern root ext).toList.tail =
      escapeChars text ++ '/' :: '*' :: '*' :: '/' :: '*' :: '.' :: bareExtension ext := by
    rw [toList_templatePattern, hroot]
    rfl
  have hlast : (templatePattern root ext).toList.getLast? = ('.' :: bareExtension ext).getLast? := by
    rw [toList_templatePattern]
    simp [List.getLast?_append, List.getLast?_cons]
  rw [toOption_compile, hfront, htail, hlast, cutParts_append, cutAt_escapeChars, List.mapM_append,
    mapM_escaped, mapM_lastParts, lastSegments?]
  cases atoms? (some '.') (bareExtension ext) with
  | none => rfl
  | some atoms =>
    cases (cutParts ('*' :: '.' :: bareExtension ext)).mapM (atoms? none) with
    | none => rfl
    | some parts =>
      simp [Segment.ofAtoms]
      rfl

/-- An extension with which a pattern can be made. -/
def IsPattern (ext : String) : Prop :=
  ∃ glob, compile (templatePattern [] ext) = .ok glob

theorem isPattern_iff (ext : String) : IsPattern ext ↔ (lastSegments? (bareExtension ext)).isSome := by
  obtain ⟨front, hfront⟩ := atoms?_templatePattern [] ext
  have htail : (templatePattern [] ext).toList.tail =
      '*' :: '*' :: '/' :: '*' :: '.' :: bareExtension ext := by
    rw [toList_templatePattern, Utf8.lossy_nil]
    rfl
  have hoption := toOption_compile (templatePattern [] ext)
  rw [hfront, htail, mapM_lastParts] at hoption
  have hsome : IsPattern ext ↔ (compile (templatePattern [] ext)).toOption.isSome := by
    unfold IsPattern
    cases compile (templatePattern [] ext) <;> simp [Except.toOption]
  rw [hsome, hoption, lastSegments?]
  cases atoms? (some '.') (bareExtension ext) <;> simp

theorem exists_compile_of_isPattern {root : RawPath} (hroot : Path.isAbsolute root = true)
    {ext : String} (h : IsPattern ext) : ∃ glob, compile (templatePattern root ext) = .ok glob := by
  obtain ⟨last, hlast⟩ := Option.isSome_iff_exists.1 ((isPattern_iff ext).1 h)
  obtain ⟨rest, rfl⟩ : ∃ rest, root = Path.slash :: rest := by
    rw [Path.isAbsolute, beq_iff_eq] at hroot
    exact List.head?_eq_some_iff.1 hroot
  have hoption := toOption_templatePattern (Path.lossy_slash_cons rest) ext
  rw [hlast] at hoption
  cases hcompile : compile (templatePattern (Path.slash :: rest) ext) with
  | ok glob => exact ⟨glob, rfl⟩
  | error e => simp [hcompile, Except.toOption] at hoption

end Discovery

end TemplateLint
