import Mathlib.Data.List.Basic
import Mathlib.Data.Option.Basic
import TemplateLint.CommandLine
import TemplateLint.Proofs.Text.Digits

/-!
# Command lines convey overrides

An argument that stands by itself gives one thing: a value for an option, the flag for syntax errors, or
a path. However such arguments are mixed, reading them is a fold over what is given so far, and the
fold keeps the lists apart: the values of one option are kept in their order and the others are not
touched. An option that may be given once never holds two values, so the fold cannot get past a second
one.

Values stand behind a sign, which is why they can be any text, even one that looks like an option.

What is read is a record of its own; the settings of a run are what it is converted to.
-/

namespace TemplateLint

namespace CommandLine

/-! ### What is given -/

namespace LintArgs

/-- What is given for an option, as it is written. -/
def values (given : LintArgs) : Field → List String
  | .languageVersion => given.languageVersion.toList.map fun version => toString version.toNat
  | .exclude => given.exclude
  | .extensions => given.extensions
  | .severity => given.severity.toList
  | .reporter => given.reporter.toList
  | .display => given.display.toList
  | .ruleset => given.ruleset.toList
  | .projectRoot => given.projectRoot.toList

theorem toList_injective {α : Type} : Function.Injective (Option.toList : Option α → List α) := by
  intro x y h
  cases x <;> cases y <;> simp_all

/-- What is given is what is given for the options, the paths and the flag. -/
theorem eq_of_values {a b : LintArgs} (hvalues : ∀ field, a.values field = b.values field)
    (hpaths : a.paths = b.paths) (hflag : a.throwSyntaxErrors = b.throwSyntaxErrors) : a = b := by
  have hversion : a.languageVersion = b.languageVersion := by
    have hinj : Function.Injective fun version : UInt8 => toString version.toNat :=
      fun v w h => UInt8.toNat_inj.1 (Text.toString_injective h)
    exact toList_injective (hinj.list_map (hvalues .languageVersion))
  obtain ⟨paths, version, exclude, extensions, severity, reporter, display, flag, ruleset, projectRoot⟩ := a
  obtain ⟨paths', version', exclude', extensions', severity', reporter', display', flag', ruleset',
    projectRoot'⟩ := b
  simp only [LintArgs.mk.injEq]
  exact ⟨hpaths, hversion, hvalues .exclude, hvalues .extensions, toList_injective (hvalues .severity),
    toList_injective (hvalues .reporter), toList_injective (hvalues .display), hflag,
    toList_injective (hvalues .ruleset), toList_injective (hvalues .projectRoot)⟩

end LintArgs

/-! ### Versions -/

theorem version?_of_digits {c : Char} {digits : List Char} {text : String}
    (htext : text.toList = c :: digits) (hc : c.isDigit = true) :
    version? text = (Text.number? 10 text.toList).bind fun n =>
      if n ≤ 255 then some n.toUInt8 else none := by
  have hplus : c ≠ '+' := by
    rintro rfl
    cases hc
  have hminus : c ≠ '-' := by
    rintro rfl
    cases hc
  simp only [version?, htext]
  split
  · next heq => exact absurd (List.cons.inj heq).1 hplus
  · next heq => exact absurd (List.cons.inj heq).1 hminus
  · rfl

theorem version?_toString (version : UInt8) : version? (toString version.toNat) = some version := by
  obtain ⟨c, digits, htext⟩ : ∃ c digits, (toString version.toNat).toList = c :: digits :=
    List.exists_cons_of_ne_nil (by simp)
  have hdigit : c.isDigit = true := Text.isDigit_of_mem_toString (by rw [htext]; exact List.mem_cons_self)
  have hsmall : version.toNat ≤ 255 := Nat.le_of_lt_succ version.toNat_lt
  rw [version?_of_digits htext hdigit, Text.number?_toString, Option.bind_some, if_pos hsmall]
  simp

/-! ### Options with values -/

namespace Field

/-- The long name of an option. -/
def name : Field → String
  | .languageVersion => "language-version"
  | .exclude => "exclude"
  | .extensions => "ext"
  | .severity => "severity"
  | .reporter => "reporter"
  | .display => "display"
  | .ruleset => "ruleset"
  | .projectRoot => "project-root"

/-- Whether an option may be given once only. -/
def isSingle : Field → Bool
  | .exclude | .extensions => false
  | _ => true

/-- What is kept of a value that is given for an option. -/
def kept (field : Field) (value : String) : Option String :=
  match field with
  | .languageVersion => (version? value).map fun version => toString version.toNat
  | _ => some value

theorem ofName?_name (field : Field) : LintOption.ofName? field.name = some (.valued field) := by
  cases field <;> rfl

theorem kept_of_mem_values {given : LintArgs} {field : Field} {value : String}
    (h : value ∈ given.values field) : field.kept value = some value := by
  cases field with
  | languageVersion =>
    obtain ⟨version, -, rfl⟩ := List.mem_map.1 h
    rw [kept, version?_toString, Option.map_some]
  | _ => rfl

theorem length_values_le {field : Field} (h : field.isSingle = true) (given : LintArgs) :
    (given.values field).length ≤ 1 := by
  cases field with
  | languageVersion =>
    rw [LintArgs.values, List.length_map]
    exact Option.length_toList_le
  | exclude => cases h
  | extensions => cases h
  | _ => exact Option.length_toList_le

section Assign

variable {given : LintArgs} {field : Field} {value : String}

/-- A value is kept behind the values that the option has, and nothing else is touched. -/
theorem assign_of_kept {text : String} (hkept : field.kept value = some text)
    (hfree : field.isSingle = true → given.values field = []) :
    ∃ given', field.assign given value = .ok given' ∧
      (∀ other, given'.values other = given.values other ++ if other = field then [text] else []) ∧
      given'.paths = given.paths ∧ given'.throwSyntaxErrors = given.throwSyntaxErrors := by
  cases field with
  | exclude =>
    cases hkept
    exact ⟨_, rfl, fun other => by cases other <;> simp [LintArgs.values], rfl, rfl⟩
  | extensions =>
    cases hkept
    exact ⟨_, rfl, fun other => by cases other <;> simp [LintArgs.values], rfl, rfl⟩
  | languageVersion =>
    obtain ⟨version, hversion, rfl⟩ := Option.map_eq_some_iff.1 hkept
    have hnone : given.languageVersion = none := by
      simpa [LintArgs.values] using hfree rfl
    simp only [assign, onceVersion, hnone, hversion]
    exact ⟨_, rfl, fun other => by cases other <;> simp [LintArgs.values, hnone], rfl, rfl⟩
  | _ =>
    cases hkept
    have hnone := hfree rfl
    simp only [LintArgs.values, Option.toList_eq_nil_iff] at hnone
    simp only [assign, once, hnone]
    exact ⟨_, rfl, fun other => by cases other <;> simp [LintArgs.values, hnone], rfl, rfl⟩

theorem assign_of_taken (hsingle : field.isSingle = true) (htaken : given.values field ≠ []) :
    field.assign given value = .error .repeatedOption := by
  cases field with
  | exclude => cases hsingle
  | extensions => cases hsingle
  | languageVersion =>
    rw [LintArgs.values, ne_eq, List.map_eq_nil_iff, Option.toList_eq_nil_iff, ← ne_eq,
      ← Option.isSome_iff_ne_none] at htaken
    simp only [assign, onceVersion, htaken]
    rfl
  | _ =>
    rw [LintArgs.values, ne_eq, Option.toList_eq_nil_iff, ← ne_eq, ← Option.isSome_iff_ne_none] at htaken
    simp only [assign, once, htaken]
    rfl

theorem assign_of_not_kept (hkept : field.kept value = none)
    (hfree : field.isSingle = true → given.values field = []) :
    field = .languageVersion ∧ field.assign given value = .error .invalidValue := by
  cases field with
  | languageVersion =>
    have hversion : version? value = none := Option.map_eq_none_iff.1 hkept
    have hnone : given.languageVersion = none := by
      simpa [LintArgs.values] using hfree rfl
    refine ⟨rfl, ?_⟩
    simp only [assign, onceVersion, hnone, hversion]
    rfl
  | _ => cases hkept

end Assign

end Field

/-! ### Arguments that stand by themselves -/

/-- An argument that stands by itself: an option with its value behind a sign, the flag for syntax errors
by its letter or its name, or a path that does not look like an option. -/
inductive Part where
  | valued (field : Field) (value : String)
  | flag (short : Bool)
  | path (text : String) (bare : text.toList.head? ≠ some '-')

namespace Part

/-- The argument. -/
def text : Part → String
  | .valued field value => "--" ++ field.name ++ "=" ++ value
  | .flag true => "-e"
  | .flag false => "--throw-syntax-error"
  | .path text _ => text

/-- The option that is given. -/
def option? : Part → Option LintOption
  | .valued field _ => some (.valued field)
  | .flag _ => some .throwSyntaxErrors
  | .path _ _ => none

/-- What is given behind what was given before. -/
def read (given : LintArgs) : Part → Except UsageError LintArgs
  | .valued field value => field.assign given value
  | .flag _ =>
    if given.throwSyntaxErrors then .error .repeatedOption
    else .ok { given with throwSyntaxErrors := true }
  | .path text _ => .ok { given with paths := given.paths ++ [text] }

theorem ofText_long {text : String} {c : Char} {rest : List Char}
    (h : text.toList = '-' :: '-' :: c :: rest) : Argument.ofText text = .ofLong (c :: rest) := by
  rw [Argument.ofText, h]
  rfl

theorem ofText_valued (field : Field) (value : String) :
    Argument.ofText (Part.valued field value).text = .long field.name (some value) := by
  obtain ⟨c, rest, hcons⟩ : ∃ c rest, field.name.toList ++ '=' :: value.toList = c :: rest :=
    List.exists_cons_of_ne_nil (by simp)
  have hlist : (Part.valued field value).text.toList = '-' :: '-' :: c :: rest := by
    rw [← hcons]
    simp [text]
  have hname : ∀ c ∈ field.name.toList, decide (c ≠ '=') = true := by
    rw [← List.all_eq_true]
    cases field <;> decide
  have htake : (c :: rest).takeWhile (· ≠ '=') = field.name.toList := by
    rw [← hcons, List.takeWhile_append_of_pos hname]
    simp
  have hdrop : (c :: rest).dropWhile (· ≠ '=') = '=' :: value.toList := by
    rw [← hcons, List.dropWhile_append_of_pos hname]
    simp
  rw [ofText_long hlist]
  simp only [Argument.ofLong, htake, hdrop, String.ofList_toList]

theorem ofText_path {text : String} (bare : text.toList.head? ≠ some '-') :
    Argument.ofText text = .word text := by
  rw [Argument.ofText]
  split
  · next heq => simp [heq] at bare
  · next heq => simp [heq] at bare
  · next heq => simp [heq] at bare
  · rfl

theorem valued_of_settled (given : LintArgs) (field : Field) (value : String) :
    Progress.valued ⟨given, none⟩ field (some value) =
      (field.assign given value).map fun given => Progress.mk given none := by
  show (field.assign given value).bind (fun given => .ok (Progress.mk given none)) = _
  cases field.assign given value <;> rfl

theorem switch_of_settled (given : LintArgs) (short : Bool) :
    Progress.switch ⟨given, none⟩ false =
      ((Part.flag short).read given).map fun given => Progress.mk given none := by
  show (if given.throwSyntaxErrors then Except.error UsageError.repeatedOption
    else Except.ok (Progress.mk { given with throwSyntaxErrors := true } none)) = _
  rw [Part.read]
  split <;> rfl

/-- One argument is read with nothing pending before it and behind it. -/
theorem readLint_cons (given : LintArgs) (part : Part) (rest : List String) :
    readLint ⟨given, none⟩ (part.text :: rest) =
      (part.read given).bind fun given => readLint ⟨given, none⟩ rest := by
  cases part with
  | valued field value =>
    have hlong : Progress.long ⟨given, none⟩ field.name (some value) =
        (field.assign given value).map fun given => Progress.mk given none := by
      rw [Progress.long, Field.ofName?_name]
      exact valued_of_settled given field value
    rw [readLint, ofText_valued]
    simp only [hlong, Part.read]
    cases field.assign given value <;> rfl
  | flag short =>
    have hswitch := switch_of_settled given short
    cases short with
    | true =>
      have hshort : Progress.short ⟨given, none⟩ ['e'] = Progress.switch ⟨given, none⟩ false := by
        show (Progress.switch ⟨given, none⟩ false).bind .ok = _
        cases Progress.switch ⟨given, none⟩ false <;> rfl
      rw [readLint]
      show (Progress.short ⟨given, none⟩ ['e']).bind (fun progress => readLint progress rest) = _
      rw [hshort, hswitch]
      cases (Part.flag true).read given <;> rfl
    | false =>
      rw [readLint]
      show (Progress.switch ⟨given, none⟩ false).bind (fun progress => readLint progress rest) = _
      rw [hswitch]
      cases (Part.flag false).read given <;> rfl
  | path text bare =>
    rw [readLint, Part.text, ofText_path bare]
    rfl

/-- The value that is given for an option. -/
def value? (field : Field) : Part → Option String
  | .valued other value => if other = field then some value else none
  | _ => none

/-- The path that is given. -/
def path? : Part → Option String
  | .path text _ => some text
  | _ => none

end Part

/-! ### What arguments give together -/

/-- The values that are given for an option, in their order. -/
def valuesOf (field : Field) (parts : List Part) : List String :=
  parts.filterMap (Part.value? field)

/-- The paths that are given, in their order. -/
def pathsOf (parts : List Part) : List String :=
  parts.filterMap Part.path?

/-- How often an option is given. -/
def timesGiven (option : LintOption) (parts : List Part) : Nat :=
  parts.countP fun part => part.option? = some option

/-- All that is given, before and by the arguments behind it. -/
structure Adds (given : LintArgs) (parts : List Part) (all : LintArgs) : Prop where
  values : ∀ field, (given.values field).map some ++ (valuesOf field parts).map field.kept =
    (all.values field).map some
  paths : given.paths ++ pathsOf parts = all.paths
  flag : given.throwSyntaxErrors.toNat + timesGiven .throwSyntaxErrors parts = all.throwSyntaxErrors.toNat

theorem valuesOf_cons_valued (field other : Field) (value : String) (parts : List Part) :
    valuesOf field (.valued other value :: parts) =
      (if field = other then [value] else []) ++ valuesOf field parts := by
  by_cases h : field = other
  · simp [valuesOf, Part.value?, h]
  · simp [valuesOf, Part.value?, h, Ne.symm h]

theorem adds_nil_iff {given all : LintArgs} : Adds given [] all ↔ given = all := by
  constructor
  · intro h
    refine LintArgs.eq_of_values (fun field => ?_) ?_ ?_
    · have hvalues := h.values field
      rw [valuesOf, List.filterMap_nil, List.map_nil, List.append_nil] at hvalues
      exact (Option.some_injective String).list_map hvalues
    · simpa [pathsOf] using h.paths
    · have hflag := h.flag
      revert hflag
      cases given.throwSyntaxErrors <;> cases all.throwSyntaxErrors <;> decide
  · rintro rfl
    exact ⟨fun field => by simp [valuesOf], by simp [pathsOf], rfl⟩

section Step

variable {given given' : LintArgs} {parts more : List Part} {all : LintArgs}

theorem adds_congr
    (hvalues : ∀ field, (given.values field).map some ++ (valuesOf field more).map field.kept =
      (given'.values field).map some ++ (valuesOf field parts).map field.kept)
    (hpaths : given.paths ++ pathsOf more = given'.paths ++ pathsOf parts)
    (hflag : given.throwSyntaxErrors.toNat + timesGiven .throwSyntaxErrors more =
      given'.throwSyntaxErrors.toNat + timesGiven .throwSyntaxErrors parts) :
    Adds given more all ↔ Adds given' parts all := by
  constructor
  · intro h
    exact ⟨fun field => (hvalues field).symm.trans (h.values field), hpaths.symm.trans h.paths,
      hflag.symm.trans h.flag⟩
  · intro h
    exact ⟨fun field => (hvalues field).trans (h.values field), hpaths.trans h.paths,
      hflag.trans h.flag⟩

theorem adds_cons_valued_iff {field : Field} {value text : String} (hkept : field.kept value = some text)
    (hvalues : ∀ other, given'.values other = given.values other ++ if other = field then [text] else [])
    (hpaths : given'.paths = given.paths) (hflag : given'.throwSyntaxErrors = given.throwSyntaxErrors) :
    Adds given (.valued field value :: parts) all ↔ Adds given' parts all := by
  refine adds_congr (fun other => ?_) ?_ ?_
  · rw [valuesOf_cons_valued, hvalues]
    by_cases h : other = field
    · simp [h, hkept]
    · simp [h]
  · rw [hpaths]
    rfl
  · rw [hflag]
    rfl

theorem adds_cons_flag_iff (short : Bool) (h : given.throwSyntaxErrors = false) :
    Adds given (.flag short :: parts) all ↔ Adds { given with throwSyntaxErrors := true } parts all := by
  refine adds_congr (fun field => ?_) rfl ?_
  · cases field <;> rfl
  · rw [h, timesGiven, List.countP_cons_of_pos rfl]
    simp only [timesGiven, Bool.toNat_false, Bool.toNat_true]
    omega

theorem adds_cons_path_iff {text : String} (bare : text.toList.head? ≠ some '-') :
    Adds given (.path text bare :: parts) all ↔ Adds { given with paths := given.paths ++ [text] } parts all := by
  refine adds_congr (fun field => ?_) ?_ rfl
  · cases field <;> rfl
  · exact List.append_cons _ _ _

end Step

theorem Adds.length_le {given all : LintArgs} {parts : List Part} (h : Adds given parts all) {field : Field}
    (hsingle : field.isSingle = true) :
    (given.values field).length + (valuesOf field parts).length ≤ 1 := by
  have hlength := congrArg List.length (h.values field)
  have hle := Field.length_values_le hsingle all
  simp only [List.length_append, List.length_map] at hlength
  omega

/-- What one argument can do. It gives something, and reading goes on behind it, or nothing can be made
of it, whatever comes next. -/
theorem read_cases (given : LintArgs) (part : Part) :
    (∃ given', part.read given = .ok given' ∧
      ∀ parts all, Adds given (part :: parts) all ↔ Adds given' parts all) ∨
    ∃ e, part.read given = .error e ∧ (∀ parts all, ¬ Adds given (part :: parts) all) ∧
      ((∀ value ∈ part.value? .languageVersion, version? value ≠ none) → e = .repeatedOption) := by
  cases part with
  | valued field value =>
    by_cases htaken : field.isSingle = true ∧ given.values field ≠ []
    · refine .inr ⟨_, Field.assign_of_taken htaken.1 htaken.2, fun parts all h => ?_, fun _ => rfl⟩
      have hle := h.length_le htaken.1
      have hpos := List.length_pos_iff.2 htaken.2
      rw [valuesOf_cons_valued, if_pos rfl, List.length_append, List.length_singleton] at hle
      omega
    · have hfree : field.isSingle = true → given.values field = [] := fun hsingle =>
        by_contra fun hne => htaken ⟨hsingle, hne⟩
      cases hkept : field.kept value with
      | some text =>
        obtain ⟨given', hread, hvalues, hpaths, hflag⟩ := Field.assign_of_kept hkept hfree
        exact .inl ⟨given', hread, fun parts all => adds_cons_valued_iff hkept hvalues hpaths hflag⟩
      | none =>
        obtain ⟨rfl, hread⟩ := Field.assign_of_not_kept hkept hfree
        refine .inr ⟨_, hread, fun parts all h => ?_, fun hversions => ?_⟩
        · have hvalues := h.values .languageVersion
          rw [valuesOf_cons_valued, if_pos rfl, List.singleton_append, List.map_cons, hkept] at hvalues
          have hmem : none ∈ (all.values .languageVersion).map some := by simp [← hvalues]
          simp at hmem
        · exact absurd (Option.map_eq_none_iff.1 hkept) (hversions value rfl)
  | flag short =>
    cases hflag : given.throwSyntaxErrors with
    | false =>
      refine .inl ⟨{ given with throwSyntaxErrors := true }, ?_, fun _ _ => adds_cons_flag_iff short hflag⟩
      rw [Part.read, hflag]
      rfl
    | true =>
      refine .inr ⟨.repeatedOption, ?_, fun parts all h => ?_, fun _ => rfl⟩
      · rw [Part.read, hflag]
        rfl
      · have htimes := h.flag
        have hle := Bool.toNat_le all.throwSyntaxErrors
        rw [hflag, timesGiven, List.countP_cons_of_pos rfl] at htimes
        simp only [Bool.toNat_true] at htimes
        omega
  | path text bare =>
    exact .inl ⟨_, rfl, fun _ _ => adds_cons_path_iff bare⟩

theorem foldlM_read_eq_ok_iff {parts : List Part} {given all : LintArgs} :
    parts.foldlM Part.read given = .ok all ↔ Adds given parts all := by
  induction parts generalizing given with
  | nil =>
    rw [adds_nil_iff, List.foldlM_nil]
    exact Except.ok.injEq given all ▸ Iff.rfl
  | cons part parts ih =>
    rw [List.foldlM_cons]
    rcases read_cases given part with ⟨given', hread, hadds⟩ | ⟨e, hread, hadds, -⟩
    · rw [hread, hadds, ← ih]
      rfl
    · rw [hread]
      exact iff_of_false nofun (hadds parts all)

theorem error_of_foldlM_read {parts : List Part} {given : LintArgs} {e : UsageError}
    (h : parts.foldlM Part.read given = .error e)
    (hversions : ∀ value ∈ valuesOf .languageVersion parts, version? value ≠ none) :
    e = .repeatedOption := by
  induction parts generalizing given with
  | nil => cases h
  | cons part parts ih =>
    rw [List.foldlM_cons] at h
    have hpart : ∀ value ∈ part.value? .languageVersion, version? value ≠ none := fun value hvalue =>
      hversions value (List.mem_filterMap.2 ⟨part, List.mem_cons_self, hvalue⟩)
    have hmore : ∀ value ∈ valuesOf .languageVersion parts, version? value ≠ none := by
      intro value hvalue
      obtain ⟨other, hmem, hother⟩ := List.mem_filterMap.1 hvalue
      exact hversions value (List.mem_filterMap.2 ⟨other, List.mem_cons_of_mem part hmem, hother⟩)
    rcases read_cases given part with ⟨given', hread, -⟩ | ⟨e', hread, -, he⟩
    · rw [hread] at h
      exact ih h hmore
    · rw [hread] at h
      cases h
      exact he hpart

/-! ### Command lines -/

/-- The command line of a lint run, from behind the name of the program: arguments that stand by
themselves, and perhaps paths behind a separator. -/
def arguments (parts : List Part) (behind : Option (List String)) : List String :=
  "lint" :: (parts.map Part.text ++ (behind.map ("--" :: ·)).getD [])

/-- Overrides as options and paths give them. -/
def LintArgs.ofOverrides (o : Overrides) : LintArgs where
  paths := o.paths
  languageVersion := o.languageVersion
  exclude := o.exclude
  extensions := o.extensions
  severity := o.severity
  reporter := o.reporter
  display := o.display
  throwSyntaxErrors := o.throwSyntaxErrors
  ruleset := o.ruleset
  projectRoot := o.projectRoot

theorem LintArgs.toOverrides_ofOverrides (o : Overrides) : (ofOverrides o).toOverrides = o := rfl

/-- What overrides hold for an option, as it is written. -/
def overridden (o : Overrides) : Field → List String
  | .languageVersion => o.languageVersion.toList.map fun version => toString version.toNat
  | .exclude => o.exclude
  | .extensions => o.extensions
  | .severity => o.severity.toList
  | .reporter => o.reporter.toList
  | .display => o.display.toList
  | .ruleset => o.ruleset.toList
  | .projectRoot => o.projectRoot.toList

theorem LintArgs.values_ofOverrides (o : Overrides) (field : Field) :
    (ofOverrides o).values field = overridden o field := by
  cases field <;> rfl

/-- Overrides that are all that arguments and the paths behind them give: the values of each option in
their order, the paths in theirs, and the flag if it is there. -/
structure Conveys (parts : List Part) (behind : List String) (o : Overrides) : Prop where
  values : ∀ field, valuesOf field parts = overridden o field
  paths : pathsOf parts ++ behind = o.paths
  flag : timesGiven .throwSyntaxErrors parts = o.throwSyntaxErrors.toNat

/-- Whether an option may be given once only. -/
def LintOption.isSingle : LintOption → Bool
  | .valued field => field.isSingle
  | _ => true

theorem readLint_parts (parts : List Part) (behind : Option (List String)) (given : LintArgs) :
    readLint ⟨given, none⟩ (parts.map Part.text ++ (behind.map ("--" :: ·)).getD []) =
      (parts.foldlM Part.read given).map fun all => { all with paths := all.paths ++ behind.getD [] } := by
  induction parts generalizing given with
  | nil =>
    cases behind with
    | none => simp [readLint, Progress.settle, pure, Except.pure, Except.map]
    | some rest => rfl
  | cons part parts ih =>
    rw [List.map_cons, List.cons_append, Part.readLint_cons, List.foldlM_cons]
    cases part.read given with
    | error e => rfl
    | ok given' => exact ih given'

theorem read_arguments (parts : List Part) (behind : Option (List String)) :
    read (arguments parts behind) = (parts.foldlM Part.read {}).map fun all =>
      .lint { all with paths := all.paths ++ behind.getD [] } := by
  rw [arguments, read, readLint_parts]
  cases parts.foldlM Part.read {} <;> rfl

theorem Conveys.adds {parts : List Part} {behind : List String} {o : Overrides}
    (h : Conveys parts behind o) : Adds {} parts { LintArgs.ofOverrides o with paths := pathsOf parts } where
  values field := by
    have hnone : LintArgs.values {} field = [] := by cases field <;> rfl
    have hsame : LintArgs.values { LintArgs.ofOverrides o with paths := pathsOf parts } field =
        overridden o field := by
      cases field <;> rfl
    have hkept : ∀ value ∈ overridden o field, field.kept value = some value := by
      rw [← LintArgs.values_ofOverrides]
      exact fun value hvalue => Field.kept_of_mem_values hvalue
    rw [hnone, hsame, h.values field, List.map_nil, List.nil_append]
    exact List.map_congr_left hkept
  paths := rfl
  flag := by
    show 0 + _ = _
    rw [Nat.zero_add, h.flag]
    rfl

theorem length_valuesOf (field : Field) (parts : List Part) :
    (valuesOf field parts).length = timesGiven (.valued field) parts := by
  have hgives : ∀ part : Part, (part.value? field).isSome = decide (part.option? = some (.valued field)) := by
    intro part
    cases part with
    | valued other value => by_cases h : other = field <;> simp [Part.value?, Part.option?, h]
    | flag short => rfl
    | path text bare => rfl
  rw [valuesOf, List.length_filterMap_eq_countP, timesGiven]
  exact congrArg (parts.countP ·) (funext hgives)

theorem timesGiven_le {option : LintOption} (hsingle : option.isSingle = true) {parts : List Part}
    {all : LintArgs} (h : Adds {} parts all) : timesGiven option parts ≤ 1 := by
  cases option with
  | valued field =>
    have hle := h.length_le hsingle
    rw [← length_valuesOf]
    omega
  | throwSyntaxErrors =>
    have htimes := h.flag
    have hle := Bool.toNat_le all.throwSyntaxErrors
    omega
  | help =>
    have hnone : ∀ part : Part, part.option? ≠ some .help := by
      intro part
      cases part <;> simp [Part.option?]
    simp [timesGiven, hnone]

/-! ### Overrides as arguments -/

/-- The options that take a value. -/
def fields : List Field :=
  [.languageVersion, .exclude, .extensions, .severity, .reporter, .display, .ruleset, .projectRoot]

/-- Arguments that give what overrides hold, but for the paths. -/
def partsOf (o : Overrides) : List Part :=
  fields.flatMap (fun field => (overridden o field).map (Part.valued field)) ++
    if o.throwSyntaxErrors then [.flag false] else []

@[simp]
theorem valuesOf_nil (field : Field) : valuesOf field [] = [] := rfl

@[simp]
theorem valuesOf_append (field : Field) (a b : List Part) :
    valuesOf field (a ++ b) = valuesOf field a ++ valuesOf field b :=
  List.filterMap_append

@[simp]
theorem valuesOf_map_valued (field other : Field) (values : List String) :
    valuesOf field (values.map (Part.valued other)) = if field = other then values else [] := by
  induction values with
  | nil => simp [valuesOf]
  | cons value values ih =>
    rw [List.map_cons, valuesOf_cons_valued, ih]
    split <;> simp

theorem conveys_partsOf (o : Overrides) : Conveys (partsOf o) o.paths o where
  values field := by
    have hflag : valuesOf field (if o.throwSyntaxErrors then [.flag false] else []) = [] := by
      split <;> rfl
    rw [partsOf, valuesOf_append, hflag, List.append_nil, fields]
    cases field <;> simp [List.flatMap_cons]
  paths := by
    have hnone : pathsOf (partsOf o) = [] := by
      rw [pathsOf, List.filterMap_eq_nil_iff]
      intro part hpart
      rcases List.mem_append.1 hpart with hvalued | hflag
      · obtain ⟨field, -, hmem⟩ := List.mem_flatMap.1 hvalued
        obtain ⟨value, -, rfl⟩ := List.mem_map.1 hmem
        rfl
      · split at hflag
        · rw [List.mem_singleton.1 hflag]
          rfl
        · cases hflag
    rw [hnone, List.nil_append]
  flag := by
    have hnone : timesGiven .throwSyntaxErrors
        (fields.flatMap fun field => (overridden o field).map (Part.valued field)) = 0 := by
      rw [timesGiven, List.countP_eq_zero]
      intro part hpart
      obtain ⟨field, -, hmem⟩ := List.mem_flatMap.1 hpart
      obtain ⟨value, -, rfl⟩ := List.mem_map.1 hmem
      simp [Part.option?]
    rw [timesGiven] at hnone ⊢
    rw [partsOf, List.countP_append, hnone, Nat.zero_add]
    cases o.throwSyntaxErrors <;> rfl

/-- **What is given is what is read.** Any overrides can be given by arguments that stand by themselves,
with the paths behind a separator. However such arguments are mixed, they can be read, and what is read
is converted to the overrides that they give together, whatever the values are. An option that may be
given once, or the flag, is never given a second time: such a command line is an error, and the reason is
the repetition unless the text for a version is no version. -/
theorem read_conveys_overrides :
    (∀ o : Overrides, ∃ parts behind, Conveys parts behind o) ∧
    ∀ (parts : List Part) (behind : Option (List String)),
      (∀ o, Conveys parts (behind.getD []) o →
        ∃ given, read (arguments parts behind) = .ok (.lint given) ∧ given.toOverrides = o) ∧
      ∀ option : LintOption, option.isSingle = true → 2 ≤ timesGiven option parts →
        ∃ e, read (arguments parts behind) = .error e ∧
          ((∀ value ∈ valuesOf .languageVersion parts, version? value ≠ none) →
            e = .repeatedOption) := by
  refine ⟨fun o => ⟨_, _, conveys_partsOf o⟩, fun parts behind => ⟨?_, ?_⟩⟩
  · intro o h
    refine ⟨LintArgs.ofOverrides o, ?_, LintArgs.toOverrides_ofOverrides o⟩
    rw [read_arguments, foldlM_read_eq_ok_iff.2 h.adds]
    show Except.ok (Command.lint { LintArgs.ofOverrides o with paths := pathsOf parts ++ behind.getD [] }) = _
    rw [h.paths]
    rfl
  · intro option hsingle htwice
    cases hread : parts.foldlM Part.read {} with
    | ok all =>
      have hle := timesGiven_le hsingle (foldlM_read_eq_ok_iff.1 hread)
      omega
    | error e =>
      refine ⟨e, ?_, error_of_foldlM_read hread⟩
      rw [read_arguments, hread]
      rfl

/-- Values that look like options, that are empty or have a sign in them, between paths, and a path that
looks like an option behind the separator. -/
theorem read_conveys_overrides_mixed :
    let o : Overrides :=
      { paths := ["a b", "lint", "--", "-t"]
        exclude := ["-e"]
        extensions := ["", "="]
        severity := some "--exclude=x"
        languageVersion := some 255
        throwSyntaxErrors := true }
    (∃ given, read ["lint", "--ext=", "a b", "--severity=--exclude=x", "-e", "--exclude=-e", "lint",
        "--language-version=255", "--ext==", "--", "--", "-t"] = .ok (.lint given) ∧
      given.toOverrides = o) ∧
      read ["lint", "-e", "--display=all", "--throw-syntax-error"] = .error .repeatedOption := by
  intro o
  constructor
  · refine (read_conveys_overrides.2
      [.valued .extensions "", .path "a b" (by decide), .valued .severity "--exclude=x", .flag true,
        .valued .exclude "-e", .path "lint" (by decide), .valued .languageVersion "255",
        .valued .extensions "="] (some ["--", "-t"])).1 o ⟨fun field => ?_, rfl, rfl⟩
    cases field <;> decide
  · obtain ⟨e, hread, he⟩ := (read_conveys_overrides.2
      [.flag true, .valued .display "all", .flag false] none).2 .throwSyntaxErrors rfl (by decide)
    rw [he (by decide)] at hread
    exact hread

end CommandLine

end TemplateLint
