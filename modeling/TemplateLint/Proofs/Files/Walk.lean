import TemplateLint.Proofs.Files.Places
import TemplateLint.Proofs.Files.TemplatePattern

/-!
# What a search walks over

A search goes down from the root of the file system along the names of a directory, and from there on
over all names that it finds listed. Its paths are spelled by names only, so each of them is the path of
a list of names: those of the directory, and then those that the walk has taken (`mem_matching_iff`).
Links are walked like directories, so the list need not be the place that the path leads to.

The names of the directory are looked for as they are read as texts. This is a way to the directory only
if they are texts; otherwise the search goes where names with replacement characters lead, if anywhere.
-/

namespace TemplateLint

namespace Pattern

/-! ### Parts that stand for one name -/

theorem isRun_quote (c : Char) : (quote c).isRun = false := by
  unfold quote
  split <;> rfl

theorem holds_quote (c d : Char) : (quote c).holds d = true ↔ d = c := by
  unfold quote
  split <;> simp [Atom.holds, Member.holds]

theorem accepts_quote (name text : List Char) :
    accepts (name.map quote) text = true ↔ text = name := by
  induction name generalizing text with
  | nil => simp [accepts]
  | cons c name ih =>
    cases text with
    | nil => simp [accepts, isRun_quote]
    | cons d text =>
      rw [List.map_cons, accepts, isRun_quote, if_neg Bool.false_ne_true, Bool.and_eq_true, holds_quote,
        ih, List.cons.injEq]

theorem accepts_anyRun (atoms : List Atom) (text : List Char) :
    accepts (.anyRun :: atoms) text = true ↔ ∃ rest, rest <:+ text ∧ accepts atoms rest = true := by
  induction text with
  | nil => simp [accepts, Atom.isRun]
  | cons c text ih =>
    rw [accepts, show Atom.anyRun.isRun = true from rfl, if_pos rfl, Bool.or_eq_true, ih]
    simp only [List.suffix_cons_iff, or_and_right, exists_or, exists_eq_left]

/-- A name without wildcards. -/
def IsWildcardFree (name : String) : Prop :=
  ∀ c ∈ name.toList, c ∉ ['?', '*', '[', ']']

instance (name : String) : Decidable (IsWildcardFree name) :=
  List.decidableBAll _ _

theorem map_quote_ne_anyDirectories (name : List Char) : name.map quote ≠ [.anyDirectories] := by
  intro h
  have hmem : Atom.anyDirectories ∈ name.map quote := by simp [h]
  obtain ⟨c, -, hc⟩ := List.mem_map.1 hmem
  have hrun := isRun_quote c
  rw [hc] at hrun
  cases hrun

theorem literal?_quote_iff {name text : List Char} :
    literal? (name.map quote) = some text ↔
      text = name ∧ ∀ c ∈ name, c ∉ ['?', '*', '[', ']'] := by
  induction name generalizing text with
  | nil => simp [literal?, eq_comm]
  | cons c name ih =>
    rw [List.map_cons, quote, List.forall_mem_cons]
    split
    · next hwild => simp [literal?, hwild]
    · next hplain =>
      rw [literal?, Option.map_eq_some_iff]
      constructor
      · intro h
        obtain ⟨rest, hrest, rfl⟩ := h
        obtain ⟨rfl, hname⟩ := ih.1 hrest
        exact ⟨rfl, hplain, hname⟩
      · intro h
        obtain ⟨rfl, -, hname⟩ := h
        exact ⟨name, ih.2 ⟨rfl, hname⟩, rfl⟩

/-- A name is written as it is, or by atoms that stand for its characters. -/
theorem nameSegment_eq (name : String) : nameSegment name.toList =
    if IsWildcardFree name then .literal name else .wild (name.toList.map quote) := by
  rw [nameSegment, Segment.ofAtoms, if_neg (map_quote_ne_anyDirectories _)]
  by_cases hplain : IsWildcardFree name
  · rw [literal?_quote_iff.2 ⟨rfl, hplain⟩, if_pos hplain]
    exact congrArg Segment.literal String.ofList_toList
  · rw [if_neg hplain]
    cases hliteral : literal? (name.toList.map quote) with
    | none => rfl
    | some text => exact absurd (literal?_quote_iff.1 hliteral).2 hplain

theorem acceptsName_iff {atoms : List Atom} {name : RawPath} :
    acceptsName atoms name = true ↔
      ∃ text, name = Utf8.encode text ∧ accepts atoms text.toList = true := by
  rw [acceptsName, Option.any_eq_true]
  simp only [Utf8.text?_eq_some]

theorem acceptsName_quote {name : String} {other : RawPath} :
    acceptsName (name.toList.map quote) other = true ↔ other = Utf8.encode name := by
  rw [acceptsName_iff]
  simp only [accepts_quote, String.toList_inj, exists_eq_right]

theorem mergeRecursive_names (names : List (List Char)) (rest : List Segment) :
    mergeRecursive (names.map nameSegment ++ rest) = names.map nameSegment ++ mergeRecursive rest := by
  induction names with
  | nil => rfl
  | cons name names ih =>
    have hname := nameSegment_eq (String.ofList name)
    rw [String.toList_ofList] at hname
    rw [List.map_cons, List.cons_append, List.cons_append, ← ih, hname]
    split
    · rw [mergeRecursive]
      intro more hsame
      cases hsame
    · rw [mergeRecursive]
      intro more hsame
      cases hsame

end Pattern

/-! ### Names that are read as texts -/

/-- A name as it is looked for after it was read as a text. -/
def reread (name : RawPath) : RawPath :=
  Utf8.encode (Utf8.lossy name)

theorem reread_of_isText {name : RawPath} (h : Utf8.IsText name) : reread name = name :=
  h.encode_lossy

theorem map_reread_of_isText {names : List RawPath} (h : ∀ name ∈ names, Utf8.IsText name) :
    names.map reread = names := by
  rw [List.map_congr_left fun name hname => reread_of_isText (h name hname)]
  exact List.map_id names

/-- The path of a place is a text if each name in it is one. -/
theorem Place.isText_path_iff {place : Place} :
    Utf8.IsText place.path ↔ ∀ name ∈ place, Utf8.IsText name := by
  have hslash : Path.slash = UInt8.ofNat '/'.toNat := rfl
  have hascii : '/'.toNat < 128 := by decide
  have hjoin : Utf8.IsText (Text.joinWith Path.slash place) ↔ ∀ name ∈ place, Utf8.IsText name := by
    induction place with
    | nil => exact iff_of_true (Utf8.isText_encode "") (by simp)
    | cons name names ih =>
      rw [List.forall_mem_cons, ← ih]
      cases names with
      | nil =>
        have hempty : Utf8.IsText (Text.joinWith Path.slash ([] : List RawPath)) := Utf8.isText_encode ""
        exact (and_iff_left hempty).symm
      | cons next names =>
        rw [Text.joinWith_cons _ _ (List.cons_ne_nil next names), hslash,
          Utf8.isText_append_ascii hascii]
  rw [path, ← List.nil_append (Path.slash :: _), hslash, Utf8.isText_append_ascii hascii, ← hslash, hjoin]
  exact and_iff_right (Utf8.isText_encode "")

/-- A name that can be an entry's is still one when its ill-formed parts are replaced. -/
theorem ValidName.reread {name : RawPath} (h : ValidName name) : ValidName (reread name) where
  ne_nil := by
    intro hsame
    have hlossy : Utf8.lossy name = "" := Utf8.encode_injective hsame
    have hname : name = Utf8.encode (Utf8.lossy name) :=
      Utf8.eq_encode_of_lossy (by rw [hlossy]; decide)
    exact h.ne_nil (by rw [hname, hlossy]; rfl)
  ne_current := by
    intro hsame
    have hlossy : Utf8.lossy name = "." := Utf8.encode_injective hsame
    have hname : name = Utf8.encode (Utf8.lossy name) :=
      Utf8.eq_encode_of_lossy (by rw [hlossy]; decide)
    exact h.ne_current (by rw [hname, hlossy])
  ne_parent := by
    intro hsame
    have hlossy : Utf8.lossy name = ".." := Utf8.encode_injective hsame
    have hname : name = Utf8.encode (Utf8.lossy name) :=
      Utf8.eq_encode_of_lossy (by rw [hlossy]; decide)
    exact h.ne_parent (by rw [hname, hlossy])
  no_slash := by
    intro hslash
    have hchar := (Utf8.mem_encode_ascii (d := '/') (by decide) _).1 hslash
    exact h.no_slash (Utf8.mem_of_mem_lossy (d := '/') (by decide) hchar)

namespace FileSystem

open Pattern

variable {fs : FileSystem}

theorem mem_specialNames {atoms : List Atom} {name : RawPath} (h : name ∈ specialNames atoms) :
    (name = ".." ∨ name = ".") ∧ acceptsName atoms name = true := by
  unfold specialNames at h
  split at h
  · simpa using h
  · cases h

/-- A name is listed in the directory that a path leads to. -/
def Lists (fs : FileSystem) (path name : RawPath) : Prop :=
  ∃ names, fs.list? path = some names ∧ name ∈ names

theorem WellFormed.validName_of_lists (wf : fs.WellFormed) {path name : RawPath}
    (h : fs.Lists path name) : ValidName name := by
  obtain ⟨names, hlist, hname⟩ := h
  unfold list? at hlist
  split at hlist
  · cases hlist
  · split at hlist
    · cases hlist
      obtain ⟨entry, hentry⟩ := mem_namesBelow_iff.1 hname
      exact wf.validNames hentry name (by simp)
    · cases hlist

/-- The way from the path of a place along a name is there: a plain name is looked up, and another one
is looked for in the list of the names. -/
def Enters (fs : FileSystem) (front : Place) (name : String) : Prop :=
  if IsWildcardFree name then fs.isPresent (Place.path (front ++ [Utf8.encode name])) = true
  else fs.Lists front.path (Utf8.encode name)

/-- The way along names is there. -/
inductive EntersAll (fs : FileSystem) : Place → List String → Prop where
  | nil (front : Place) : EntersAll fs front []
  | cons {front : Place} {name : String} {names : List String} (enters : fs.Enters front name)
      (rest : EntersAll fs (front ++ [Utf8.encode name]) names) : EntersAll fs front (name :: names)

theorem entersAll_cons_iff {front : Place} {name : String} {names : List String} :
    fs.EntersAll front (name :: names) ↔
      fs.Enters front name ∧ fs.EntersAll (front ++ [Utf8.encode name]) names := by
  constructor
  · intro h
    cases h with
    | cons enters rest => exact ⟨enters, rest⟩
  · intro h
    exact .cons h.1 h.2

/-- Along one name there is one way. -/
theorem mem_expand_nameSegment {front : Place} (hfront : ∀ part ∈ front, ValidName part)
    {name : String} (hname : ValidName (Utf8.encode name)) {onlyDirectories : Bool}
    {rest : List Segment} {path : RawPath} :
    path ∈ fs.expand onlyDirectories (nameSegment name.toList :: rest) front.path ↔
      fs.Enters front name ∧
        path ∈ fs.expand onlyDirectories rest (Place.path (front ++ [Utf8.encode name])) := by
  have hjoin := Place.join_path hfront hname
  rw [nameSegment_eq, Enters]
  by_cases hplain : IsWildcardFree name
  · have hstep : fs.hasStep front.path (Utf8.encode name) =
        fs.isPresent (Place.path (front ++ [Utf8.encode name])) := by
      rw [hasStep, if_neg (by simp [hname.ne_current, hname.ne_parent]), hjoin]
    rw [if_pos hplain, if_pos hplain, expand, hstep, hjoin]
    split
    · next hpresent => simp [hpresent]
    · next habsent => simp [habsent]
  · rw [if_neg hplain, if_neg hplain, expand, Lists]
    cases hlist : fs.list? front.path with
    | none => simp
    | some names =>
      simp only [List.mem_flatMap, List.mem_append, List.mem_filter, acceptsName_quote,
        Option.some.injEq, exists_eq_left']
      constructor
      · intro h
        obtain ⟨other, hspecial | ⟨hmem, rfl⟩, hpath⟩ := h
        · obtain ⟨hdots, haccepts⟩ := mem_specialNames hspecial
          rw [acceptsName_quote] at haccepts
          rw [haccepts] at hdots
          exact absurd hdots (by simp [hname.ne_current, hname.ne_parent])
        · exact ⟨hmem, hjoin ▸ hpath⟩
      · intro h
        exact ⟨_, .inr ⟨h.1, rfl⟩, hjoin ▸ h.2⟩

theorem mem_expand_names {names : List String} {front : Place}
    (h : ∀ part ∈ front ++ names.map Utf8.encode, ValidName part) {onlyDirectories : Bool}
    {rest : List Segment} {path : RawPath} :
    path ∈ fs.expand onlyDirectories (names.map (fun name => nameSegment name.toList) ++ rest)
        front.path ↔
      fs.EntersAll front names ∧
        path ∈ fs.expand onlyDirectories rest (Place.path (front ++ names.map Utf8.encode)) := by
  induction names generalizing front with
  | nil =>
    rw [List.map_nil, List.nil_append, List.map_nil, List.append_nil]
    exact ⟨fun hpath => ⟨.nil front, hpath⟩, And.right⟩
  | cons name names ih =>
    have hsplit : front ++ (name :: names).map Utf8.encode =
        (front ++ [Utf8.encode name]) ++ names.map Utf8.encode := by simp
    rw [hsplit] at h ⊢
    have hnext : ∀ part ∈ front ++ [Utf8.encode name], ValidName part := fun part hpart =>
      h part (List.mem_append_left _ hpart)
    have hfront : ∀ part ∈ front, ValidName part := fun part hpart =>
      hnext part (List.mem_append_left _ hpart)
    rw [List.map_cons, List.cons_append, mem_expand_nameSegment hfront (hnext _ (by simp)), ih h,
      entersAll_cons_iff, and_assoc]

/-- The parts of the pattern that stand for a directory lead to the path that its path is read as. -/
theorem mem_expand_directory {root : Place} (h : ∀ name ∈ root, ValidName name)
    {onlyDirectories : Bool} {rest : List Segment} {path : RawPath} :
    path ∈ fs.expand onlyDirectories ((Text.cutAt '/' (Text.joinWith '/'
        (root.map fun name => (Utf8.lossy name).toList))).map nameSegment ++ rest) "/" ↔
      fs.EntersAll [] (root.map Utf8.lossy) ∧
        path ∈ fs.expand onlyDirectories rest (Place.path (root.map reread)) := by
  by_cases hne : root = []
  · subst hne
    -- The path of the root has one part, which is empty and leads nowhere else.
    have hjoin : Path.join "/" "" = "/" := rfl
    have hstep : fs.hasStep "/" "" = true := by
      rw [hasStep, if_neg (by decide), isPresent, hjoin, target?, resolve, if_neg (by decide),
        if_neg (by decide), show steps "/" = [[]] from rfl, follow, follow]
      rfl
    have hsegment : nameSegment [] = .literal "" := rfl
    rw [List.map_nil, List.map_nil, List.map_nil,
      show Text.cutAt '/' (Text.joinWith '/' []) = [[]] from rfl, List.map_singleton,
      List.singleton_append, hsegment, expand, if_pos hstep, hjoin]
    exact ⟨fun hpath => ⟨.nil [], hpath⟩, And.right⟩
  · have hnames : ∀ part ∈ root.map fun name => (Utf8.lossy name).toList, '/' ∉ part := by
      intro part hpart hslash
      obtain ⟨name, hname, rfl⟩ := List.mem_map.1 hpart
      exact (h name hname).no_slash (Utf8.mem_of_mem_lossy (d := '/') (by decide) hslash)
    have hvalid : ∀ part ∈ [] ++ (root.map Utf8.lossy).map Utf8.encode, ValidName part := by
      intro part hpart
      rw [List.nil_append, List.map_map] at hpart
      obtain ⟨name, hname, rfl⟩ := List.mem_map.1 hpart
      exact (h name hname).reread
    have hexpand : path ∈ fs.expand onlyDirectories
        ((root.map Utf8.lossy).map (fun name => nameSegment name.toList) ++ rest) (Place.path []) ↔
        fs.EntersAll [] (root.map Utf8.lossy) ∧
          path ∈ fs.expand onlyDirectories rest
            (Place.path ([] ++ (root.map Utf8.lossy).map Utf8.encode)) :=
      mem_expand_names hvalid
    rw [List.nil_append, List.map_map, List.map_map] at hexpand
    rw [Text.cutAt_joinWith (by simpa using hne) hnames, List.map_map]
    exact hexpand

/-! ### Below a directory -/

/-- Names that are listed one below the other, from the path of some names on. -/
inductive Leads (fs : FileSystem) : Place → List RawPath → Prop where
  | nil (front : Place) : Leads fs front []
  | cons {front : Place} {name : RawPath} {names : List RawPath}
      (listed : fs.Lists front.path name) (rest : Leads fs (front ++ [name]) names) :
      Leads fs front (name :: names)

theorem leads_cons_iff {front : Place} {name : RawPath} {names : List RawPath} :
    Leads fs front (name :: names) ↔ fs.Lists front.path name ∧ Leads fs (front ++ [name]) names := by
  constructor
  · intro h
    cases h with
    | cons listed rest => exact ⟨listed, rest⟩
  · intro h
    exact .cons h.1 h.2

theorem WellFormed.validNames_of_leads (wf : fs.WellFormed) {front : Place} {names : List RawPath}
    (h : Leads fs front names) : ∀ name ∈ names, ValidName name := by
  induction h with
  | nil =>
    intro name hname
    cases hname
  | cons hlisted _ ih => exact List.forall_mem_cons.2 ⟨wf.validName_of_lists hlisted, ih⟩

theorem WellFormed.mem_below_iff (wf : fs.WellFormed) {depth : Nat} {front : Place}
    (hfront : ∀ name ∈ front, ValidName name) {child name : RawPath} :
    (child, name) ∈ fs.below depth front.path ↔ ∃ names, names.length < depth ∧
      Leads fs front (names ++ [name]) ∧ child = Place.path (front ++ (names ++ [name])) := by
  induction depth generalizing front with
  | zero => simp [below]
  | succ depth ih =>
    have hnext {first : RawPath} (hfirst : ValidName first) :
        ∀ name ∈ front ++ [first], ValidName name := by
      simpa [or_imp, forall_and] using ⟨hfront, hfirst⟩
    have hlists (first : RawPath) :
        first ∈ (fs.list? front.path).getD [] ↔ fs.Lists front.path first := by
      rw [Lists]
      cases fs.list? front.path <;> simp
    rw [below, List.mem_flatMap]
    constructor
    · intro h
      obtain ⟨first, hlisted, hmem⟩ := h
      rw [hlists] at hlisted
      have hfirst := wf.validName_of_lists hlisted
      rw [Place.join_path hfront hfirst, List.mem_cons, ih (hnext hfirst)] at hmem
      rcases hmem with hmem | ⟨names, hlength, hleads, rfl⟩
      · cases hmem
        exact ⟨[], by simp, .cons hlisted (.nil _), rfl⟩
      · exact ⟨first :: names, by simpa using hlength, .cons hlisted hleads, by simp⟩
    · intro h
      obtain ⟨names, hlength, hleads, rfl⟩ := h
      cases names with
      | nil =>
        have hlisted := (leads_cons_iff.1 hleads).1
        refine ⟨name, (hlists name).2 hlisted, List.mem_cons.2 (.inl ?_)⟩
        rw [Place.join_path hfront (wf.validName_of_lists hlisted), List.nil_append]
      | cons first names =>
        obtain ⟨hlisted, hrest⟩ := leads_cons_iff.1 hleads
        have hfirst := wf.validName_of_lists hlisted
        refine ⟨first, (hlists first).2 hlisted, List.mem_cons.2 (.inr ?_)⟩
        rw [Place.join_path hfront hfirst, ih (hnext hfirst)]
        exact ⟨names, by simpa using hlength, hrest, by simp⟩

theorem WellFormed.mem_expand_below (wf : fs.WellFormed) {front : Place}
    (hfront : ∀ name ∈ front, ValidName name) {atoms : List Atom} {path : RawPath} :
    path ∈ fs.expand false [.recursive, .wild atoms] front.path ↔ ∃ names name,
      names.length < fs.walkBound ∧ Leads fs front (names ++ [name]) ∧
        acceptsName atoms name = true ∧ path = Place.path (front ++ (names ++ [name])) := by
  rw [expand, List.mem_flatMap]
  constructor
  · intro h
    obtain ⟨⟨child, name⟩, hmem, hpath⟩ := h
    obtain ⟨names, hlength, hleads, rfl⟩ := (wf.mem_below_iff hfront).1 hmem
    dsimp only at hpath
    split at hpath
    · next haccepts =>
      rw [expand] at hpath
      exact ⟨names, name, hlength, hleads, haccepts, by simpa using hpath⟩
    · cases hpath
  · intro h
    obtain ⟨names, name, hlength, hleads, haccepts, rfl⟩ := h
    refine ⟨(_, name), (wf.mem_below_iff hfront).2 ⟨names, hlength, hleads, rfl⟩, ?_⟩
    have hholds : (Segment.wild atoms).holds name = true := haccepts
    simp [hholds, expand]

end FileSystem

namespace Discovery

open Pattern FileSystem

/-! ### The pattern for an extension -/

theorem lastSegments?_of_no_slash {ext : List Char} (h : '/' ∉ ext) :
    lastSegments? ext =
      (atoms? (some '.') ext).map fun atoms => [.wild (.anyRun :: .char '.' :: atoms)] := by
  have hcut : cutParts ('*' :: '.' :: ext) = ['*' :: '.' :: ext] := by
    rw [cutParts, Text.cutAt_of_not_mem (by simpa using h)]
    rfl
  rw [lastSegments?, hcut, List.mapM_cons, List.mapM_nil, atoms?_run (by decide)]
  cases atoms? (some '.') ext with
  | none => rfl
  | some atoms =>
    have hsegment : Segment.ofAtoms (.anyRun :: .char '.' :: atoms) = .wild (.anyRun :: .char '.' :: atoms) :=
      rfl
    simp [hsegment]

theorem isPattern_of_plain {ext : String} (h : ∀ c ∈ bareExtension ext, c ∉ ['/', '?', '*', '[']) :
    IsPattern ext := by
  have hslash : '/' ∉ bareExtension ext := fun hmem => h '/' hmem (by decide)
  rw [isPattern_iff, lastSegments?_of_no_slash hslash, atoms?_plain]
  · rfl
  · exact fun c hc hwild => h c hc (List.mem_cons_of_mem _ hwild)

theorem compile_templatePattern (root : Place) {ext : String} (hslash : '/' ∉ bareExtension ext)
    {glob : Glob} (h : compile (templatePattern root.path ext) = .ok glob) :
    ∃ atoms, atoms? (some '.') (bareExtension ext) = some atoms ∧
      glob = ⟨(Text.cutAt '/' (Text.joinWith '/'
        (root.map fun name => (Utf8.lossy name).toList))).map nameSegment ++
        [.recursive, .wild (.anyRun :: .char '.' :: atoms)], false⟩ := by
  have hroot : (Utf8.lossy root.path).toList =
      '/' :: Text.joinWith '/' (root.map fun name => (Utf8.lossy name).toList) := by
    rw [Place.path, Path.lossy_slash_cons, Path.lossy_joinWith, Text.toList_intercalate, List.map_map]
    rfl
  have hoption := toOption_templatePattern hroot ext
  have hlast : (('.' :: bareExtension ext).getLast? == some '/') = false := by
    rw [beq_eq_false_iff_ne]
    intro hlast
    have hmem := List.mem_of_getLast? hlast
    simp [hslash] at hmem
  rw [h, lastSegments?_of_no_slash hslash, hlast] at hoption
  cases hatoms : atoms? (some '.') (bareExtension ext) with
  | none =>
    rw [hatoms] at hoption
    cases hoption
  | some atoms =>
    rw [hatoms] at hoption
    exact ⟨atoms, rfl, (Option.some.inj hoption).trans
      (congrArg (Glob.mk · false) (mergeRecursive_names _ _))⟩

/-- A path that the pattern for an extension finds is the one that the path of the directory is read as,
with more names behind it that are listed one below the other. The last of them is a text and ends with
what the extension stands for. -/
theorem mem_matching_iff {fs : FileSystem} (wf : fs.WellFormed) {root : Place}
    (hroot : ∀ name ∈ root, ValidName name) {ext : String} (hslash : '/' ∉ bareExtension ext)
    {glob : Glob} (h : compile (templatePattern root.path ext) = .ok glob) :
    ∃ atoms, atoms? (some '.') (bareExtension ext) = some atoms ∧
      ∀ path, path ∈ fs.matching glob ↔ fs.EntersAll [] (root.map Utf8.lossy) ∧
        ∃ names name, names.length < fs.walkBound ∧
          Leads fs (root.map reread) (names ++ [name]) ∧
          acceptsName (.anyRun :: .char '.' :: atoms) name = true ∧
          path = Place.path (root.map reread ++ (names ++ [name])) := by
  have hvalid : ∀ name ∈ root.map reread, ValidName name := by
    intro part hpart
    obtain ⟨name, hname, rfl⟩ := List.mem_map.1 hpart
    exact (hroot name hname).reread
  obtain ⟨atoms, hatoms, rfl⟩ := compile_templatePattern root hslash h
  refine ⟨atoms, hatoms, fun path => ?_⟩
  rw [← wf.mem_expand_below hvalid]
  exact mem_expand_directory hroot

/-- The files that are found for an extension. -/
theorem mem_withExtension_iff {fs : FileSystem} (wf : fs.WellFormed) {root : Place}
    (hroot : ∀ name ∈ root, ValidName name) {ext : String} (hslash : '/' ∉ bareExtension ext)
    {paths : List RawPath} (h : withExtension fs root.path ext = .ok paths) :
    ∃ atoms, atoms? (some '.') (bareExtension ext) = some atoms ∧
      ∀ path, path ∈ paths ↔ fs.isFile path = true ∧ fs.EntersAll [] (root.map Utf8.lossy) ∧
        ∃ names name, names.length < fs.walkBound ∧
          Leads fs (root.map reread) (names ++ [name]) ∧
          acceptsName (.anyRun :: .char '.' :: atoms) name = true ∧
          path = Place.path (root.map reread ++ (names ++ [name])) := by
  simp only [withExtension] at h
  split at h
  · cases h
  · next glob hglob =>
    cases h
    obtain ⟨atoms, hatoms, hmem⟩ := mem_matching_iff wf hroot hslash hglob
    exact ⟨atoms, hatoms, fun path => by rw [List.mem_filter, hmem, and_comm]⟩

end Discovery

end TemplateLint
