import TemplateLint.Proofs.Finding.Grouping
import TemplateLint.Proofs.Text.Lines
import TemplateLint.Proofs.Text.PrefixFree
import TemplateLint.Report

/-!
# The checkstyle report determines the groups

No quote is left in an escaped text, so the value of an attribute ends at the first quote behind its
beginning, whatever is said in it: a message may look like markup or have line breaks. The elements of
findings and of files begin differently from what closes the element around them, so it is seen where
their lists end. In this way each part of the report shows where it ends, and what is written behind it
does not matter (`Text.PrefixFree`). The report as a whole can then be written for one grouping only.
-/

namespace TemplateLint

namespace Report.Checkstyle

/-! ### Entities -/

/-- The entities that escaped texts have. -/
def entities : List String :=
  ["&amp;", "&lt;", "&gt;", "&quot;", "&apos;"]

/-- A text in which each entity is read as its character. -/
def readEntities : List Char → List Char
  | '&' :: 'a' :: 'm' :: 'p' :: ';' :: rest => '&' :: readEntities rest
  | '&' :: 'l' :: 't' :: ';' :: rest => '<' :: readEntities rest
  | '&' :: 'g' :: 't' :: ';' :: rest => '>' :: readEntities rest
  | '&' :: 'q' :: 'u' :: 'o' :: 't' :: ';' :: rest => '"' :: readEntities rest
  | '&' :: 'a' :: 'p' :: 'o' :: 's' :: ';' :: rest => '\x27' :: readEntities rest
  | c :: rest => c :: readEntities rest
  | [] => []

/-- The text that an escaped text stands for. -/
def unescape (s : String) : String :=
  String.ofList (readEntities s.toList)

theorem readEntities_cons {c : Char} (h : c ≠ '&') (rest : List Char) :
    readEntities (c :: rest) = c :: readEntities rest := by
  rw [readEntities.eq_6]
  all_goals simp [h]

theorem readEntities_escapeChar (c : Char) (rest : List Char) :
    readEntities (escapeChar c ++ rest) = c :: readEntities rest := by
  unfold escapeChar
  split
  · exact readEntities.eq_1 rest
  · exact readEntities.eq_2 rest
  · exact readEntities.eq_3 rest
  · exact readEntities.eq_4 rest
  · exact readEntities.eq_5 rest
  · next hamp _ _ _ _ => exact readEntities_cons hamp rest

theorem unescape_escape (s : String) : unescape (escape s) = s := by
  rw [unescape, escape, String.toList_ofList, ← String.toList_inj, String.toList_ofList]
  induction s.toList with
  | nil => rfl
  | cons c text ih => rw [List.flatMap_cons, readEntities_escapeChar, ih]

theorem escape_injective {s t : String} (h : escape s = escape t) : s = t := by
  rw [← unescape_escape s, h, unescape_escape]

theorem escapeChar_cases (c : Char) :
    (∃ entity ∈ entities, escapeChar c = entity.toList) ∨
      escapeChar c = [c] ∧ c ∉ ['&', '<', '>', '"', '\x27'] := by
  unfold escapeChar
  split
  · exact .inl ⟨"&amp;", by simp [entities], rfl⟩
  · exact .inl ⟨"&lt;", by simp [entities], rfl⟩
  · exact .inl ⟨"&gt;", by simp [entities], rfl⟩
  · exact .inl ⟨"&quot;", by simp [entities], rfl⟩
  · exact .inl ⟨"&apos;", by simp [entities], rfl⟩
  · next hamp hless hgreater hquote hapostrophe =>
    refine .inr ⟨rfl, ?_⟩
    simp only [List.mem_cons, List.not_mem_nil, or_false, not_or]
    exact ⟨hamp, hless, hgreater, hquote, hapostrophe⟩

theorem not_mem_escape {mark : Char} (h : mark ∈ ['<', '>', '"', '\x27']) (s : String) :
    mark ∉ (escape s).toList := by
  intro hmem
  rw [escape, String.toList_ofList] at hmem
  obtain ⟨c, -, hc⟩ := List.mem_flatMap.1 hmem
  rcases escapeChar_cases c with ⟨entity, hentity, hchars⟩ | ⟨hchars, hplain⟩
  · have hmarks : ∀ entity ∈ entities, ∀ mark ∈ ['<', '>', '"', '\x27'], mark ∉ entity.toList := by
      simp [entities]
    exact hmarks entity hentity mark h (hchars ▸ hc)
  · rw [hchars, List.mem_singleton] at hc
    exact hplain (List.mem_cons_of_mem _ (hc ▸ h))

theorem quote_not_mem_escape (s : String) : '"' ∉ (escape s).toList :=
  not_mem_escape (by simp) s

theorem suffix_of_not_mem {c : Char} {front : List Char} (h : c ∉ front) {rest back : List Char}
    (hsuffix : c :: rest <:+ front ++ back) : c :: rest <:+ back := by
  induction front with
  | nil => exact hsuffix
  | cons d front ih =>
    rw [List.mem_cons, not_or] at h
    rw [List.cons_append, List.suffix_cons_iff, List.cons.injEq] at hsuffix
    exact ih h.2 (hsuffix.resolve_left fun heq => h.1 heq.1)

/-- Wherever an ampersand is left, an entity begins. -/
theorem exists_entity (s : String) {rest : List Char} (h : '&' :: rest <:+ (escape s).toList) :
    ∃ entity ∈ entities, entity.toList <+: '&' :: rest := by
  rw [escape, String.toList_ofList] at h
  generalize s.toList = text at h
  induction text with
  | nil => simp at h
  | cons c text ih =>
    rw [List.flatMap_cons] at h
    rcases escapeChar_cases c with ⟨entity, hentity, hchars⟩ | ⟨hchars, hplain⟩
    · have hheads : ∀ entity ∈ entities, entity.toList = '&' :: entity.toList.tail ∧
          '&' ∉ entity.toList.tail := by decide
      obtain ⟨hhead, htail⟩ := hheads entity hentity
      rw [hchars, hhead, List.cons_append, List.suffix_cons_iff] at h
      rcases h with h | h
      · refine ⟨entity, hentity, ?_⟩
        rw [h, ← List.cons_append, ← hhead]
        exact List.prefix_append _ _
      · exact ih (suffix_of_not_mem htail h)
    · have hne : '&' ∉ escapeChar c := by
        rw [hchars, List.mem_singleton]
        rintro rfl
        simp at hplain
      exact ih (suffix_of_not_mem hne h)

/-! ### Elements -/

/-- The element of a finding, whose path is that of its file. -/
def entryText (entry : Position × Severity × String) : List Char :=
  "    <error line=\"".toList ++ ((toString entry.1.line).toList ++
    ("\" column=\"".toList ++ ((toString entry.1.column).toList ++
      ("\" severity=\"".toList ++ (entry.2.1.name.toList ++
        ("\" ".toList ++ ("message=\"".toList ++ ((escape entry.2.2).toList ++
          ("\" source=\"tmplint\"/>".toList ++ ['\n'])))))))))

/-- The element of a file. -/
def fileText (entries : String × List (Position × Severity × String)) : List Char :=
  "  <file name=\"".toList ++ ((escape entries.1).toList ++
    ("\">".toList ++ ('\n' :: (entries.2.flatMap entryText ++ "  </file>\n".toList))))

theorem entryText_entry (v : Violation) : entryText v.entry = (findingLine v).toList ++ ['\n'] := by
  unfold findingLine
  simp only [String.toList_append, List.append_assoc]
  rfl

theorem fileText_entries (group : FileFindings) :
    fileText group.entries = (fileLines group).flatMap fun line => line.toList ++ ['\n'] := by
  have hentries : (group.found.map Violation.entry).flatMap entryText =
      (group.found.map findingLine).flatMap fun line => line.toList ++ ['\n'] := by
    rw [List.flatMap_map, List.flatMap_map]
    simp only [entryText_entry]
  unfold fileText FileFindings.entries fileLines
  rw [hentries]
  simp only [List.cons_append, List.flatMap_cons, List.flatMap_append, String.toList_append,
    List.append_assoc]
  rfl

/-- The report, as it is made of groups without the paths of the findings. -/
theorem toList_render (found : List Violation) :
    (Reporter.checkstyle.render found).toList =
      ["<?xml version=\"1.0\" encoding=\"UTF-8\"?>", "<checkstyle>"].flatMap
          (fun line => line.toList ++ ['\n']) ++
        (((groupByFile found).map FileFindings.entries).flatMap fileText ++
          "</checkstyle>\n".toList) := by
  have hfiles : ((groupByFile found).map FileFindings.entries).flatMap fileText =
      ((groupByFile found).flatMap fileLines).flatMap fun line => line.toList ++ ['\n'] := by
    rw [List.flatMap_map, List.flatMap_assoc]
    simp only [fileText_entries]
  have hunlines := toList_unlines (lines found)
  rw [lines, List.flatMap_append, List.flatMap_append, List.append_assoc, ← hfiles] at hunlines
  exact hunlines

/-! ### Where elements end -/

theorem prefixFree_entryText : Text.PrefixFree entryText := by
  rintro ⟨⟨line, column⟩, severity, message⟩ ⟨⟨line', column'⟩, severity', message'⟩ rest rest' heq
  have hnumber (n : Nat) : '"' ∉ (toString n).toList := Text.not_mem_toString (by decide) n
  have hname (s : Severity) : '"' ∉ s.name.toList := by
    cases s <;> decide
  unfold entryText at heq
  simp only [List.append_assoc] at heq
  obtain ⟨hline, heq⟩ :=
    Text.append_mark_inj rfl (hnumber line) (hnumber line') (List.append_cancel_left heq)
  obtain ⟨hcolumn, heq⟩ := Text.append_mark_inj rfl (hnumber column) (hnumber column') heq
  obtain ⟨hseverity, heq⟩ := Text.append_mark_inj rfl (hname severity) (hname severity') heq
  obtain ⟨hmessage, heq⟩ :=
    Text.append_mark_inj rfl (quote_not_mem_escape message) (quote_not_mem_escape message')
      (List.append_cancel_left heq)
  have hline : line = line' := Text.toString_injective (String.toList_inj.1 hline)
  have hcolumn : column = column' := Text.toString_injective (String.toList_inj.1 hcolumn)
  have hseverity : severity = severity' := by
    have hnames := congrArg Severity.ofName? (String.toList_inj.1 hseverity)
    simpa using hnames
  have hmessage : message = message' := escape_injective (String.toList_inj.1 hmessage)
  rw [hline, hcolumn, hseverity, hmessage]
  exact ⟨rfl, List.append_cancel_left heq⟩

theorem prefixFree_fileText : Text.PrefixFree fileText := by
  rintro ⟨path, entries⟩ ⟨path', entries'⟩ rest rest' heq
  have hstop : ∀ entry rest rest', entryText entry ++ rest ≠ "  </file>\n".toList ++ rest' := by
    intro entry rest rest' heq
    -- The elements differ in their third character.
    have hthird : some ' ' = some '<' := congrArg (·[2]?) heq
    cases hthird
  unfold fileText at heq
  simp only [List.append_assoc, List.cons_append] at heq
  obtain ⟨hpath, heq⟩ :=
    Text.append_mark_inj rfl (quote_not_mem_escape path) (quote_not_mem_escape path')
      (List.append_cancel_left heq)
  rw [List.cons.injEq, ← List.append_assoc, ← List.append_assoc] at heq
  obtain ⟨hsame, hrest⟩ := prefixFree_entryText.list hstop heq.2
  rw [escape_injective (String.toList_inj.1 hpath), hsame]
  exact ⟨rfl, hrest⟩

theorem render_eq_iff {found other : List Violation} :
    Reporter.checkstyle.render found = Reporter.checkstyle.render other ↔
      (groupByFile found).map FileFindings.entries = (groupByFile other).map FileFindings.entries := by
  rw [← String.toList_inj, toList_render, toList_render]
  refine ⟨fun h => ?_, fun h => by rw [h]⟩
  have hstop : ∀ entries rest rest', fileText entries ++ rest ≠ "</checkstyle>\n".toList ++ rest' := by
    intro entries rest rest' heq
    have hfirst : some ' ' = some '<' := congrArg List.head? heq
    cases hfirst
  exact (prefixFree_fileText.list hstop).injective (List.append_cancel_left h)

end Report.Checkstyle

open Report.Checkstyle in
/-- **The checkstyle report determines the groups.** An escaped text has no quote and no angle bracket
left, an ampersand only where an entity begins, and reading the entities gives the text back. Two lists of
findings have the same report just if they have findings about the same files, in the same order, with the
same places, severities and messages about each file in the same order: just if their groups are the
same. -/
theorem checkstyle_determines_groups :
    (∀ text, (∀ mark ∈ ['<', '>', '"', '\x27'], mark ∉ (escape text).toList) ∧
      (∀ rest, '&' :: rest <:+ (escape text).toList →
        ∃ entity ∈ ["&amp;", "&lt;", "&gt;", "&quot;", "&apos;"], entity.toList <+: '&' :: rest) ∧
      unescape (escape text) = text) ∧
    ∀ found other : List Violation,
      (Reporter.checkstyle.render found = Reporter.checkstyle.render other ↔
        (groupByFile found).map FileFindings.entries = (groupByFile other).map FileFindings.entries) ∧
      (Reporter.checkstyle.render found = Reporter.checkstyle.render other ↔
        groupByFile found = groupByFile other) := by
  refine ⟨fun text => ⟨fun mark hmark => not_mem_escape hmark text, fun rest h => exists_entity text h,
    unescape_escape text⟩, fun found other => ⟨render_eq_iff, ?_⟩⟩
  rw [groupByFile_eq_iff]
  exact render_eq_iff

open Report.Checkstyle in
/-- Messages that look like markup, about files that take turns and about files that do not. -/
theorem checkstyle_determines_groups_markup :
    let first : Violation := ⟨"a", ⟨1, 0⟩, "&lt;\"/>\n  </file>", .error⟩
    let second : Violation := ⟨"\">", ⟨1, 0⟩, "", .info⟩
    let third : Violation := ⟨"a", ⟨2, 0⟩, "&", .info⟩
    '"' ∉ (escape first.message).toList ∧
      (∃ entity ∈ ["&amp;", "&lt;", "&gt;", "&quot;", "&apos;"],
        entity.toList <+: (escape third.message).toList) ∧
      Reporter.checkstyle.render [first, second, third] =
        Reporter.checkstyle.render [first, third, second] ∧
      Reporter.checkstyle.render [first, third] ≠ Reporter.checkstyle.render [third, first] := by
  intro first second third
  obtain ⟨htexts, hreports⟩ := checkstyle_determines_groups
  refine ⟨(htexts first.message).1 '"' (by simp), ?_, (hreports _ _).2.2 (by decide), ?_⟩
  · have hescape : (escape third.message).toList = ['&', 'a', 'm', 'p', ';'] := by decide
    rw [hescape]
    exact (htexts third.message).2.1 ['a', 'm', 'p', ';'] (hescape ▸ List.suffix_refl _)
  · rw [Ne, (hreports _ _).2]
    decide

end TemplateLint
