import Mathlib.Data.List.Basic
import Mathlib.Data.List.DropRight
import TemplateLint.Proofs.Text.Lines
import TemplateLint.Report

/-!
# Annotations can be read back

The characters that end a field of a workflow command are the ones that are encoded in it: a path has
no comma and no colon left, and no text has a line break left. So a command is cut into its fields at the
first characters that can end them, whatever texts it was made of. Within a field every percent sign
begins a code, since percent signs are encoded themselves, and reading the codes gives the text back.
-/

namespace TemplateLint

namespace Report.Github

/-! ### Character by character

Whole texts are encoded by one replacement after the other. Since no code has a character in it that is
replaced later, this encodes each character for itself. -/

/-- A character as it stands in the message of a command. -/
def escapeDataChar (c : Char) : List Char :=
  match c with
  | '%' => "%25".toList
  | '\r' => "%0D".toList
  | '\n' => "%0A".toList
  | _ => [c]

/-- A character as it stands in a property of a command. -/
def escapePropertyChar (c : Char) : List Char :=
  match c with
  | ':' => "%3A".toList
  | ',' => "%2C".toList
  | _ => escapeDataChar c

theorem escapeDataChar_of_ne {c : Char} (hpercent : c ≠ '%') (hreturn : c ≠ '\r') (hfeed : c ≠ '\n') :
    escapeDataChar c = [c] := by
  unfold escapeDataChar
  split <;> first | contradiction | rfl

theorem toList_escapeData (s : String) :
    (escapeData s).toList = s.toList.flatMap escapeDataChar := by
  rw [escapeData, String.toList_ofList, replaced, replaced, replaced, List.flatMap_assoc,
    List.flatMap_assoc]
  congr 1
  funext c
  by_cases hcode : c ∈ ['%', '\r', '\n']
  · simp only [List.mem_cons, List.not_mem_nil, or_false] at hcode
    rcases hcode with rfl | rfl | rfl <;> rfl
  · simp only [List.mem_cons, List.not_mem_nil, or_false, not_or] at hcode
    rw [escapeDataChar_of_ne hcode.1 hcode.2.1 hcode.2.2]
    simp [hcode]

theorem toList_escapeProperty (s : String) :
    (escapeProperty s).toList = s.toList.flatMap escapePropertyChar := by
  rw [escapeProperty, String.toList_ofList, toList_escapeData, replaced, replaced,
    List.flatMap_assoc, List.flatMap_assoc]
  congr 1
  funext c
  by_cases hcode : c ∈ ['%', '\r', '\n', ':', ',']
  · simp only [List.mem_cons, List.not_mem_nil, or_false] at hcode
    rcases hcode with rfl | rfl | rfl | rfl | rfl <;> rfl
  · simp only [List.mem_cons, List.not_mem_nil, or_false, not_or] at hcode
    have hdata := escapeDataChar_of_ne hcode.1 hcode.2.1 hcode.2.2.1
    have hproperty : escapePropertyChar c = escapeDataChar c := by
      unfold escapePropertyChar
      split <;> simp_all
    rw [hproperty, hdata]
    simp [hcode]

/-! ### Codes -/

/-- A text in which each percent sign with two hexadecimal digits is read as the character with that
number. -/
def readCodes : List Char → List Char
  | '%' :: high :: low :: rest =>
    match Text.charOfHex? [high, low] with
    | some c => c :: readCodes rest
    | none => '%' :: readCodes (high :: low :: rest)
  | c :: rest => c :: readCodes rest
  | [] => []

/-- The text that an encoded text stands for. -/
def decode (s : String) : String :=
  String.ofList (readCodes s.toList)

theorem readCodes_cons {c : Char} (h : c ≠ '%') (rest : List Char) :
    readCodes (c :: rest) = c :: readCodes rest := by
  rw [readCodes.eq_2]
  simp [h]

theorem readCodes_code {high low c : Char} (h : Text.charOfHex? [high, low] = some c)
    (rest : List Char) : readCodes ('%' :: high :: low :: rest) = c :: readCodes rest := by
  rw [readCodes, h]

theorem readCodes_escapeDataChar (c : Char) (rest : List Char) :
    readCodes (escapeDataChar c ++ rest) = c :: readCodes rest := by
  unfold escapeDataChar
  split
  · exact readCodes_code (by decide) rest
  · exact readCodes_code (by decide) rest
  · exact readCodes_code (by decide) rest
  · next hpercent _ _ => exact readCodes_cons hpercent rest

theorem readCodes_escapePropertyChar (c : Char) (rest : List Char) :
    readCodes (escapePropertyChar c ++ rest) = c :: readCodes rest := by
  unfold escapePropertyChar
  split
  · exact readCodes_code (by decide) rest
  · exact readCodes_code (by decide) rest
  · exact readCodes_escapeDataChar c rest

theorem readCodes_flatMap {escapeChar : Char → List Char}
    (h : ∀ c rest, readCodes (escapeChar c ++ rest) = c :: readCodes rest) (text : List Char) :
    readCodes (text.flatMap escapeChar) = text := by
  induction text with
  | nil => rfl
  | cons c text ih => rw [List.flatMap_cons, h, ih]

theorem decode_escapeData (s : String) : decode (escapeData s) = s := by
  rw [decode, toList_escapeData, readCodes_flatMap readCodes_escapeDataChar, String.ofList_toList]

theorem decode_escapeProperty (s : String) : decode (escapeProperty s) = s := by
  rw [decode, toList_escapeProperty, readCodes_flatMap readCodes_escapePropertyChar,
    String.ofList_toList]

/-! ### What is left in encoded texts -/

/-- A character that is in no code is left only where it stands for itself. -/
theorem not_mem_escapeDataChar {stop c : Char} (hcode : stop ∉ "%025AD".toList)
    (hsame : stop = c → c = '\r' ∨ c = '\n') : stop ∉ escapeDataChar c := by
  have hcodes : ∀ code ∈ ["%25", "%0D", "%0A"], stop ∉ code.toList := by
    intro code hmem hstop
    have hall : ∀ code ∈ ["%25", "%0D", "%0A"], ∀ d ∈ code.toList, d ∈ "%025AD".toList := by simp
    exact hcode (hall code hmem stop hstop)
  unfold escapeDataChar
  split
  · exact hcodes "%25" (by simp)
  · exact hcodes "%0D" (by simp)
  · exact hcodes "%0A" (by simp)
  · next hreturn hfeed =>
    intro hmem
    have hsame := hsame (List.mem_singleton.1 hmem)
    exact hsame.elim hreturn hfeed

theorem not_mem_escapePropertyChar {stop : Char} (h : stop ∈ ['\r', '\n', ':', ',']) (c : Char) :
    stop ∉ escapePropertyChar c := by
  have hcodes : ∀ stop ∈ ['\r', '\n', ':', ','], stop ∉ "%3A".toList ∧ stop ∉ "%2C".toList ∧
      stop ∉ "%025AD".toList := by simp
  unfold escapePropertyChar
  split
  · exact (hcodes stop h).1
  · exact (hcodes stop h).2.1
  · next hcolon hcomma =>
    apply not_mem_escapeDataChar (hcodes stop h).2.2
    rintro rfl
    have hne : stop ≠ ':' ∧ stop ≠ ',' := ⟨hcolon, hcomma⟩
    simpa [hne] using h

theorem oneLine_escapeData (s : String) : OneLine (escapeData s).toList := by
  have hstop : ∀ stop ∈ ['\r', '\n'], stop ∉ (escapeData s).toList := by
    intro stop hstop hmem
    rw [toList_escapeData] at hmem
    obtain ⟨c, -, hc⟩ := List.mem_flatMap.1 hmem
    have hcodes : ∀ stop ∈ ['\r', '\n'], stop ∉ "%025AD".toList := by simp
    refine not_mem_escapeDataChar (hcodes stop hstop) ?_ hc
    rintro rfl
    simpa using hstop
  exact ⟨hstop '\n' (by simp), hstop '\r' (by simp)⟩

theorem not_mem_escapeProperty {stop : Char} (h : stop ∈ ['\r', '\n', ':', ',']) (s : String) :
    stop ∉ (escapeProperty s).toList := by
  intro hmem
  rw [toList_escapeProperty] at hmem
  obtain ⟨c, -, hc⟩ := List.mem_flatMap.1 hmem
  exact not_mem_escapePropertyChar h c hc

/-! ### Commands -/

/-- What a workflow command shows. -/
structure Annotation where
  level : String
  path : String
  position : Position
  message : String
  deriving DecidableEq, Repr

/-- The text between a mark and the first character that ends a field, and the text behind that. -/
def field? (mark : String) (stop : Char) (text : List Char) : Option (String × List Char) :=
  (text.dropPrefix? mark.toList).map fun rest =>
    (String.ofList (rest.takeWhile (· ≠ stop)), (rest.dropWhile (· ≠ stop)).tail)

/-- The annotation that a line of the report stands for. -/
def readLine? (line : String) : Option Annotation := do
  let (level, text) ← field? "::" ' ' line.toList
  let (path, text) ← field? "file=" ',' text
  let (line, text) ← field? "line=" ',' text
  let (column, text) ← field? "col=" ':' text
  let message ← text.dropPrefix? [':']
  let position : Position := ⟨← Text.number? 10 line.toList, ← Text.number? 10 column.toList⟩
  return ⟨level, decode path, position, decode (String.ofList message)⟩

theorem field?_append (mark : String) {stop : Char} {value : List Char} (h : stop ∉ value)
    (rest : List Char) :
    field? mark stop (mark.toList ++ (value ++ stop :: rest)) = some (String.ofList value, rest) := by
  have hmark : (mark.toList ++ (value ++ stop :: rest)).dropPrefix? mark.toList =
      some (value ++ stop :: rest) :=
    List.dropPrefix?_eq_some_iff.2 ⟨mark.toList, rfl, beq_self_eq_true _⟩
  have hvalue : ∀ c ∈ value, decide (c ≠ stop) = true := by
    intro c hc
    rw [decide_eq_true_iff]
    rintro rfl
    exact h hc
  rw [field?, hmark, Option.map_some, List.takeWhile_append_of_pos hvalue,
    List.dropWhile_append_of_pos hvalue]
  simp

theorem toList_findingLine (v : Violation) : (findingLine v).toList =
    "::".toList ++ ((level v.severity).toList ++ ' ' ::
      ("file=".toList ++ ((escapeProperty v.path).toList ++ ',' ::
      ("line=".toList ++ ((toString v.position.line).toList ++ ',' ::
      ("col=".toList ++ ((toString v.position.column).toList ++ ':' ::
      ([':'] ++ (escapeData v.message).toList)))))))) := by
  unfold findingLine
  simp only [String.toList_append, List.append_assoc]
  rfl

theorem readLine?_findingLine (v : Violation) :
    readLine? (findingLine v) = some ⟨level v.severity, v.path, v.position, v.message⟩ := by
  have hlevel : ' ' ∉ (level v.severity).toList := by
    cases v.severity <;> decide
  have hpath : ',' ∉ (escapeProperty v.path).toList := not_mem_escapeProperty (by simp) v.path
  have hline := Text.not_mem_toString (show ','.isDigit = false by decide) v.position.line
  have hcolumn := Text.not_mem_toString (show ':'.isDigit = false by decide) v.position.column
  have hmessage : ([':'] ++ (escapeData v.message).toList).dropPrefix? [':'] =
      some (escapeData v.message).toList :=
    List.dropPrefix?_eq_some_iff.2 ⟨[':'], rfl, rfl⟩
  rw [readLine?, toList_findingLine, field?_append _ hlevel]
  dsimp only [Option.bind_eq_bind, Option.bind_some]
  rw [field?_append _ hpath]
  dsimp only [Option.bind_some]
  rw [field?_append _ hline]
  dsimp only [Option.bind_some]
  rw [field?_append _ hcolumn]
  dsimp only [Option.bind_some]
  rw [hmessage]
  simp only [Option.bind_some, String.ofList_toList, Text.number?_toString, decode_escapeProperty,
    decode_escapeData]
  rfl

theorem not_mem_findingLine (v : Violation) : '\n' ∉ (findingLine v).toList := by
  have hlevel : '\n' ∉ (level v.severity).toList := by
    cases v.severity <;> decide
  have hpath : '\n' ∉ (escapeProperty v.path).toList := not_mem_escapeProperty (by simp) v.path
  have hmessage := (oneLine_escapeData v.message).1
  have hline := (oneLine_toString v.position.line).1
  have hcolumn := (oneLine_toString v.position.column).1
  rw [toList_findingLine]
  simp [-Nat.toString_eq_repr, hlevel, hpath, hline, hcolumn, hmessage]

end Report.Github

open Report.Github in
/-- **Annotations say what was found.** An encoded path has no line break, colon or comma left, an encoded
message no line break, and reading the codes gives the text back. So the report for workflows has one
line for each finding, in order, and from each line the path, the line, the column, the message and the
level of the finding can be read. The level tells severities apart, other than those that are neither an
error nor a warning. -/
theorem annotations_readable :
    (∀ text, (∀ stop ∈ ['\r', '\n', ':', ','], stop ∉ (escapeProperty text).toList) ∧
      (∀ stop ∈ ['\r', '\n'], stop ∉ (escapeData text).toList) ∧
      decode (escapeProperty text) = text ∧ decode (escapeData text) = text) ∧
    (∀ found : List Violation,
      Text.cutString '\n' (Reporter.github.render found) = lines found ++ [""] ∧
        (lines found).map readLine? = found.map fun v => some
          ⟨level v.severity, v.path, v.position, v.message⟩) ∧
    ∀ s t, level s = level t ↔ s = t ∨ s < .warning ∧ t < .warning := by
  refine ⟨fun text => ⟨fun stop hstop => not_mem_escapeProperty hstop text, fun stop hstop => ?_,
    decode_escapeProperty text, decode_escapeData text⟩, fun found => ⟨?_, ?_⟩, ?_⟩
  · have honeLine := oneLine_escapeData text
    rcases List.mem_pair.1 hstop with rfl | rfl
    · exact honeLine.2
    · exact honeLine.1
  · have hlines : ∀ line ∈ lines found, '\n' ∉ line.toList := by
      intro line hline
      obtain ⟨v, -, rfl⟩ := List.mem_map.1 hline
      exact not_mem_findingLine v
    have hcut : Text.cutAt '\n' (Reporter.github.render found).toList =
        (lines found).map String.toList ++ [[]] := cutAt_unlines hlines
    rw [Text.cutString, hcut, List.map_append, List.map_map]
    simp [Function.comp_def]
  · rw [lines, List.map_map]
    exact List.map_congr_left fun v _ => readLine?_findingLine v
  · intro s t
    cases s <;> cases t <;> decide

open Report.Github in
/-- A finding whose path and message look like parts of a command. -/
theorem annotations_readable_imitation :
    let v : Violation := ⟨"a,line=7:%0A", ⟨1, 0⟩, "::error file=b\n50%", .info⟩
    ',' ∉ (escapeProperty v.path).toList ∧
      Text.cutString '\n' (Reporter.github.render [v]) =
        ["::notice file=a%2Cline=7%3A%250A,line=1,col=0::::error file=b%0A50%25", ""] ∧
      (lines [v]).map readLine? = [some ⟨"notice", v.path, v.position, v.message⟩] := by
  intro v
  obtain ⟨htexts, hreport, -⟩ := annotations_readable
  obtain ⟨hlines, hread⟩ := hreport [v]
  refine ⟨(htexts v.path).1 ',' (by simp), ?_, hread⟩
  rw [hlines]
  decide +kernel

end TemplateLint
