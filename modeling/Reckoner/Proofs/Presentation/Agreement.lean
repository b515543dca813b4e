import Mathlib.Data.List.DropRight
import Mathlib.Data.List.TakeDrop
import Reckoner.Presentation.Entries
import Reckoner.Presentation.Export
import Reckoner.Presentation.Rows
import Reckoner.Proofs.Document.Results

/-!
# Presentations of one pass

A pass is presented as entries, as rows and as an export.  Each has one item for every line, and all of them give the
number of a line the same text.  With the standard settings that text is neither empty nor the mark of an error, and it
has no line break, so every item tells what kind of result it presents.
-/

namespace Reckoner.Presentation

open Reckoner.Document Reckoner.Expression Reckoner.Number Reckoner.Text

variable {settings : Settings}

/-! ### Formatted numbers -/

section Formatting

variable {separator raw mantissa : List Char}

theorem partition_append (sep : Char) (s : List Char) :
    (partition sep s).1 ++ ((partition sep s).2.1 ++ (partition sep s).2.2) = s := by
  have hspan : s.takeWhile (· ≠ sep) ++ s.dropWhile (· ≠ sep) = s := List.takeWhile_append_dropWhile
  unfold partition
  rw [List.span_eq_takeWhile_dropWhile]
  generalize s.takeWhile (· ≠ sep) = before, s.dropWhile (· ≠ sep) = after at hspan ⊢
  cases after <;> exact hspan

theorem trimFraction_eq (mantissa : List Char) : trimFraction mantissa =
    if mantissa.contains '.' then (mantissa.rdropWhile (· = '0')).rdropWhile (· = '.') else mantissa := by
  simp [trimFraction, List.rdropWhile]

theorem trimFraction_subset (mantissa : List Char) : trimFraction mantissa ⊆ mantissa := by
  rw [trimFraction_eq]
  split_ifs
  · exact ((List.rdropWhile_prefix _ _).trans (List.rdropWhile_prefix _ _)).subset
  · exact List.Subset.refl _

/-- What does not begin with its point does not lose everything with the zeros of its fraction. -/
theorem trimFraction_ne_nil (hsome : mantissa ≠ []) (hfirst : mantissa.head? ≠ some '.') :
    trimFraction mantissa ≠ [] := by
  rw [trimFraction_eq]
  split_ifs with hpoint
  · rw [Ne, List.rdropWhile_eq_nil_iff]
    intro hall
    cases hkept : mantissa.rdropWhile (· = '0') with
    | nil =>
      have hzero := List.rdropWhile_eq_nil_iff.mp hkept '.' (List.contains_iff_mem.mp hpoint)
      simp at hzero
    | cons first rest =>
      obtain ⟨tail, htail⟩ := List.rdropWhile_prefix (fun c : Char => decide (c = '0')) mantissa
      rw [hkept] at hall htail
      have hdot : first = '.' := by simpa using hall first List.mem_cons_self
      rw [← htail, hdot] at hfirst
      exact hfirst rfl
  · exact hsome

theorem groupRuns_subset (separator : List Char) (afterWord : Bool) (s : List Char) :
    (groupRuns separator afterWord s).2 ⊆ s ++ separator := by
  induction s generalizing afterWord with
  | nil => simp [groupRuns]
  | cons c rest ih =>
    have hlater := ih (isWord c)
    intro d hd
    simp only [groupRuns] at hd
    split_ifs at hd <;> grind

theorem groupDigits_eq_nil (h : groupDigits separator raw = []) : raw = [] := by
  cases raw with
  | nil => rfl
  | cons c rest =>
    simp only [groupDigits, groupRuns, Bool.false_and, Bool.false_eq_true, if_false] at h
    cases h

theorem formatWith_subset (separator raw : List Char) : formatWith separator raw ⊆ raw ++ separator := by
  have hraw := partition_append 'e' raw
  have htrimmed := trimFraction_subset (partition 'e' raw).1
  have hparts := partition_append '.' (trimFraction (partition 'e' raw).1)
  have hgrouped := groupRuns_subset separator false (partition '.' (trimFraction (partition 'e' raw).1)).1
  intro c hc
  simp only [formatWith] at hc
  split at hc <;> grind [groupDigits]

theorem formatWith_ne_nil (hsome : raw ≠ []) (hfirst : raw.head? ≠ some '.') : formatWith separator raw ≠ [] := by
  have hraw := partition_append 'e' raw
  intro hnil
  simp only [formatWith] at hnil
  split at hnil
  · rename_i hsuffix
    rw [hsuffix, List.append_nil] at hraw
    rw [hraw] at hnil
    obtain ⟨hwhole, hfraction⟩ := List.append_eq_nil_iff.mp hnil
    obtain ⟨hwhole, hpoint⟩ := List.append_eq_nil_iff.mp hwhole
    have hparts := partition_append '.' (trimFraction raw)
    rw [groupDigits_eq_nil hwhole, hpoint, hfraction] at hparts
    exact trimFraction_ne_nil hsome hfirst hparts.symm
  · rename_i hsuffix
    exact hsuffix (List.append_eq_nil_iff.mp hnil).2

end Formatting

/-! ### Formatted results -/

theorem head?_of_isDigits {s : List Char} (h : IsDigits s) (tail : List Char) : (s ++ tail).head? ≠ some '.' := by
  obtain ⟨first, rest, rfl⟩ := List.exists_cons_of_ne_nil h.1
  rintro heq
  obtain rfl : first = '.' := by simpa using heq
  exact absurd (h.2 '.' List.mem_cons_self) (by decide)

/-- A number that is shown begins with a digit, a sign or a letter. -/
theorem first_of_isShown {text : String} (h : IsShown text) : text.toList ≠ [] ∧ text.toList.head? ≠ some '.' := by
  cases h with
  | infinity => decide
  | negativeInfinity => decide
  | numeral h =>
    generalize text.toList = s at h
    cases h with
    | negative h => simp
    | positive h =>
      have hdigit {d : Char} (hd : isAsciiDigit d) : d ≠ '.' := by
        rintro rfl
        exact absurd hd (by decide)
      rcases h with (hfront | ⟨hfront, _⟩) | (⟨hd, _, _⟩ | ⟨hd, _, _, _⟩)
      · exact ⟨hfront.1, by simpa using head?_of_isDigits hfront []⟩
      · exact ⟨by simp [hfront.1], head?_of_isDigits hfront _⟩
      · exact ⟨by simp, by simpa using hdigit hd⟩
      · exact ⟨by simp, by simpa using hdigit hd⟩

/-- With the standard settings, a formatted number is neither empty nor the mark of an error, and it is one line. -/
theorem format_standard {text : String} (h : IsShown text) :
    format .standard text ≠ "" ∧ format .standard text ≠ errorMark ∧ '\n' ∉ (format .standard text).toList := by
  have hcharacters : ∀ c ∈ (format .standard text).toList, isDisplayCharacter c ∨ c = ',' := by
    intro c hc
    rw [format, String.toList_ofList] at hc
    rcases List.mem_append.mp (formatWith_subset _ _ hc) with hc | hc
    · exact .inl (h.isDisplayCharacter c hc)
    · exact .inr (by simpa [Settings.standard] using hc)
  refine ⟨?_, ?_, ?_⟩
  · intro hempty
    have hnil : (format .standard text).toList = [] := by rw [hempty]; rfl
    rw [format, String.toList_ofList] at hnil
    exact formatWith_ne_nil (first_of_isShown h).1 (first_of_isShown h).2 hnil
  · intro hmark
    rw [hmark] at hcharacters
    exact absurd (hcharacters '⚠' (by decide)) (by decide)
  · intro hnewline
    exact absurd (hcharacters '\n' hnewline) (by decide)

/-! ### Items of the presentations -/

theorem getElem?_rowsOf (settings : Settings) (results : List LineResult) (previous : List (Option String)) (k : Nat) :
    (rowsOf settings results previous)[k]? = results[k]?.map fun r => rowOf settings r previous[k]?.join := by
  induction results generalizing previous k with
  | nil => rfl
  | cons result results ih =>
    cases previous <;> cases k <;> simp [rowsOf, ih]

theorem length_rowsOf (settings : Settings) (results : List LineResult) (previous : List (Option String)) :
    (rowsOf settings results previous).length = results.length := by
  induction results generalizing previous with
  | nil => rfl
  | cons result results ih => cases previous <;> simp [rowsOf, ih]

/-- A line of the export without its end. -/
def exportedLine (settings : Settings) (line : String) (result : Option LineResult) : String :=
  match result.bind LineResult.text? with
  | some text => line ++ exportArrow ++ format settings text
  | none => line

theorem exportLine_eq (settings : Settings) (line : String) (result : Option LineResult) :
    exportLine settings line result = exportedLine settings line result ++ "\n" := by
  unfold exportLine exportedLine
  cases result.bind LineResult.text? <;> rfl

def exportedLines (settings : Settings) (lines : List String) (results : List LineResult) : List String :=
  lines.mapIdx fun k line => exportedLine settings line results[k]?

theorem exportLines_eq (settings : Settings) (lines : List String) (results : List LineResult) :
    exportLines settings lines results = (exportedLines settings lines results).map (· ++ "\n") := by
  induction lines generalizing results with
  | nil => rfl
  | cons line lines ih =>
    cases results <;> simp [exportLines, exportLine_eq, exportedLines, ih, List.mapIdx_cons]

/-- Lines with their ends, one behind the other, are these lines and an empty one. -/
theorem linesOf_join {lines : List String} (h : ∀ line ∈ lines, '\n' ∉ line.toList) :
    linesOf (String.join (lines.map (· ++ "\n"))) = lines ++ [""] := by
  have hjoin : (String.join (lines.map (· ++ "\n"))).toList =
      ['\n'].intercalate (lines.map String.toList ++ [[]]) := by
    induction lines with
    | nil => rfl
    | cons line lines ih =>
      have hrest := ih fun other hother => h other (List.mem_cons_of_mem line hother)
      simp_all [List.intercalate_cons_of_ne_nil]
  have hpieces : ∀ piece ∈ lines.map String.toList ++ [[]], '\n' ∉ piece := by
    intro piece hpiece
    rcases List.mem_append.mp hpiece with hpiece | hpiece
    · obtain ⟨line, hline, rfl⟩ := List.mem_map.mp hpiece
      exact h line hline
    · simp_all
  rw [linesOf, splitAt_eq_splitOn, hjoin, List.splitOn_intercalate _ hpieces (by simp)]
  simp [Function.comp_def]

/-! ### Agreement -/

/-- How the result of a line is presented by its entry, by its row and by its line of the export. -/
structure AgreeOn (line : String) (result : LineResult) (entry : Entry) (row : Row) (exported : String) : Prop where
  mark : row.text = errorMark ↔ result.isError
  blank : row.text = "" ↔ result.isBlank
  formatted : ¬ result.isError → ¬ result.isBlank → entry.formatted? = some row.text
  behind : exported = line ++ exportArrow ++ row.text ↔ result.text?.isSome
  copied : exported = line ↔ result.text? = none

theorem ne_append_arrow (line shown : String) : line ≠ line ++ exportArrow ++ shown := by
  intro heq
  have hlength := congrArg String.length heq
  have harrow : 0 < exportArrow.length := by decide
  rw [String.length_append, String.length_append] at hlength
  omega

theorem isShown_of_isWellFormed {text : String} {numeric : Double} (h : (LineResult.display text numeric).IsWellFormed) :
    IsShown text := by
  cases h with
  | display text' htext _ hshown =>
    cases htext
    exact hshown
  | blank hblank => cases hblank
  | error message htext => cases htext

theorem agreeOn_of_isWellFormed {result : LineResult} (h : result.IsWellFormed) (line : String)
    (before : Option String) : AgreeOn line result (entryOf .standard result) (rowOf .standard result before)
      (exportedLine .standard line (some result)) := by
  cases result with
  | blank =>
    have hmark : "" ≠ errorMark := by decide
    exact ⟨iff_of_false hmark Bool.false_ne_true, iff_of_true rfl rfl, fun _ hblank => absurd rfl hblank,
      iff_of_false (ne_append_arrow line "") Bool.false_ne_true, iff_of_true rfl rfl⟩
  | error message =>
    have hmark : errorMark ≠ "" := by decide
    exact ⟨iff_of_true rfl rfl, iff_of_false hmark Bool.false_ne_true, fun herror => absurd rfl herror,
      iff_of_false (ne_append_arrow line errorMark) Bool.false_ne_true, iff_of_true rfl rfl⟩
  | display text numeric =>
    obtain ⟨hsome, hmark, -⟩ := format_standard (isShown_of_isWellFormed h)
    exact ⟨iff_of_false hmark Bool.false_ne_true, iff_of_false hsome Bool.false_ne_true, fun _ _ => rfl,
      iff_of_true rfl rfl, iff_of_false (ne_append_arrow line _).symm (Option.some_ne_none _)⟩

theorem changed_rowOf (settings : Settings) (result : LineResult) (before : Option String) :
    (rowOf settings result before).changed ↔ ∃ text, result.text? = some text ∧ before ≠ some text := by
  cases result <;> simp [rowOf, LineResult.text?]

/-- A line of the export is one line. -/
theorem not_mem_exportedLine {line : String} {result : LineResult} (hline : '\n' ∉ line.toList)
    (h : result.IsWellFormed) : '\n' ∉ (exportedLine .standard line (some result)).toList := by
  cases result with
  | blank => exact hline
  | error message => exact hline
  | display text numeric =>
    have harrow : '\n' ∉ exportArrow.toList := by decide
    obtain ⟨-, -, hformatted⟩ := format_standard (isShown_of_isWellFormed h)
    simp [exportedLine, LineResult.text?, hline, harrow, hformatted]

theorem exists_result (settings : Settings) {text line : String} {k : Nat} (h : (linesOf text)[k]? = some line) :
    ∃ result, (calculate settings text)[k]? = some result ∧ result.IsWellFormed := by
  obtain ⟨context, hcontext⟩ : ∃ context, context = contextAfter settings .empty ((linesOf text).take k) := ⟨_, rfl⟩
  refine ⟨(evaluateLine settings context line).result, ?_, isWellFormed_evaluateTrimmed settings context _⟩
  simp [calculate, Document.pass, getElem?_evaluateLines, h, hcontext]

theorem length_calculate (settings : Settings) (text : String) :
    (calculate settings text).length = (linesOf text).length := by
  simp [calculate, Document.pass]

theorem linesOf_exportDocument (text : String) : linesOf (exportDocument .standard text none) =
    exportedLines .standard (linesOf text) (calculate .standard text) ++ [""] := by
  rw [exportDocument, Option.getD_none, exportText, exportLines_eq]
  apply linesOf_join
  intro item hitem
  obtain ⟨k, hk⟩ := List.mem_iff_getElem?.mp hitem
  rw [exportedLines, List.getElem?_mapIdx, Option.map_eq_some_iff] at hk
  obtain ⟨line, hline, rfl⟩ := hk
  obtain ⟨result, hresult, hwellFormed⟩ := exists_result .standard hline
  rw [hresult]
  exact not_mem_exportedLine (not_mem_of_mem_linesOf (List.mem_of_getElem? hline)) hwellFormed

/-- Beside the texts that it shows itself, no number of a document counts as changed. -/
theorem changed_of_mem_rowsOf {results : List LineResult} {row : Row}
    (h : row ∈ rowsOf settings results (results.map LineResult.text?)) : row.changed = false := by
  obtain ⟨k, hk⟩ := List.mem_iff_getElem?.mp h
  rw [getElem?_rowsOf, List.getElem?_map] at hk
  cases hresult : results[k]? with
  | none => simp [hresult] at hk
  | some result =>
    obtain rfl : rowOf settings result result.text? = row := by simpa [hresult] using hk
    cases result <;> simp [rowOf, LineResult.text?]

/-- The entries, the rows and the export of a document have one item for each of its lines, and these agree.  A row is
    flagged exactly if its number was not shown at its place before. -/
theorem presentations_agree (text : String) :
    let results := calculate .standard text
    exportDocument .standard text none = exportDocument .standard text (some results) ∧
    results.length = (linesOf text).length ∧ (entriesOf .standard text).length = (linesOf text).length ∧
    (∀ row ∈ rowsOf .standard results (results.map LineResult.text?), row.changed = false) ∧
    ∃ exported : List String, exported.length = (linesOf text).length ∧
      linesOf (exportDocument .standard text none) = exported ++ [""] ∧
      ∀ previous : List (Option String), (rowsOf .standard results previous).length = (linesOf text).length ∧
        ∀ (k : Nat) (line : String), (linesOf text)[k]? = some line →
          ∃ result entry row item, results[k]? = some result ∧ (entriesOf .standard text)[k]? = some entry ∧
            (rowsOf .standard results previous)[k]? = some row ∧ exported[k]? = some item ∧
            AgreeOn line result entry row item ∧
            (row.changed ↔ ∃ shown, result.text? = some shown ∧ previous[k]?.join ≠ some shown) := by
  intro results
  have hlength : results.length = (linesOf text).length := length_calculate .standard text
  refine ⟨rfl, hlength, by rw [entriesOf, List.length_map]; exact hlength, fun row => changed_of_mem_rowsOf,
    exportedLines .standard (linesOf text) results, List.length_mapIdx, linesOf_exportDocument text, fun previous => ?_⟩
  refine ⟨(length_rowsOf _ _ _).trans hlength, fun k line hline => ?_⟩
  obtain ⟨result, hresult, hwellFormed⟩ := exists_result .standard hline
  refine ⟨result, entryOf .standard result, rowOf .standard result previous[k]?.join,
    exportedLine .standard line (some result), hresult, ?_, ?_, ?_, agreeOn_of_isWellFormed hwellFormed line _,
    changed_rowOf _ _ _⟩
  · simp only [entriesOf, List.getElem?_map, hresult, Option.map_some]
  · simp only [results, getElem?_rowsOf, hresult, Option.map_some]
  · simp only [results, exportedLines, List.getElem?_mapIdx, hline, hresult, Option.map_some]

end Reckoner.Presentation
