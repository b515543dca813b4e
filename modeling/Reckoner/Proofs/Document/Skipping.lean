import Reckoner.Proofs.Document.Naming

/-!
# Lines that are passed over

Headings, notes and rulers can stand anywhere in a document.  A line that is no calculation in the state that the lines
above have left shows nothing and leaves the state as it is, so the lines below it are evaluated as if it were not
there: with the same previous answer, the same variables and the same aliases.
-/

namespace Reckoner.Document

open Reckoner.Text

variable {settings : Settings} {context : Context} {first skipped second : List String}

/-! ### Runs of lines that are passed over -/

theorem evaluateLine_of_passedOver {line : String} (h : classify context (trim line.toList) ≠ .evaluate) :
    evaluateLine settings context line = ⟨.blank, context, []⟩ := by
  rw [evaluateLine, evaluateTrimmed, if_pos h]

/-- The state does not change on the way, so all the lines of the run are classified in the state at its beginning. -/
theorem contextAfter_of_passedOver (h : ∀ line ∈ skipped, classify context (trim line.toList) ≠ .evaluate) :
    contextAfter settings context skipped = context := by
  induction skipped with
  | nil => rfl
  | cons line rest ih =>
    rw [List.forall_mem_cons] at h
    rw [contextAfter_cons, evaluateLine_of_passedOver h.1, ih h.2]

theorem evaluateLines_of_passedOver (h : ∀ line ∈ skipped, classify context (trim line.toList) ≠ .evaluate) :
    evaluateLines settings context skipped = skipped.map fun _ => ⟨.blank, context, []⟩ := by
  induction skipped with
  | nil => rfl
  | cons line rest ih =>
    rw [List.forall_mem_cons] at h
    simp only [evaluateLines, evaluateLine_of_passedOver h.1, ih h.2, List.map_cons]

theorem requests_of_passedOver (h : ∀ line ∈ skipped, classify context (trim line.toList) ≠ .evaluate) :
    requests settings context skipped = [] := by
  induction skipped with
  | nil => rfl
  | cons line rest ih =>
    rw [List.forall_mem_cons] at h
    have hnone : request? settings context (trim line.toList) = none := by simp [request?, h.1]
    simp only [requests, hnone, evaluateLine_of_passedOver h.1, ih h.2, Option.toList_none, List.append_nil]

theorem requests_append (first second : List String) :
    requests settings context (first ++ second) =
      requests settings context first ++ requests settings (contextAfter settings context first) second := by
  induction first generalizing context with
  | nil => rfl
  | cons line rest ih => simp only [List.cons_append, requests, ih, contextAfter_cons, List.append_assoc]

/-! ### Runs around them -/

theorem contextAfter_insert
    (h : ∀ line ∈ skipped, classify (contextAfter settings context first) (trim line.toList) ≠ .evaluate) :
    contextAfter settings context (first ++ skipped ++ second) = contextAfter settings context (first ++ second) := by
  rw [contextAfter_append, contextAfter_append, contextAfter_of_passedOver h, contextAfter_append]

theorem evaluateLines_insert
    (h : ∀ line ∈ skipped, classify (contextAfter settings context first) (trim line.toList) ≠ .evaluate) :
    evaluateLines settings context (first ++ skipped ++ second) =
      evaluateLines settings context first ++
        skipped.map (fun _ => ⟨.blank, contextAfter settings context first, []⟩) ++
        (evaluateLines settings context (first ++ second)).drop first.length := by
  have hbehind : (evaluateLines settings context (first ++ second)).drop first.length =
      evaluateLines settings (contextAfter settings context first) second := by
    rw [evaluateLines_append]
    exact List.drop_left' (length_evaluateLines first)
  rw [evaluateLines_append, evaluateLines_append, evaluateLines_of_passedOver h, contextAfter_append,
    contextAfter_of_passedOver h, hbehind]

theorem requests_insert
    (h : ∀ line ∈ skipped, classify (contextAfter settings context first) (trim line.toList) ≠ .evaluate) :
    requests settings context (first ++ skipped ++ second) = requests settings context (first ++ second) := by
  rw [requests_append, requests_append, requests_of_passedOver h, contextAfter_append, contextAfter_of_passedOver h,
    List.append_nil, requests_append]

/-- Lines that are passed over in the middle of a document are blank, and nothing else depends on them: every other line
    has the report that it has without them, with the state that it leaves, and the engine is asked the same. -/
theorem passed_over_lines_are_transparent (settings : Settings) (first skipped second : List String)
    (h : ∀ line ∈ skipped, classify (contextAfter settings .empty first) (trim line.toList) ≠ .evaluate) :
    evaluateLines settings .empty (first ++ skipped ++ second) =
      evaluateLines settings .empty first ++
        skipped.map (fun _ => ⟨.blank, contextAfter settings .empty first, []⟩) ++
        (evaluateLines settings .empty (first ++ second)).drop first.length ∧
    requests settings .empty (first ++ skipped ++ second) = requests settings .empty (first ++ second) ∧
    contextAfter settings .empty (first ++ skipped ++ second) = contextAfter settings .empty (first ++ second) ∧
    ∀ text thinned, linesOf text = first ++ skipped ++ second → linesOf thinned = first ++ second →
      calculate settings text =
        (calculate settings thinned).take first.length ++ skipped.map (fun _ => .blank) ++
          (calculate settings thinned).drop first.length := by
  refine ⟨evaluateLines_insert h, requests_insert h, contextAfter_insert h, ?_⟩
  intro text thinned htext hthinned
  have hfront : (evaluateLines settings .empty (first ++ second)).take first.length =
      evaluateLines settings .empty first := by
    rw [take_evaluateLines, List.take_left]
  simp only [calculate, pass, htext, hthinned, evaluateLines_insert h, List.map_append, List.map_map, List.map_take,
    List.map_drop, ← hfront]
  rfl

theorem notes_between_rent_and_tax_are_transparent :
    (∀ line ∈ ["# note", "  ", "----", "before tax"],
      classify (contextAfter .standard .empty ["房租 = 5"]) (trim line.toList) ≠ .evaluate) ∧
    calculate .standard "房租 = 5\n# note\n  \n----\nbefore tax\n* 2\n税 = ans + 房租" =
      (calculate .standard "房租 = 5\n* 2\n税 = ans + 房租").take 1 ++ [.blank, .blank, .blank, .blank] ++
        (calculate .standard "房租 = 5\n* 2\n税 = ans + 房租").drop 1 := by
  have hskipped : ∀ line ∈ ["# note", "  ", "----", "before tax"],
      classify (contextAfter .standard .empty ["房租 = 5"]) (trim line.toList) ≠ .evaluate := by
    decide +kernel
  exact ⟨hskipped,
    (passed_over_lines_are_transparent .standard ["房租 = 5"] ["# note", "  ", "----", "before tax"]
      ["* 2", "税 = ans + 房租"] hskipped).2.2.2 _ _ (by decide +kernel) (by decide +kernel)⟩

end Reckoner.Document
