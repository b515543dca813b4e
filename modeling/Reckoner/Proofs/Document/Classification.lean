import Reckoner.Proofs.Document.Naming

/-!
# Kinds of lines along a run

A run only adds to the state: a variable that is bound stays bound, and the table of aliases grows at its end.  The kind
of a line depends on the state through nothing but whether the whole line is a name that the state knows.  So it can
change in one way only: prose becomes a calculation once the line has become a name.
-/

namespace Reckoner.Document

open Reckoner.Expression Reckoner.Text

variable {settings : Settings} {context before middle after : Context} {line : List Char}

/-! ### What a run adds -/

/-- A state holds what an earlier one held: its variables are bound, whatever their values, and its aliases are the
    first ones of the table. -/
structure Extends (before after : Context) : Prop where
  bound : ∀ name, before.scope.binds name → after.scope.binds name
  aliases : before.aliases.names <+: after.aliases.names

theorem Extends.refl (context : Context) : Extends context context where
  bound _ h := h
  aliases := List.prefix_rfl

theorem Extends.trans (h : Extends before middle) (h' : Extends middle after) : Extends before after where
  bound name hname := h'.bound name (h.bound name hname)
  aliases := h.aliases.trans h'.aliases

theorem binds_assign {scope : Scope} {other : String} (h : scope.binds other) (name : String) (v : Value) :
    (scope.assign name v).binds other := by
  by_cases hother : other = name
  · subst hother
    simp [Scope.binds, Scope.find?_assign_self]
  · rwa [Scope.binds, Scope.find?_assign_of_ne scope v hother]

/-- The engine binds a name or leaves the scope alone. -/
theorem binds_evaluateExpression {scope : Scope} {name : String} (h : scope.binds name) (settings : Settings)
    (text : List Char) : (evaluateExpression settings scope text).scope.binds name := by
  have hcases := evaluates_evaluateExpression settings scope text
  generalize evaluateExpression settings scope text = report at hcases
  cases hcases with
  | failed => exact h
  | answered => exact h
  | assigned target v => exact binds_assign h target v

theorem extends_bindAnswer (context : Context) : Extends context context.bindAnswer := by
  unfold Context.bindAnswer
  split
  · constructor
    · intro name hname
      exact binds_assign hname "ans" _
    · exact List.prefix_rfl
  · exact .refl context

/-- A request adds to the state, also when it fails. -/
theorem extends_left {r : Request} (h : request? settings context line = some r) :
    Extends context (r.left settings) := by
  obtain ⟨-, -, -, hr⟩ := prepared_of_request? h
  have hgrows := growsBy_ofAssembled context r.assembled
  rw [← hr] at hgrows
  constructor
  · intro name hname
    apply binds_evaluateExpression
    rw [hr]
    exact (extends_bindAnswer context).bound name hname
  · exact hgrows.isPrefix

theorem extends_evaluateLine (settings : Settings) (context : Context) (line : String) :
    Extends context (evaluateLine settings context line).context := by
  have hstep := step_evaluateTrimmed settings context (trim line.toList)
  unfold evaluateLine
  generalize evaluateTrimmed settings context (trim line.toList) = report at hstep ⊢
  cases hstep with
  | passedOver => exact .refl context
  | refused => exact .refl context
  | failed r hrequest => exact extends_left hrequest
  | silent r hrequest => exact extends_left hrequest
  | undisplayed r hrequest => exact extends_left hrequest
  | displayed r hrequest =>
    have hleft := extends_left hrequest
    exact ⟨hleft.bound, hleft.aliases⟩

theorem extends_contextAfter (settings : Settings) (context : Context) (lines : List String) :
    Extends context (contextAfter settings context lines) := by
  induction lines generalizing context with
  | nil => exact .refl context
  | cons line rest ih => exact (extends_evaluateLine settings context line).trans (ih _)

/-! ### Kinds in two states -/

/-- The rules for the kind of a line, the first of which decides. -/
theorem classify_eq_if (context : Context) (line : List Char) :
    classify context line =
      if line.head? = none then .empty
      else if line.head? = some '#' then .comment
      else if isRuler line then .separator
      else if !context.knows line && !looksLikeMath line then .prose
      else .evaluate := by
  unfold classify
  split
  · rfl
  · rfl
  · rename_i hsome hcomment
    cases line with
    | nil => exact absurd rfl hsome
    | cons c rest =>
      have hc : c ≠ '#' := by
        rintro rfl
        exact hcomment rest rfl
      simp [hc]

theorem Extends.knows (h : Extends before after) (hline : before.knows line) : after.knows line := by
  simp only [Context.knows, Bool.or_eq_true, Aliases.contains, List.contains_iff_mem] at hline ⊢
  rcases hline with hbound | halias
  · exact .inl (h.bound _ hbound)
  · exact .inr (h.aliases.subset halias)

/-- Prose is prose because the state does not know it, and in any other state it is prose or a known name. -/
theorem classify_of_prose (h : classify before line = .prose) (after : Context) :
    before.knows line = false ∧ classify after line = if after.knows line then .evaluate else .prose := by
  rw [classify_eq_if] at h
  rw [classify_eq_if]
  split_ifs at h with hempty hcomment hruler hprose
  simp only [Bool.and_eq_true, Bool.not_eq_true'] at hprose
  refine ⟨hprose.1, ?_⟩
  rw [if_neg hempty, if_neg hcomment, if_neg hruler, hprose.2]
  cases after.knows line <;> rfl

/-- What is no prose keeps its kind: an earlier rule decides, or the line is a calculation for its looks or for its
    name, which is not forgotten. -/
theorem Extends.classify_of_ne_prose (h : Extends before after) (hkind : classify before line ≠ .prose) :
    classify after line = classify before line := by
  cases hbefore : before.knows line with
  | true => rw [classify_eq_if, classify_eq_if, h.knows hbefore, hbefore]
  | false =>
    rw [classify_eq_if] at hkind
    rw [classify_eq_if, classify_eq_if]
    split_ifs at hkind ⊢ <;> simp_all

/-! ### Kinds along a run -/

/-- From any state on, a run unbinds no variable and keeps the entries of the table of aliases.  A calculation remains
    one, and empty lines, comments and rulers are the same lines throughout.  Only prose can change its kind; then it
    becomes a calculation, and that is so exactly if the line, which was unknown, is now a variable or has an alias. -/
theorem kinds_move_one_way (settings : Settings) (context : Context) (lines : List String) :
    let after := contextAfter settings context lines
    (∀ name, context.scope.binds name → after.scope.binds name) ∧
    context.aliases.entries <+: after.aliases.entries ∧
    ∀ line : List Char,
      (classify context line = .evaluate → classify after line = .evaluate) ∧
      (∀ kind ∈ [LineClass.empty, .comment, .separator], classify after line = kind ↔ classify context line = kind) ∧
      (classify after line ≠ classify context line →
        classify context line = .prose ∧ classify after line = .evaluate) ∧
      (classify context line = .prose → context.knows line = false ∧
        (classify after line ≠ classify context line ↔
          after.scope.binds (String.ofList line) ∨ after.aliases.contains line)) := by
  intro after
  have hextends : Extends context after := extends_contextAfter settings context lines
  refine ⟨hextends.bound, Aliases.entries_of_prefix hextends.aliases, fun line => ?_⟩
  by_cases hprose : classify context line = .prose
  · obtain ⟨hunknown, hafter⟩ := classify_of_prose hprose after
    rw [hprose, hafter]
    refine ⟨nofun, ?_, ?_, fun _ => ⟨hunknown, ?_⟩⟩
    · cases after.knows line <;> decide
    · cases after.knows line <;> simp
    · rw [← Bool.or_eq_true, ← Context.knows]
      cases after.knows line <;> simp
  · rw [hextends.classify_of_ne_prose hprose]
    exact ⟨id, fun _ _ => Iff.rfl, fun h => absurd rfl h, fun h => absurd h hprose⟩

/-- A name on a line of its own is prose, until a line that fails has asked for its alias. -/
theorem rent_becomes_a_calculation :
    classify .empty "房租".toList = .prose ∧
      classify (contextAfter .standard .empty ["房租 = foo"]) "房租".toList ≠ .prose ∧
      classify (contextAfter .standard .empty ["房租 = foo"]) "房租".toList = .evaluate := by
  have hprose : classify .empty "房租".toList = .prose := by decide +kernel
  have hkinds := (kinds_move_one_way .standard .empty ["房租 = foo"]).2.2 "房租".toList
  have hchanged := (hkinds.2.2.2 hprose).2.mpr (by decide +kernel)
  exact ⟨hprose, fun h => hchanged (h.trans hprose.symm), (hkinds.2.2.1 hchanged).2⟩

end Reckoner.Document
