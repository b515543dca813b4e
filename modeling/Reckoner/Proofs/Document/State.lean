import Reckoner.Proofs.Document.Assembly
import Reckoner.Proofs.Document.Run

/-!
# Lines that fail

What a line that shows an error leaves behind.  The previous answer survives every error.  A variable can change only
on an assignment that the engine has already carried out when its value turns out to have no text, and a name that
gets an alias is a name of the line unless writing out a percentage has cut it out of a longer one.  These two cases
are the only ones in which a failing line does more than its own new aliases.
-/

namespace Reckoner.Document

open Reckoner.Expression Reckoner.Text

variable {settings : Settings} {context : Context} {line : List Char}

/-- What a line leaves alone: the previous answer, and every variable but the one that holds that answer.  Aliases may
    be added for names of the line. -/
structure KeepsState (line : List Char) (before after : Context) : Prop where
  previous : after.previous = before.previous
  bindings : ∀ name, name ≠ "ans" → after.scope.find? name = before.scope.find? name
  aliases : ∃ gained, after.aliases.names = before.aliases.names ++ gained ∧
    ∀ name ∈ gained, needsAlias name ∧ name ∈ identifiers line

/-- The line assigns to a name a number that has no text. -/
def AssignsUnshown (settings : Settings) (context : Context) (line : List Char) (name : String) (v : Value) : Prop :=
  ∃ r t fault, request? settings context line = some r ∧
    Assigns settings r.prepared.scope r.expression name v (.numeric t) ∧
    (DisplayStyle.ofSettings settings).display t = .error fault

/-- Every new name that needs an alias once the percentages of a line are written out is a name of the typed line. -/
def KeepsNewNames (settings : Settings) (context : Context) (line typed : List Char) : Prop :=
  (request? settings context line).isSome → ∀ name ∈ identifiers (expandPercent line), needsAlias name →
    name ∉ context.aliases.names → name ∈ identifiers typed

theorem KeepsState.refl (line : List Char) (context : Context) : KeepsState line context context where
  previous := rfl
  bindings _ _ := rfl
  aliases := ⟨[], by simp, by simp⟩

/-! ### What a request leaves behind -/

theorem growsBy_of_request? {r : Request} (h : request? settings context line = some r) :
    context.aliases.GrowsBy r.prepared.aliases (· ∈ identifiers (expandPercent line)) := by
  obtain ⟨_, _, hchain, hr⟩ := prepared_of_request? h
  have hgrows := growsBy_ofAssembled context r.assembled
  rw [← hr] at hgrows
  obtain ⟨gained, hgained, hnew⟩ := hgrows.appended
  refine ⟨⟨gained, hgained, fun name hname => ?_⟩, fun name hname hneeds => ?_, hgrows.nodup⟩
  · obtain ⟨hfresh, hneeds, hmem⟩ := hnew name hname
    exact ⟨hfresh, hneeds, (mem_identifiers_assembled hchain hneeds).mp hmem⟩
  · exact hgrows.complete name ((mem_identifiers_assembled hchain hneeds).mpr hname) hneeds

theorem gained_iff_keepsNewNames {r : Request} (h : request? settings context line = some r) (typed : List Char) :
    (∃ gained, r.prepared.aliases.names = context.aliases.names ++ gained ∧
      ∀ name ∈ gained, needsAlias name ∧ name ∈ identifiers typed) ↔ KeepsNewNames settings context line typed := by
  have hgrows := growsBy_of_request? h
  constructor
  · rintro ⟨gained, hgained, hnew⟩ _ name hname hneeds hfresh
    have hmem : name ∈ r.prepared.aliases.names := hgrows.complete name hname hneeds
    rw [hgained, List.mem_append] at hmem
    exact (hnew name (hmem.resolve_left hfresh)).2
  · intro hkeeps
    obtain ⟨gained, hgained, hnew⟩ := hgrows.appended
    refine ⟨gained, hgained, fun name hname => ?_⟩
    obtain ⟨hfresh, hneeds, hmem⟩ := hnew name hname
    exact ⟨hneeds, hkeeps (by simp [h]) name hmem hneeds hfresh⟩

/-- A request leaves every variable but `ans` alone exactly if it assigns to none of them a new value. -/
theorem bindings_left_iff {r : Request} (h : request? settings context line = some r) :
    (∀ name, name ≠ "ans" → (r.left settings).scope.find? name = context.scope.find? name) ↔
      ∀ name v answer, Assigns settings r.prepared.scope r.expression name v answer →
        name = "ans" ∨ context.scope.find? name = some v := by
  have hprepared (name : String) (hname : name ≠ "ans") :
      r.prepared.scope.find? name = context.scope.find? name := find?_prepared_of_request? h hname
  constructor
  · intro hkept name v answer hassigns
    by_cases hname : name = "ans"
    · exact .inl hname
    · right
      rw [← hkept name hname, Request.left_scope, scope_of_assigns hassigns]
      exact Scope.find?_assign_self _ name v
  · intro hassigned name hname
    rw [Request.left_scope]
    have hcases := evaluates_evaluateExpression settings r.prepared.scope r.expression
    generalize evaluateExpression settings r.prepared.scope r.expression = report at hcases
    cases hcases with
    | failed => exact hprepared name hname
    | answered => exact hprepared name hname
    | assigned target v answer roundedText hassigns =>
      by_cases htarget : name = target
      · subst htarget
        rw [Scope.find?_assign_self]
        exact ((hassigned name v answer hassigns).resolve_left hname).symm
      · rw [Scope.find?_assign_of_ne _ v htarget]
        exact hprepared name hname

/-! ### Failing lines -/

/-- A request whose answer is not remembered keeps the state exactly if its new names are names of the typed line and
    it binds no variable but `ans` to a new value. -/
theorem keepsState_left_iff {r : Request} (h : request? settings context line = some r) (typed : List Char) :
    KeepsState typed context (r.left settings) ↔
      (∀ name, name ≠ "ans" → (r.left settings).scope.find? name = context.scope.find? name) ∧
        KeepsNewNames settings context line typed := by
  constructor
  · intro hkeeps
    exact ⟨hkeeps.bindings, (gained_iff_keepsNewNames h typed).mp hkeeps.aliases⟩
  · rintro ⟨hbindings, hnames⟩
    exact ⟨previous_left_of_request? h, hbindings, (gained_iff_keepsNewNames h typed).mpr hnames⟩

/-- A line that shows an error keeps the state, except that an assignment whose value has no text binds its name, and
    that a percentage can cut a new name out of a longer one. -/
theorem failing_line_keeps_state_iff (settings : Settings) (context : Context) (line : String)
    (h : (evaluateLine settings context line).result.isError) :
    KeepsState line.toList context (evaluateLine settings context line).context ↔
      (∀ name v, AssignsUnshown settings context (trim line.toList) name v →
        name = "ans" ∨ context.scope.find? name = some v) ∧
      KeepsNewNames settings context (trim line.toList) line.toList := by
  have hstep := step_evaluateTrimmed settings context (trim line.toList)
  unfold evaluateLine at h ⊢
  generalize evaluateTrimmed settings context (trim line.toList) = report at h hstep ⊢
  cases hstep with
  | passedOver => cases h
  | silent => cases h
  | displayed => cases h
  | refused hrequest =>
    refine iff_of_true (KeepsState.refl _ _) ⟨?_, ?_⟩
    · rintro name v ⟨r, t, fault, hr, _⟩
      rw [hrequest] at hr
      cases hr
    · intro hsome
      simp [hrequest] at hsome
  | failed r hrequest f hanswer =>
    rw [keepsState_left_iff hrequest, bindings_left_iff hrequest]
    refine and_congr_left fun _ => iff_of_true ?_ ?_
    · intro name v answer hassigns
      cases hanswer.symm.trans (answer_of_assigns hassigns)
    · rintro name v ⟨r', t, fault, hr', hassigns, _⟩
      obtain rfl : r = r' := Option.some.inj (hrequest.symm.trans hr')
      cases hanswer.symm.trans (answer_of_assigns hassigns)
  | undisplayed r hrequest t hanswer fault htext =>
    rw [keepsState_left_iff hrequest, bindings_left_iff hrequest]
    refine and_congr_left fun _ => ⟨?_, ?_⟩
    · rintro hassigned name v ⟨r', t', fault', hr', hassigns, _⟩
      obtain rfl : r = r' := Option.some.inj (hrequest.symm.trans hr')
      exact hassigned name v _ hassigns
    · intro hunshown name v answer hassigns
      -- the answer of the assignment is the number that has no text
      obtain rfl : answer = .numeric t := by
        simpa using (answer_of_assigns hassigns).symm.trans hanswer
      exact hunshown name v ⟨r, t, fault, hrequest, hassigns, htext⟩

theorem failing_line_keeps_state_of_sum :
    (evaluateLine .standard .empty "1 +").result.isError = true ∧
      (KeepsState "1 +".toList .empty (evaluateLine .standard .empty "1 +").context ↔
        (∀ name v, AssignsUnshown .standard .empty (trim "1 +".toList) name v →
          name = "ans" ∨ Context.empty.scope.find? name = some v) ∧
        KeepsNewNames .standard .empty (trim "1 +".toList) "1 +".toList) :=
  ⟨by decide +kernel, failing_line_keeps_state_iff .standard .empty "1 +" (by decide +kernel)⟩

/-- The exponential of `10 ^ 19` has no text, but it is bound all the same. -/
theorem exponential_without_text_is_bound :
    ¬ ∀ context, Reachable .standard context → ∀ line : String,
      (evaluateLine .standard context line).result.isError →
        KeepsState line.toList context (evaluateLine .standard context line).context := by
  intro h
  have hreport : (evaluateLine .standard .empty "z = exp(10^19)").result.isError ∧
      ((evaluateLine .standard .empty "z = exp(10^19)").context.scope.find? "z").isSome := by
    decide +kernel
  have hkept := (h .empty .start "z = exp(10^19)" hreport.1).bindings "z" (by decide)
  rw [hkept] at hreport
  exact absurd hreport.2 (by decide)

end Reckoner.Document
