import Reckoner.Proofs.Document.Assembly
import Reckoner.Proofs.Document.Run

/-!
# Names in a document

Which names the lines of a document are evaluated with.  The table of aliases at the end of a run renames every line of
the run, so a name stands for the same engine name throughout.  Two names can meet in one engine name in a single way:
one of them is typed as the alias of the other.
-/

namespace Reckoner.Document

open Reckoner.Expression Reckoner.Text

variable {settings : Settings} {context : Context}

/-! ### Requests of a run -/

/-- What the lines of a run ask of the engine, in their order. -/
def requests (settings : Settings) (context : Context) : List String → List Request
  | [] => []
  | line :: rest =>
    (request? settings context (trim line.toList)).toList ++
      requests settings (evaluateLine settings context line).context rest

/-- The names in the lines that are given to the engine. -/
def namesOf (asked : List Request) : List (List Char) := asked.flatMap fun r => identifiers r.assembled

/-- Whatever a line shows, its aliases are those of its request. -/
theorem aliases_evaluateLine (settings : Settings) (context : Context) (line : String) :
    (evaluateLine settings context line).context.aliases =
      ((request? settings context (trim line.toList)).map fun r => r.prepared.aliases).getD context.aliases := by
  have hstep := step_evaluateTrimmed settings context (trim line.toList)
  unfold evaluateLine
  generalize evaluateTrimmed settings context (trim line.toList) = report at hstep ⊢
  cases hstep with
  | passedOver hrequest => simp [hrequest]
  | refused hrequest => simp [hrequest]
  | failed r hrequest => simp [hrequest]
  | silent r hrequest => simp [hrequest]
  | undisplayed r hrequest => simp [hrequest]
  | displayed r hrequest => simp [hrequest]

theorem growsBy_evaluateLine (settings : Settings) (context : Context) (line : String) :
    context.aliases.GrowsBy (evaluateLine settings context line).context.aliases
      (· ∈ namesOf (request? settings context (trim line.toList)).toList) := by
  rw [aliases_evaluateLine]
  cases hrequest : request? settings context (trim line.toList) with
  | none => exact Aliases.GrowsBy.refl fun name hname => by simp [namesOf] at hname
  | some r =>
    obtain ⟨_, _, _, hr⟩ := prepared_of_request? hrequest
    have hgrows := growsBy_ofAssembled context r.assembled
    rw [← hr] at hgrows
    simpa [namesOf] using hgrows

theorem growsBy_contextAfter (settings : Settings) (context : Context) (lines : List String) :
    context.aliases.GrowsBy (contextAfter settings context lines).aliases
      (· ∈ namesOf (requests settings context lines)) := by
  induction lines generalizing context with
  | nil => exact Aliases.GrowsBy.refl fun name hname => by simp [requests, namesOf] at hname
  | cons line rest ih =>
    have h := (growsBy_evaluateLine settings context line).trans (ih _)
    rw [contextAfter_cons]
    simpa only [requests, namesOf, List.flatMap_append, List.mem_append] using h

/-- Every expression of a run is its line renamed with the table at the end. -/
theorem expression_eq_renamed (settings : Settings) (context : Context) (lines : List String) :
    ∀ r ∈ requests settings context lines,
      r.expression = (contextAfter settings context lines).aliases.renamed r.assembled := by
  induction lines generalizing context with
  | nil => simp [requests]
  | cons line rest ih =>
    intro r hr
    rw [requests, List.mem_append] at hr
    rcases hr with hr | hr
    · have hrequest : request? settings context (trim line.toList) = some r := by simpa using hr
      obtain ⟨_, _, _, hassembled⟩ := prepared_of_request? hrequest
      have hprepared : (evaluateLine settings context line).context.aliases = r.prepared.aliases := by
        simp [aliases_evaluateLine, hrequest]
      have hprefix := (growsBy_contextAfter settings (evaluateLine settings context line).context rest).isPrefix
      rw [hprepared, hassembled] at hprefix
      rw [hassembled]
      exact Aliases.substitute_eq_renamed hprefix
    · exact ih _ r hr

/-! ### Collisions -/

section Collisions

variable {aliases : Aliases} {names : List (List Char)}

/-- Where every name that needs an alias has one and no name is typed like an alias in use, different names are given
    different engine names. -/
theorem engineName_inj_of_not_typed (hcomplete : ∀ name ∈ names, needsAlias name → name ∈ aliases.names)
    (hfree : ∀ k < aliases.size, aliasText k ∉ names) {name other : List Char} (hname : name ∈ names)
    (hother : other ∈ names) (h : aliases.engineName name = aliases.engineName other) : name = other := by
  have hclash {aliased typed : List Char} (haliased : aliased ∈ names) (htyped : typed ∈ names)
      (hneeds : needsAlias aliased) (heq : aliases.aliasOf aliased = typed) : False := by
    have hplace : aliases.names.idxOf aliased < aliases.size :=
      List.idxOf_lt_length_iff.mpr (hcomplete aliased haliased hneeds)
    rw [← heq] at htyped
    exact hfree _ hplace htyped
  cases hneeds : needsAlias name with
  | true =>
    cases hneeds' : needsAlias other with
    | true =>
      simp only [Aliases.engineName, hneeds, hneeds', if_true] at h
      exact Aliases.aliasOf_inj (hcomplete name hname hneeds) (hcomplete other hother hneeds') h
    | false =>
      simp only [Aliases.engineName, hneeds, hneeds', if_true, Bool.false_eq_true, if_false] at h
      exact (hclash hname hother hneeds h).elim
  | false =>
    cases hneeds' : needsAlias other with
    | true =>
      simp only [Aliases.engineName, hneeds, hneeds', if_true, Bool.false_eq_true, if_false] at h
      exact (hclash hother hname hneeds' h.symm).elim
    | false =>
      simpa only [Aliases.engineName, hneeds, hneeds', Bool.false_eq_true, if_false] using h

theorem engineName_typed_alias (hnodup : aliases.names.Nodup) (hneeds : ∀ name ∈ aliases.names, needsAlias name)
    {k : Nat} (hk : k < aliases.size) :
    aliases.engineName (aliasText k) = aliases.engineName aliases.names[k] ∧ aliasText k ≠ aliases.names[k] := by
  have hplace : aliases.names.idxOf aliases.names[k] = k := hnodup.idxOf_getElem k hk
  have hneedsk : needsAlias aliases.names[k] := hneeds _ (List.getElem_mem hk)
  constructor
  · simp [Aliases.engineName, needsAlias_aliasText, hneedsk, Aliases.aliasOf, hplace]
  · intro h
    rw [← h, needsAlias_aliasText] at hneedsk
    cases hneedsk

end Collisions

/-! ### Distinct names -/

theorem mem_aliases_contextAfter {lines : List String} {name : List Char} :
    name ∈ (contextAfter settings .empty lines).aliases.names ↔
      needsAlias name ∧ name ∈ namesOf (requests settings .empty lines) := by
  rw [(growsBy_contextAfter settings .empty lines).mem_iff]
  simp [Context.empty, Aliases.empty]

/-- In a document every expression is its line with each name replaced by an engine name that is the same throughout.
    Different names have different engine names exactly if none of them is typed like an alias in use; then an
    assignment to one of them leaves the others alone. -/
theorem engine_names_distinct_iff (settings : Settings) (text : String) :
    let asked := requests settings .empty (linesOf text)
    let aliases := (contextAfter settings .empty (linesOf text)).aliases
    (∀ r ∈ asked, r.expression = aliases.renamed r.assembled) ∧
    ((∀ name ∈ namesOf asked, ∀ other ∈ namesOf asked,
        aliases.engineName name = aliases.engineName other → name = other) ↔
      ∀ k < aliases.size, aliasText k ∉ namesOf asked) ∧
    ((∀ k < aliases.size, aliasText k ∉ namesOf asked) →
      ∀ r ∈ asked, ∀ name ∈ namesOf asked, ∀ other ∈ namesOf asked, other ≠ name → ∀ body,
        splitAssignment? r.expression = some (String.ofList (aliases.engineName name), body) →
        (r.report settings).scope.find? (String.ofList (aliases.engineName other)) =
          r.prepared.scope.find? (String.ofList (aliases.engineName other))) := by
  intro asked aliases
  have hcomplete : ∀ name ∈ namesOf asked, needsAlias name → name ∈ aliases.names :=
    fun name hname hneeds => mem_aliases_contextAfter.mpr ⟨hneeds, hname⟩
  refine ⟨expression_eq_renamed settings .empty (linesOf text), ⟨?_, ?_⟩, ?_⟩
  · intro hinj k hk htyped
    have hnodup : aliases.names.Nodup :=
      (growsBy_contextAfter settings .empty (linesOf text)).nodup List.nodup_nil
    have hk' : aliases.names[k] ∈ namesOf asked := (mem_aliases_contextAfter.mp (List.getElem_mem hk)).2
    obtain ⟨hequal, hdifferent⟩ :=
      engineName_typed_alias hnodup (fun name hname => (mem_aliases_contextAfter.mp hname).1) hk
    exact hdifferent (hinj _ htyped _ hk' hequal)
  · intro hfree name hname other hother hequal
    exact engineName_inj_of_not_typed hcomplete hfree hname hother hequal
  · intro hfree r _ name hname other hother hne body hsplit
    refine find?_of_not_target fun body' hsplit' => hne ?_
    rw [hsplit, Option.some.injEq, Prod.mk.injEq] at hsplit'
    exact (engineName_inj_of_not_typed hcomplete hfree hname hother (String.ofList_injective hsplit'.1)).symm

theorem rent_and_tax_are_distinct :
    let asked := requests .standard .empty (linesOf "房租 = 5\n税 = 房租 * 2")
    let aliases := (contextAfter .standard .empty (linesOf "房租 = 5\n税 = 房租 * 2")).aliases
    (∀ k < aliases.size, aliasText k ∉ namesOf asked) ∧
      ∀ r ∈ asked, ∀ name ∈ namesOf asked, ∀ other ∈ namesOf asked, other ≠ name → ∀ body,
        splitAssignment? r.expression = some (String.ofList (aliases.engineName name), body) →
        (r.report .standard).scope.find? (String.ofList (aliases.engineName other)) =
          r.prepared.scope.find? (String.ofList (aliases.engineName other)) := by
  intro asked aliases
  have hfree : ∀ k < aliases.size, aliasText k ∉ namesOf asked := by decide +kernel
  exact ⟨hfree, (engine_names_distinct_iff .standard "房租 = 5\n税 = 房租 * 2").2.2 hfree⟩

/-- A name that is typed as the alias of another shares its engine name, and an assignment to it changes what is read
    through the other. -/
theorem typed_alias_takes_the_place :
    (¬ ∀ text : String, ∀ name ∈ namesOf (requests .standard .empty (linesOf text)),
      ∀ other ∈ namesOf (requests .standard .empty (linesOf text)),
        (contextAfter .standard .empty (linesOf text)).aliases.engineName name =
          (contextAfter .standard .empty (linesOf text)).aliases.engineName other → name = other) ∧
    (calculate .standard "房租 = 5\n_v0 = 7\n房租").map (·.text?) = [some "5", some "7", some "7"] := by
  refine ⟨fun hinj => ?_, by decide +kernel⟩
  have hclash := hinj "房租 = 5\n_v0 = 7\n房租" "房租".toList (by decide +kernel) "_v0".toList (by decide +kernel)
    (by decide +kernel)
  exact absurd hclash (by decide)

end Reckoner.Document
