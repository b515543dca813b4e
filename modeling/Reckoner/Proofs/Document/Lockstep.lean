import Reckoner.Proofs.Document.Classification
import Reckoner.Proofs.Document.Respelling
import Reckoner.Proofs.Document.Results

/-!
# Documents that differ in foreign names

Two documents are evaluated side by side, the second with other foreign names in the place of those of the first.  After
every line the tables of aliases hold paired names at the same places, so both lines become the same expression, and the
engine never sees the difference.
-/

namespace Reckoner.Document

open Reckoner.Expression Reckoner.Text

variable {settings : Settings} {ρ : Respelling} {aliases aliases' : Aliases} {context context' : Context}
  {s t : List Char}

/-! ### Tables of aliases -/

section Tables

variable {names others : List (List Char)} {name other : List Char}

theorem mem_iff_of_pairs (h : List.Forall₂ ρ.pairs names others) (hname : ρ.pairs name other) :
    name ∈ names ↔ other ∈ others := by
  induction h with
  | nil => simp
  | cons hfirst _ ih => rw [List.mem_cons, List.mem_cons, ρ.eq_iff hname hfirst, ih]

theorem idxOf_eq_of_pairs (h : List.Forall₂ ρ.pairs names others) (hname : ρ.pairs name other) :
    names.idxOf name = others.idxOf other := by
  induction h with
  | nil => rfl
  | @cons first first' _ _ hfirst _ ih =>
    have hsame : first = name ↔ first' = other := ρ.eq_iff hfirst hname
    by_cases h : first = name
    · rw [h, hsame.mp h, List.idxOf_cons_self, List.idxOf_cons_self]
    · rw [List.idxOf_cons_ne _ h, List.idxOf_cons_ne _ (hsame.not.mp h), ih]

theorem exists_pair_of_mem (h : List.Forall₂ ρ.pairs names others) (hname : name ∈ names) :
    ∃ other, ρ.pairs name other := by
  induction h with
  | nil => cases hname
  | cons hfirst _ ih =>
    rcases List.mem_cons.mp hname with rfl | hname
    · exact ⟨_, hfirst⟩
    · exact ih hname

/-- A whole line is a name of one table exactly if its other spelling is one of the other table. -/
theorem Respelled.mem_iff (hline : Respelled ρ s t) (h : List.Forall₂ ρ.pairs names others) :
    s ∈ names ↔ t ∈ others := by
  have hflip : List.Forall₂ ρ.symm.pairs others names := List.Forall₂.flip h
  constructor
  · intro hs
    obtain ⟨other, hpair⟩ := exists_pair_of_mem h hs
    rw [hline.eq_of_pairs hpair]
    exact (mem_iff_of_pairs h hpair).mp hs
  · intro ht
    obtain ⟨name, hpair⟩ := exists_pair_of_mem hflip ht
    rw [hline.symm.eq_of_pairs hpair]
    exact (mem_iff_of_pairs hflip hpair).mp ht

theorem request_of_pairs (h : List.Forall₂ ρ.pairs aliases.names aliases'.names) (hname : ρ.pairs name other) :
    List.Forall₂ ρ.pairs (aliases.request name).names (aliases'.request other).names := by
  have hsame : aliases.contains name = aliases'.contains other := by
    simp [Aliases.contains, mem_iff_of_pairs h hname]
  unfold Aliases.request
  rw [hsame]
  split
  · exact h
  · exact List.rel_append h (.cons hname .nil)

/-- Paired names are given the same alias, and the tables stay in step. -/
theorem substitutePiece_of_respelled {piece piece' : Piece} (h : List.Forall₂ ρ.pairs aliases.names aliases'.names)
    (hpiece : RespelledPiece ρ piece piece') :
    (aliases.substitutePiece piece).1 = (aliases'.substitutePiece piece').1 ∧
      List.Forall₂ ρ.pairs (aliases.substitutePiece piece).2.names (aliases'.substitutePiece piece').2.names := by
  cases hpiece with
  | other c => exact ⟨rfl, h⟩
  | kept hname => simpa [Aliases.substitutePiece, hname] using h
  | renamed hname =>
    simp only [Aliases.substitutePiece, (ρ.left hname).needsAlias, (ρ.right hname).needsAlias, if_true,
      Aliases.aliasFor, Aliases.aliasOf, idxOf_eq_of_pairs h hname, true_and]
    exact request_of_pairs h hname

theorem substitutePieces_of_respelled {ps ps' : List Piece} (h : List.Forall₂ ρ.pairs aliases.names aliases'.names)
    (hps : List.Forall₂ (RespelledPiece ρ) ps ps') :
    (aliases.substitutePieces ps).1 = (aliases'.substitutePieces ps').1 ∧
      List.Forall₂ ρ.pairs (aliases.substitutePieces ps).2.names (aliases'.substitutePieces ps').2.names := by
  induction hps generalizing aliases aliases' with
  | nil => exact ⟨rfl, h⟩
  | cons hpiece _ ih =>
    obtain ⟨htext, hnames⟩ := substitutePiece_of_respelled h hpiece
    obtain ⟨htexts, hlast⟩ := ih hnames
    rw [Aliases.substitutePieces_cons, Aliases.substitutePieces_cons, htext, htexts]
    exact ⟨rfl, hlast⟩

end Tables

/-! ### States -/

/-- Names that are assigned to are typed in ASCII. -/
theorem isAsciiText_of_splitAssignment? {text body : List Char} {name : String}
    (h : splitAssignment? text = some (name, body)) : IsAsciiText name.toList := by
  unfold splitAssignment? at h
  split at h
  · cases h
  · rename_i c rest _
    split at h
    · rename_i hc
      have hascii : IsAsciiText (c :: rest.takeWhile isAsciiWord) := by
        have hletter : isAsciiLetter c ∨ c = '_' := by simpa using hc
        exact isAsciiText_cons.mpr ⟨isAscii_of_isAsciiWord (isAsciiWord_of_isLetter hletter),
          fun d hd => isAscii_of_isAsciiWord (List.mem_takeWhile_imp hd)⟩
      dsimp only at h
      split at h
      · split at h
        · cases h
        · obtain ⟨rfl, -⟩ : String.ofList (c :: rest.takeWhile isAsciiWord) = name ∧ _ = body := by simpa using h
          rwa [String.toList_ofList]
      · cases h
    · cases h

/-- States that two spellings of a document lead to: all is the same but the names that have aliases.  Only typed ASCII
    names are ever bound. -/
structure Alike (ρ : Respelling) (context context' : Context) : Prop where
  scope : context.scope = context'.scope
  previous : context.previous = context'.previous
  names : List.Forall₂ ρ.pairs context.aliases.names context'.aliases.names
  unbound : ∀ name : String, ¬ IsAsciiText name.toList → context.scope.find? name = none

theorem alike_empty (ρ : Respelling) : Alike ρ .empty .empty := ⟨rfl, rfl, .nil, fun _ _ => rfl⟩

namespace Alike

/-- Binding the previous answer, and renaming the line, keep the states alike. -/
theorem ofAssembled (h : Alike ρ context context') (hline : Respelled ρ s t) (hnames : HasForeignNames s) :
    (Request.ofAssembled context s).expression = (Request.ofAssembled context' t).expression ∧
      Alike ρ (Request.ofAssembled context s).prepared (Request.ofAssembled context' t).prepared := by
  obtain ⟨hexpression, htable⟩ := substitutePieces_of_respelled h.names (hline.pieces hnames)
  have hscope : context.bindAnswer.scope = context'.bindAnswer.scope := by
    unfold Context.bindAnswer
    rw [h.previous]
    split <;> simp [h.scope]
  refine ⟨hexpression, hscope, ?_, htable, ?_⟩
  · exact (bindAnswer_previous context).trans (h.previous.trans (bindAnswer_previous context').symm)
  · intro name hname
    have hans : name ≠ "ans" := by
      rintro rfl
      exact hname (by decide)
    exact (bindAnswer_find? hans).trans (h.unbound name hname)

/-- The engine binds only names that are typed in ASCII. -/
theorem evaluated (h : Alike ρ context context') (settings : Settings) (text : List Char) :
    Alike ρ { context with scope := (evaluateExpression settings context.scope text).scope }
      { context' with scope := (evaluateExpression settings context'.scope text).scope } where
  scope := by rw [h.scope]
  previous := h.previous
  names := h.names
  unbound name hname := by
    have hkept : (evaluateExpression settings context.scope text).scope.find? name = context.scope.find? name :=
      find?_of_not_target fun body hsplit => hname (isAsciiText_of_splitAssignment? hsplit)
    exact hkept.trans (h.unbound name hname)

theorem answered (h : Alike ρ context context') (v : Value) :
    Alike ρ { context with previous := some v } { context' with previous := some v } :=
  ⟨h.scope, rfl, h.names, h.unbound⟩

theorem knows_eq (h : Alike ρ context context') (hline : Respelled ρ s t) : context.knows s = context'.knows t := by
  have hbinds : context.scope.binds (String.ofList s) = context'.scope.binds (String.ofList t) := by
    rw [← h.scope]
    rcases hline.eq_or_exists with rfl | ⟨hs, ht⟩
    · rfl
    · have hnone {u : List Char} (hu : ∃ c ∈ u, isForeignLetter c) : context.scope.find? (String.ofList u) = none := by
        apply h.unbound
        rw [String.toList_ofList]
        exact not_isAsciiText_of_foreign hu
      simp [Scope.binds, hnone hs, hnone ht]
  have hcontains : context.aliases.contains s = context'.aliases.contains t := by
    simpa [Aliases.contains] using hline.mem_iff h.names
  rw [Context.knows, Context.knows, hbinds, hcontains]

theorem classify_eq (h : Alike ρ context context') (hline : Respelled ρ s t) :
    classify context s = classify context' t := by
  have hempty : s.head? = none ↔ t.head? = none := by
    rw [List.head?_eq_none_iff, List.head?_eq_none_iff, hline.eq_nil_iff]
  have hcomment : s.head? = some '#' ↔ t.head? = some '#' := by
    have hfirst (u : List Char) : u.head? = some '#' ↔ ¬ ∀ c ∈ u.head?, c ≠ '#' := by cases u <;> simp
    have hsign : isForeignLetter '#' = false := by decide
    rw [hfirst s, hfirst t]
    exact not_congr (hline.forall_head?_iff fun _ _ hc hd =>
      iff_of_true (ne_of_isForeignLetter hc hsign) (ne_of_isForeignLetter hd hsign))
  rw [classify_eq_if, classify_eq_if, hline.isRuler_eq, h.knows_eq hline, hline.looksLikeMath_eq]
  simp only [hempty, hcomment]

end Alike

/-! ### Lines -/

theorem Respelled.continues_iff (h : Respelled ρ s t) : Continues s ↔ Continues t := by
  have hoperators : ∀ c ∈ chainOperators, isForeignLetter c = false := by decide
  have hnone {c : Char} (hc : isForeignLetter c) : c ∉ chainOperators :=
    fun hmem => ne_of_isForeignLetter hc (hoperators c hmem) rfl
  have hfirst (u : List Char) : Continues u ↔ ¬ ∀ c ∈ u.head?, c ∉ chainOperators := by simp [Continues]
  rw [hfirst s, hfirst t]
  exact not_congr (h.forall_head?_iff fun _ _ hc hd => iff_of_true (hnone hc) (hnone hd))

/-- A line that continues the previous answer does so in every spelling. -/
theorem Respelled.chain (h : Respelled ρ s t) (settings : Settings) (previous : Option Value) :
    (∃ fault, chain settings previous s = .error fault ∧ chain settings previous t = .error fault) ∨
      ∃ assembled assembled', chain settings previous s = .ok assembled ∧ chain settings previous t = .ok assembled' ∧
        Respelled ρ assembled assembled' := by
  by_cases hs : Continues s
  · have ht := h.continues_iff.mp hs
    cases previous with
    | none => exact .inr ⟨s, t, rfl, rfl, h⟩
    | some v =>
      cases htext : (DisplayStyle.ofSettings settings).displayValue v with
      | error fault =>
        exact .inl ⟨fault, chain_of_continues_of_error hs htext, chain_of_continues_of_error ht htext⟩
      | ok text =>
        have hkept : ∀ c ∈ text.toList, isForeignLetter c = false :=
          fun c hc => isForeignLetter_of_isAscii (isAsciiText_of_displayValue htext c hc)
        exact .inr ⟨_, _, chain_of_continues hs htext, chain_of_continues ht htext, h.kept_append hkept⟩
  · have ht := h.continues_iff.not.mp hs
    exact .inr ⟨s, t, chain_of_not_continues hs, chain_of_not_continues ht, h⟩

/-- Two lines that are spellings of each other: the names that need an alias are foreign names, and the limit for the
    length of a line cuts off both or none. -/
structure SameLine (settings : Settings) (ρ : Respelling) (line line' : List Char) : Prop where
  respelled : Respelled ρ line line'
  names : HasForeignNames line
  length : settings.maxLineLength < line.length ↔ settings.maxLineLength < line'.length

/-- In states that are alike both lines are refused for the same reason, or become the same expression. -/
theorem prepare_of_alike (h : Alike ρ context context') (hline : SameLine settings ρ s t) :
    (∃ fault, prepare settings context s = .error fault ∧ prepare settings context' t = .error fault) ∨
      ∃ text prepared prepared', prepare settings context s = .ok (text, prepared) ∧
        prepare settings context' t = .ok (text, prepared') ∧ Alike ρ prepared prepared' := by
  have hreject := hline.respelled.reject?_eq hline.length
  cases hs : reject? settings s with
  | some r =>
    rw [hs] at hreject
    exact .inl ⟨.rejected r, by simp [prepare, hs], by simp [prepare, ← hreject]⟩
  | none =>
    rw [hs] at hreject
    rcases hline.respelled.expandPercent.chain settings context.previous with
      ⟨fault, hleft, hright⟩ | ⟨assembled, assembled', hleft, hright, hassembled⟩
    · rw [h.previous] at hright
      exact .inl ⟨.previousAnswer fault, by simp [prepare, hs, hleft], by simp [prepare, ← hreject, hright]⟩
    · obtain ⟨hexpression, hprepared⟩ := h.ofAssembled hassembled (hline.names.expandPercent.of_chain hleft)
      rw [h.previous] at hright
      refine .inr ⟨_, _, _, prepare_eq_ok hs hleft, ?_, hprepared⟩
      rw [prepare_eq_ok hreject.symm hright, hexpression]

/-- In states that are alike both lines show the same, and the states stay alike, whether the lines are evaluated, fail
    or are passed over. -/
theorem evaluateTrimmed_of_alike (h : Alike ρ context context') (hline : SameLine settings ρ s t) :
    (evaluateTrimmed settings context s).result = (evaluateTrimmed settings context' t).result ∧
      Alike ρ (evaluateTrimmed settings context s).context (evaluateTrimmed settings context' t).context := by
  have hclass := h.classify_eq hline.respelled
  by_cases hs : classify context s = .evaluate
  · have ht : classify context' t = .evaluate := hclass.symm.trans hs
    rcases prepare_of_alike h hline with
      ⟨fault, hleft, hright⟩ | ⟨text, prepared, prepared', hleft, hright, hprepared⟩
    · simp only [evaluateTrimmed, hs, ht, hleft, hright, ne_eq, not_true_eq_false, if_false]
      cases fault <;> exact ⟨rfl, h⟩
    · -- from here on the lines themselves are seen by the log only
      have hreported := hprepared.evaluated settings text
      rw [← hprepared.scope] at hreported
      simp only [evaluateTrimmed, hs, ht, hleft, hright, ne_eq, not_true_eq_false, if_false, ← hprepared.scope]
      cases (evaluateExpression settings prepared.scope text).answer with
      | error f =>
        simp only [failureReport]
        split <;> exact ⟨rfl, hreported⟩
      | ok answer =>
        cases answer with
        | other v => exact ⟨rfl, hreported⟩
        | numeric x =>
          simp only [answerReport]
          split
          · exact ⟨rfl, hreported.answered _⟩
          · exact ⟨rfl, hreported⟩
  · have ht : classify context' t ≠ .evaluate := fun ht => hs (hclass.trans ht)
    simp only [evaluateTrimmed, hs, ht, ne_eq, not_false_eq_true, if_true, true_and]
    exact h

/-! ### Documents -/

theorem results_eq_of_alike {lines lines' : List String} (h : Alike ρ context context')
    (hlines : List.Forall₂ (fun line line' : String => SameLine settings ρ (trim line.toList) (trim line'.toList))
      lines lines') :
    (evaluateLines settings context lines).map (·.result) =
      (evaluateLines settings context' lines').map (·.result) := by
  induction hlines generalizing context context' with
  | nil => rfl
  | cons hline _ ih =>
    obtain ⟨hresult, hafter⟩ := evaluateTrimmed_of_alike h hline
    simp only [evaluateLines, evaluateLine, List.map_cons, hresult, ih hafter]

/-- A text with other names in the place of those that need an alias. -/
def respell (rename : List Char → List Char) (text : List Char) : List Char :=
  (pieces text).flatMap fun
    | .identifier name => if needsAlias name then rename name else name
    | .other c => [c]

/-- A renaming of the names of a text that need an alias: all of them are foreign names and become foreign names, and no
    two become the same. -/
structure IsRespelling (rename : List Char → List Char) (text : List Char) : Prop where
  foreign : HasForeignNames text
  kind : ∀ name ∈ identifiers text, needsAlias name → IsForeign (rename name)
  injective : ∀ name ∈ identifiers text, ∀ other ∈ identifiers text, needsAlias name → needsAlias other →
    rename name = rename other → name = other

instance (rename : List Char → List Char) (text : List Char) : Decidable (IsRespelling rename text) :=
  decidable_of_iff (HasForeignNames text ∧ (∀ name ∈ identifiers text, needsAlias name → IsForeign (rename name)) ∧
      ∀ name ∈ identifiers text, ∀ other ∈ identifiers text, needsAlias name → needsAlias other →
        rename name = rename other → name = other)
    ⟨fun h => ⟨h.1, h.2.1, h.2.2⟩, fun h => ⟨h.foreign, h.kind, h.injective⟩⟩

section Documents

variable {rename : List Char → List Char} {text : List Char}

/-- The pairs of names that a renaming makes. -/
def IsRespelling.respelling (h : IsRespelling rename text) : Respelling where
  pairs name other := (name ∈ identifiers text ∧ needsAlias name) ∧ rename name = other
  left := fun ⟨⟨hname, hneeds⟩, _⟩ => h.foreign _ hname hneeds
  right := by
    rintro name _ ⟨⟨hname, hneeds⟩, rfl⟩
    exact h.kind name hname hneeds
  eq_iff := by
    rintro name _ name' _ ⟨⟨hname, hneeds⟩, rfl⟩ ⟨⟨hname', hneeds'⟩, rfl⟩
    exact ⟨congrArg rename, h.injective name hname name' hname' hneeds hneeds'⟩

theorem IsRespelling.respelled (h : IsRespelling rename text) (hs : identifiers s ⊆ identifiers text) :
    Respelled h.respelling s (respell rename s) := by
  unfold respell
  fun_induction pieces s with
  | case1 => exact .nil
  | case2 c rest hc ih =>
    have hline : c :: rest = c :: rest.takeWhile isWord ++ rest.dropWhile isWord := by
      rw [List.cons_append, List.takeWhile_append_dropWhile]
    rw [identifiers_cons_of_begins hc, List.cons_subset] at hs
    rw [List.flatMap_cons, hline]
    dsimp only
    split
    · rename_i hneeds
      exact .name ⟨⟨hs.1, hneeds⟩, rfl⟩ (stopsAt_dropWhile isWord rest) (ih hs.2)
    · rename_i hplain
      have hascii := needsAlias_eq_false.mp (by simpa using hplain)
      exact (ih hs.2).kept_append fun d hd => isForeignLetter_of_isAscii (hascii d hd)
  | case3 c rest hc ih =>
    have hbegins : beginsIdentifier c = false := by simpa using hc
    rw [identifiers_cons_of_not_begins hbegins] at hs
    exact .kept (isForeignLetter_of_not_begins hbegins) (ih hs)

theorem respell_append (s : List Char) (ht : StopsAt isWord t) :
    respell rename (s ++ t) = respell rename s ++ respell rename t := by
  rw [respell, pieces_append s ht, List.flatMap_append]
  rfl

/-! ### Lines of a document -/

theorem stopsAt_newline (s : List Char) : StopsAt isWord (['\n'] ++ s) := stopsAt_cons.mpr (by decide)

theorem respell_newline (s : List Char) : respell rename (['\n'] ++ s) = ['\n'] ++ respell rename s := by
  rw [respell, List.singleton_append, pieces, if_neg (by decide)]
  rfl

theorem respell_intercalate (lines : List (List Char)) :
    respell rename (['\n'].intercalate lines) = ['\n'].intercalate (lines.map (respell rename)) := by
  induction lines with
  | nil => simp [respell, pieces]
  | cons line rest ih =>
    cases rest with
    | nil => simp
    | cons next rest =>
      rw [List.map_cons] at ih ⊢
      rw [List.intercalate_cons_cons, List.append_assoc, respell_append line (stopsAt_newline _), respell_newline, ih,
        List.map_cons, List.intercalate_cons_cons, List.append_assoc]

theorem identifiers_intercalate (lines : List (List Char)) :
    identifiers (['\n'].intercalate lines) = lines.flatMap identifiers := by
  induction lines with
  | nil => simp
  | cons line rest ih =>
    cases rest with
    | nil => simp
    | cons next rest =>
      rw [List.intercalate_cons_cons, List.append_assoc, identifiers_append line (stopsAt_newline _),
        List.singleton_append, identifiers_cons_of_not_begins (by decide), ih]
      rfl

end Documents

section Lines

variable {rename : List Char → List Char} {text : String}

theorem identifiers_of_mem_linesOf {line : String} (h : line ∈ linesOf text) :
    identifiers line.toList ⊆ identifiers text.toList := by
  rw [← intercalate_linesOf text, identifiers_intercalate]
  intro name hname
  exact List.mem_flatMap.mpr ⟨line.toList, List.mem_map_of_mem h, hname⟩

/-- The lines of a respelled document are the respelled lines. -/
theorem linesOf_respell (h : IsRespelling rename text.toList) :
    linesOf (String.ofList (respell rename text.toList)) =
      (linesOf text).map fun line => String.ofList (respell rename line.toList) := by
  have hnewline : ∀ line ∈ ((linesOf text).map String.toList).map (respell rename), '\n' ∉ line := by
    simp only [List.mem_map]
    rintro _ ⟨_, ⟨line, hline, rfl⟩, rfl⟩ hmem
    have hascii : ExcludesForeign (· == '\n') := by
      refine excludesForeign_of_ascii fun c hc => ?_
      obtain rfl := beq_iff_eq.mp hc
      decide
    have hsame := (h.respelled (identifiers_of_mem_linesOf hline)).any_eq hascii
    have hsome : line.toList.any (· == '\n') := hsame ▸ List.any_eq_true.mpr ⟨'\n', hmem, by simp⟩
    obtain ⟨c, hc, heq⟩ := List.any_eq_true.mp hsome
    obtain rfl := beq_iff_eq.mp heq
    obtain ⟨piece, hpiece, rfl⟩ := List.mem_map.mp hline
    rw [String.toList_ofList] at hc
    exact not_mem_of_mem_splitAt hpiece hc
  have hsome : linesOf text ≠ [] := by
    apply List.ne_nil_of_length_pos
    simp [linesOf, length_splitAt]
  rw [linesOf, String.toList_ofList, splitAt_eq_splitOn, ← intercalate_linesOf text, respell_intercalate,
    List.splitOn_intercalate _ hnewline (by simpa using hsome)]
  simp [Function.comp_def]

/-- The results of a document do not depend on how its foreign names are spelled, as long as different names stay
    different and no line becomes too long or ceases to be so. -/
theorem results_do_not_depend_on_spelling (settings : Settings) (text : String) (rename : List Char → List Char)
    (h : IsRespelling rename text.toList)
    (hlength : ∀ line ∈ linesOf text, settings.maxLineLength < (trim line.toList).length ↔
      settings.maxLineLength < (trim (respell rename line.toList)).length) :
    calculate settings (String.ofList (respell rename text.toList)) = calculate settings text := by
  have hlines : List.Forall₂
      (fun line line' : String => SameLine settings h.respelling (trim line.toList) (trim line'.toList)) (linesOf text)
      ((linesOf text).map fun line => String.ofList (respell rename line.toList)) := by
    rw [List.forall₂_map_right_iff, List.forall₂_same]
    intro line hline
    have hnames := identifiers_of_mem_linesOf hline
    rw [String.toList_ofList]
    exact ⟨(h.respelled hnames).trim, (h.foreign.of_subset hnames).trim, hlength line hline⟩
  rw [calculate, calculate, pass, pass, linesOf_respell h, results_eq_of_alike (alike_empty h.respelling) hlines]

theorem rent_and_tax_exchange_names :
    let rename := fun name : List Char => if name = "房租".toList then "税".toList else "房租".toList
    let text := "房租 = 1000\n# 房租, 税\n税 = 房租 * 10%\n税\n+ 房租"
    IsRespelling rename text.toList ∧
      (∀ line ∈ linesOf text, Settings.standard.maxLineLength < (trim line.toList).length ↔
        Settings.standard.maxLineLength < (trim (respell rename line.toList)).length) ∧
      calculate .standard "税 = 1000\n# 税, 房租\n房租 = 税 * 10%\n房租\n+ 税" = calculate .standard text := by
  intro rename text
  have hrename : IsRespelling rename text.toList := by decide +kernel
  have hlength : ∀ line ∈ linesOf text, Settings.standard.maxLineLength < (trim line.toList).length ↔
      Settings.standard.maxLineLength < (trim (respell rename line.toList)).length := by
    decide +kernel
  have hrespelled : "税 = 1000\n# 税, 房租\n房租 = 税 * 10%\n房租\n+ 税" =
      String.ofList (respell rename text.toList) := by
    decide +kernel
  refine ⟨hrename, hlength, ?_⟩
  rw [hrespelled]
  exact results_do_not_depend_on_spelling .standard text rename hrename hlength

end Lines

end Reckoner.Document
