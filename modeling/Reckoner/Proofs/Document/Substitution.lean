import Reckoner.Document.Aliases
import Reckoner.Proofs.Text.Runs
import Std.Data.String.ToNat

/-!
# Substitution of names

What a table of aliases puts in the place of a name, and how a table grows while a text is substituted.  A table only
grows at its end, so an alias stays the alias of its name for as long as the table lives, and a text that was
substituted with an early table reads the same with every later one.
-/

namespace Reckoner.Document

open Reckoner.Text

/-! ### Texts of aliases -/

theorem aliasText_injective : Function.Injective aliasText := by
  intro j k h
  simp only [aliasText, List.cons.injEq, true_and] at h
  exact Nat.repr_injective (String.toList_injective h)

theorem isAsciiText_aliasText (k : Nat) : IsAsciiText (aliasText k) := by
  simp only [aliasText, isAsciiText_cons]
  exact ⟨by decide, by decide, isAsciiText_toString k⟩

theorem needsAlias_eq_false {name : List Char} : needsAlias name = false ↔ IsAsciiText name := by
  simp [needsAlias, IsAsciiText]

theorem needsAlias_aliasText (k : Nat) : needsAlias (aliasText k) = false :=
  needsAlias_eq_false.mpr (isAsciiText_aliasText k)

namespace Aliases

variable {aliases final : Aliases} {name : List Char}

/-! ### Names for the engine -/

/-- What stands for a name in an expression: its alias if it needs one, and otherwise the name itself. -/
def engineName (aliases : Aliases) (name : List Char) : List Char :=
  if needsAlias name then aliases.aliasOf name else name

def renamedPiece (aliases : Aliases) : Piece → List Char
  | .identifier name => aliases.engineName name
  | .other c => [c]

/-- A text with all its names replaced. -/
def renamed (aliases : Aliases) (text : List Char) : List Char := (pieces text).flatMap aliases.renamedPiece

theorem aliasOf_of_prefix (h : aliases.names <+: final.names) (hname : name ∈ aliases.names) :
    final.aliasOf name = aliases.aliasOf name := by
  obtain ⟨more, hmore⟩ := h
  rw [aliasOf, aliasOf, ← hmore, List.idxOf_append, if_pos hname]

/-- A table that has grown at its end still has its entries, as the first ones. -/
theorem entries_of_prefix (h : aliases.names <+: final.names) : aliases.entries <+: final.entries := by
  obtain ⟨more, hmore⟩ := h
  rw [entries, entries, ← hmore, List.zipIdx_append, List.map_append]
  exact List.prefix_append _ _

/-- The entry of a name that has an alias is its alias. -/
theorem lookup_entries (aliases : Aliases) (name : List Char) :
    aliases.entries.lookup name = if name ∈ aliases.names then some (aliases.aliasOf name) else none := by
  -- behind the first entries the places are counted on
  have hplaces (names : List (List Char)) (k : Nat) :
      ((names.zipIdx k).map fun entry => (entry.1, aliasText entry.2)).lookup name =
        if name ∈ names then some (aliasText (k + names.idxOf name)) else none := by
    induction names generalizing k with
    | nil => rfl
    | cons first rest ih =>
      rw [List.zipIdx_cons, List.map_cons]
      by_cases hfirst : name = first
      · subst hfirst
        rw [List.lookup_cons_self, if_pos List.mem_cons_self, List.idxOf_cons_self, Nat.add_zero]
      · have hother : ¬ first = name := fun h => hfirst h.symm
        rw [List.lookup_cons, beq_false_of_ne hfirst]
        simp only [ih, List.mem_cons, hfirst, false_or, List.idxOf_cons, beq_false_of_ne hother, cond_false]
        congr 3
        omega
  have hentries := hplaces aliases.names 0
  rw [Nat.zero_add] at hentries
  exact hentries

/-- A name that is asked for gets the alias that was foreseen for it. -/
theorem aliasOf_request (aliases : Aliases) (name : List Char) :
    (aliases.request name).aliasOf name = aliases.aliasOf name := by
  unfold request
  by_cases hname : name ∈ aliases.names
  · rw [if_pos (by simpa [contains] using hname)]
  · rw [if_neg (by simpa [contains] using hname), aliasOf, aliasOf, List.idxOf_append, if_neg hname,
      List.idxOf_eq_length hname, List.idxOf_cons_self, Nat.zero_add]

theorem aliasOf_inj {other : List Char} (hname : name ∈ aliases.names) (hother : other ∈ aliases.names)
    (h : aliases.aliasOf name = aliases.aliasOf other) : name = other := by
  have hplace : aliases.names.idxOf name = aliases.names.idxOf other := aliasText_injective h
  have hlt : aliases.names.idxOf name < aliases.names.length := List.idxOf_lt_length_iff.mpr hname
  have hlt' : aliases.names.idxOf other < aliases.names.length := List.idxOf_lt_length_iff.mpr hother
  calc name = aliases.names[aliases.names.idxOf name] := (List.getElem_idxOf hlt).symm
    _ = aliases.names[aliases.names.idxOf other] := by simp only [hplace]
    _ = other := List.getElem_idxOf hlt'

/-! ### Growth of a table -/

/-- A table has grown by names that it did not hold before, each of them among some names that need an alias. -/
structure GrowsBy (aliases final : Aliases) (asked : List Char → Prop) : Prop where
  appended : ∃ gained, final.names = aliases.names ++ gained ∧
    ∀ name ∈ gained, name ∉ aliases.names ∧ needsAlias name ∧ asked name
  complete : ∀ name, asked name → needsAlias name → name ∈ final.names
  nodup : aliases.names.Nodup → final.names.Nodup

namespace GrowsBy

variable {asked : List Char → Prop}

theorem isPrefix (h : GrowsBy aliases final asked) : aliases.names <+: final.names := by
  obtain ⟨gained, hgained, _⟩ := h.appended
  exact ⟨gained, hgained.symm⟩

theorem mem_iff (h : GrowsBy aliases final asked) :
    name ∈ final.names ↔ name ∈ aliases.names ∨ needsAlias name ∧ asked name := by
  obtain ⟨gained, hgained, hnew⟩ := h.appended
  constructor
  · intro hname
    rw [hgained, List.mem_append] at hname
    exact hname.imp id fun hname => (hnew name hname).2
  · rintro (hname | ⟨hneeds, hasked⟩)
    · exact h.isPrefix.subset hname
    · exact h.complete name hasked hneeds

theorem refl (h : ∀ name, asked name → needsAlias name = false) : GrowsBy aliases aliases asked where
  appended := ⟨[], by simp, by simp⟩
  complete name hname hneeds := absurd hneeds (by simp [h name hname])
  nodup := id

theorem trans {middle : Aliases} {first second : List Char → Prop} (h : GrowsBy aliases middle first)
    (h' : GrowsBy middle final second) : GrowsBy aliases final fun name => first name ∨ second name := by
  obtain ⟨gained, hgained, hnew⟩ := h.appended
  obtain ⟨gained', hgained', hnew'⟩ := h'.appended
  refine ⟨⟨gained ++ gained', ?_, ?_⟩, ?_, h'.nodup ∘ h.nodup⟩
  · rw [hgained', hgained, List.append_assoc]
  · intro name hname
    rcases List.mem_append.mp hname with hname | hname
    · obtain ⟨hfresh, hneeds, hasked⟩ := hnew name hname
      exact ⟨hfresh, hneeds, .inl hasked⟩
    · obtain ⟨hfresh, hneeds, hasked⟩ := hnew' name hname
      exact ⟨fun hmem => hfresh (h.isPrefix.subset hmem), hneeds, .inr hasked⟩
  · rintro name (hasked | hasked) hneeds
    · exact h'.isPrefix.subset (h.complete name hasked hneeds)
    · exact h'.complete name hasked hneeds

end GrowsBy

theorem growsBy_request (aliases : Aliases) (hneeds : needsAlias name) :
    GrowsBy aliases (aliases.request name) (· = name) := by
  unfold request
  by_cases hname : name ∈ aliases.names
  · rw [if_pos (by simpa [contains] using hname)]
    refine ⟨⟨[], by simp, by simp⟩, ?_, id⟩
    rintro other rfl _
    exact hname
  · rw [if_neg (by simpa [contains] using hname)]
    refine ⟨⟨[name], rfl, ?_⟩, ?_, ?_⟩
    · intro other hother
      obtain rfl : other = name := by simpa using hother
      exact ⟨hname, hneeds, rfl⟩
    · rintro other rfl _
      simp
    · intro hnodup
      rw [List.nodup_append]
      refine ⟨hnodup, by simp, ?_⟩
      rintro other hother _ hlast rfl
      obtain rfl : other = name := by simpa using hlast
      exact hname hother

/-! ### Substituted texts -/

theorem growsBy_substitutePiece (aliases : Aliases) (piece : Piece) :
    GrowsBy aliases (aliases.substitutePiece piece).2 fun name => piece = .identifier name := by
  cases piece with
  | other c => exact GrowsBy.refl fun name h => by cases h
  | identifier word =>
    by_cases hneeds : needsAlias word
    · simp only [substitutePiece, hneeds, if_true, aliasFor, Piece.identifier.injEq]
      simpa only [eq_comm] using growsBy_request aliases hneeds
    · simp only [substitutePiece, hneeds, Bool.false_eq_true, if_false]
      apply GrowsBy.refl
      intro name h
      obtain rfl : word = name := by simpa using h
      simpa using hneeds

theorem substitutePieces_cons (aliases : Aliases) (piece : Piece) (rest : List Piece) :
    aliases.substitutePieces (piece :: rest) =
      ((aliases.substitutePiece piece).1 ++ ((aliases.substitutePiece piece).2.substitutePieces rest).1,
        ((aliases.substitutePiece piece).2.substitutePieces rest).2) := rfl

theorem growsBy_substitutePieces (aliases : Aliases) (ps : List Piece) :
    GrowsBy aliases (aliases.substitutePieces ps).2 fun name => .identifier name ∈ ps := by
  induction ps generalizing aliases with
  | nil => exact GrowsBy.refl fun name h => by simp at h
  | cons piece rest ih =>
    have h := (growsBy_substitutePiece aliases piece).trans (ih (aliases.substitutePiece piece).2)
    rw [substitutePieces_cons]
    simpa only [List.mem_cons, eq_comm] using h

theorem growsBy_substitute (aliases : Aliases) (text : List Char) :
    GrowsBy aliases (aliases.substitute text).2 (· ∈ identifiers text) := by
  simp only [mem_identifiers]
  exact growsBy_substitutePieces aliases (pieces text)

theorem substitutePiece_eq_renamedPiece {piece : Piece}
    (h : (aliases.substitutePiece piece).2.names <+: final.names) :
    (aliases.substitutePiece piece).1 = final.renamedPiece piece := by
  cases piece with
  | other c => rfl
  | identifier word =>
    have hgrows := growsBy_substitutePiece aliases (.identifier word)
    by_cases hneeds : needsAlias word
    · have hword : word ∈ (aliases.substitutePiece (.identifier word)).2.names := hgrows.complete word rfl hneeds
      simp only [substitutePiece, hneeds, if_true, aliasFor] at h hword ⊢
      rw [renamedPiece, engineName, if_pos hneeds, aliasOf_of_prefix h hword, aliasOf_request]
    · simp [substitutePiece, renamedPiece, engineName, hneeds]

theorem substitutePieces_eq_flatMap {ps : List Piece} (h : (aliases.substitutePieces ps).2.names <+: final.names) :
    (aliases.substitutePieces ps).1 = ps.flatMap final.renamedPiece := by
  induction ps generalizing aliases with
  | nil => rfl
  | cons piece rest ih =>
    have hrest := growsBy_substitutePieces (aliases.substitutePiece piece).2 rest
    rw [substitutePieces_cons] at h ⊢
    have hpiece : (aliases.substitutePiece piece).1 = final.renamedPiece piece :=
      substitutePiece_eq_renamedPiece (hrest.isPrefix.trans h)
    rw [List.flatMap_cons, hpiece, ih h]

/-- A substituted text reads as if it had been renamed with any later table. -/
theorem substitute_eq_renamed {text : List Char} (h : (aliases.substitute text).2.names <+: final.names) :
    (aliases.substitute text).1 = final.renamed text :=
  substitutePieces_eq_flatMap h

/-! ### Parts of a renamed text -/

@[simp] theorem renamed_nil : final.renamed [] = [] := by
  rw [renamed, pieces, List.flatMap_nil]

theorem renamed_append (s : List Char) {t : List Char} (h : StopsAt isWord t) :
    final.renamed (s ++ t) = final.renamed s ++ final.renamed t := by
  rw [renamed, pieces_append s h, List.flatMap_append]
  rfl

theorem renamed_cons_of_not_begins {c : Char} (hc : beginsIdentifier c = false) (s : List Char) :
    final.renamed (c :: s) = c :: final.renamed s := by
  rw [renamed, pieces, if_neg (by simp [hc])]
  rfl

/-- Characters outside identifiers are left as they are. -/
theorem renamed_append_of_not_begins {s : List Char} (h : ∀ c ∈ s, beginsIdentifier c = false) (t : List Char) :
    final.renamed (s ++ t) = s ++ final.renamed t := by
  induction s with
  | nil => rfl
  | cons c rest ih =>
    rw [List.forall_mem_cons] at h
    rw [List.cons_append, List.cons_append, renamed_cons_of_not_begins h.1, ih h.2]

theorem stopsAt_renamed (aliases : Aliases) {text : List Char} (h : StopsAt isWord text) :
    StopsAt isWord (aliases.renamed text) := by
  cases text with
  | nil => rwa [renamed_nil]
  | cons c rest =>
    have hc : isWord c = false := stopsAt_cons.mp h
    rw [renamed_cons_of_not_begins (by simp [beginsIdentifier, hc])]
    exact stopsAt_cons.mpr hc

/-! ### Texts that are left as they are -/

theorem substitutePieces_append (aliases : Aliases) (ps qs : List Piece) :
    aliases.substitutePieces (ps ++ qs) =
      ((aliases.substitutePieces ps).1 ++ ((aliases.substitutePieces ps).2.substitutePieces qs).1,
        ((aliases.substitutePieces ps).2.substitutePieces qs).2) := by
  induction ps generalizing aliases with
  | nil => rfl
  | cons piece rest ih => simp only [List.cons_append, substitutePieces_cons, ih, List.append_assoc]

/-- Pieces without a name that needs an alias are left as they are. -/
theorem substitutePieces_of_ascii {ps : List Piece} (h : ∀ name, .identifier name ∈ ps → IsAsciiText name) :
    aliases.substitutePieces ps = (ps.flatMap Piece.text, aliases) := by
  induction ps with
  | nil => rfl
  | cons piece rest ih =>
    have hpiece : aliases.substitutePiece piece = (piece.text, aliases) := by
      cases piece with
      | other c => rfl
      | identifier name =>
        have hname : needsAlias name = false := needsAlias_eq_false.mpr (h name List.mem_cons_self)
        simp [substitutePiece, hname, Piece.text]
    rw [substitutePieces_cons, hpiece, ih fun name hname => h name (List.mem_cons_of_mem piece hname)]
    rfl

theorem substitute_of_ascii {text : List Char} (h : ∀ name ∈ identifiers text, IsAsciiText name) :
    aliases.substitute text = (text, aliases) := by
  have hpieces : ∀ name, .identifier name ∈ pieces text → IsAsciiText name := fun name hname =>
    h name (mem_identifiers.mpr hname)
  rw [substitute, substitutePieces_of_ascii hpieces, flatMap_text_pieces]

/-- An ASCII text in front of another one is left as it is, and asks for no alias, as long as the second text does not
    go on with a word. -/
theorem substitute_append_of_ascii {first second : List Char} (hfirst : IsAsciiText first)
    (hsecond : StopsAt isWord second) :
    aliases.substitute (first ++ second) = (first ++ (aliases.substitute second).1, (aliases.substitute second).2) := by
  have hpieces : ∀ name, .identifier name ∈ pieces first → IsAsciiText name := fun name hname =>
    hfirst.of_subset fun c hc => mem_of_mem_identifiers (mem_identifiers.mpr hname) hc
  simp only [substitute, pieces_append first hsecond, substitutePieces_append, substitutePieces_of_ascii hpieces,
    flatMap_text_pieces]

end Aliases

end Reckoner.Document
