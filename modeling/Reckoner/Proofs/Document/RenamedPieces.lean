import Reckoner.Proofs.Document.Inspection

/-!
# Pieces of a renamed line

Substitution changes names and nothing else.  An alias is a name itself, so the pieces of a substituted line are the
pieces of the line with the names in them replaced: what stands between two names stays there, and no name runs into the
digits in front of it or into the text behind it.
-/

namespace Reckoner.Document

open Reckoner.Expression Reckoner.Number Reckoner.Text

variable {aliases : Aliases} {name line : List Char}

theorem isIdentifier_aliasText (k : Nat) : IsIdentifier (aliasText k) := by
  refine ⟨'_', 'v' :: (toString k).toList, rfl, by decide, ?_⟩
  intro c hc
  rcases List.mem_cons.mp hc with rfl | hc
  · decide
  · exact isWord_of_isAsciiWord (isAsciiWord_of_isAsciiDigit ((isDigits_toString k).2 c hc))

namespace Aliases

/-! ### Names of the engine -/

theorem isIdentifier_engineName (aliases : Aliases) (h : IsIdentifier name) :
    IsIdentifier (aliases.engineName name) := by
  unfold engineName
  split
  · exact isIdentifier_aliasText _
  · exact h

theorem isAsciiText_engineName (aliases : Aliases) (name : List Char) : IsAsciiText (aliases.engineName name) := by
  unfold engineName
  split
  · exact isAsciiText_aliasText _
  · rename_i hneeds
    exact needsAlias_eq_false.mp (by simpa using hneeds)

theorem engineName_of_ascii (aliases : Aliases) (h : IsAsciiText name) : aliases.engineName name = name := by
  rw [engineName, needsAlias_eq_false.mpr h]
  rfl

/-- A name with a character outside ASCII is replaced by what the table holds for it. -/
theorem lookup_engineName (hname : name ∈ aliases.names) (hforeign : ¬ IsAsciiText name) :
    aliases.entries.lookup name = some (aliases.engineName name) := by
  have hneeds : needsAlias name = true := by
    rw [← needsAlias_eq_false] at hforeign
    simpa using hforeign
  rw [lookup_entries, if_pos hname, engineName, if_pos hneeds]

/-! ### Pieces -/

/-- A piece with its name replaced. -/
def renamePiece (aliases : Aliases) : Piece → Piece
  | .identifier name => .identifier (aliases.engineName name)
  | .other c => .other c

theorem pieces_renamed (aliases : Aliases) (text : List Char) :
    pieces (aliases.renamed text) = (pieces text).map aliases.renamePiece := by
  fun_induction pieces text with
  | case1 => rw [renamed_nil, pieces, List.map_nil]
  | case2 c rest hc ih =>
    have hname : IsIdentifier (c :: rest.takeWhile isWord) :=
      ⟨c, rest.takeWhile isWord, rfl, hc, fun d hd => List.mem_takeWhile_imp hd⟩
    have hstops : StopsAt isWord (rest.dropWhile isWord) := stopsAt_dropWhile isWord rest
    have hparts : c :: rest = c :: rest.takeWhile isWord ++ rest.dropWhile isWord := by
      rw [List.cons_append, List.takeWhile_append_dropWhile]
    calc pieces (aliases.renamed (c :: rest))
        = pieces (aliases.engineName (c :: rest.takeWhile isWord) ++ aliases.renamed (rest.dropWhile isWord)) := by
          rw [hparts, renamed_append _ hstops, hname.renamed_eq]
      _ = pieces (aliases.engineName (c :: rest.takeWhile isWord)) ++
            pieces (aliases.renamed (rest.dropWhile isWord)) := pieces_append _ (aliases.stopsAt_renamed hstops)
      _ = .identifier (aliases.engineName (c :: rest.takeWhile isWord)) ::
            (pieces (rest.dropWhile isWord)).map aliases.renamePiece := by
          rw [(aliases.isIdentifier_engineName hname).pieces_eq, ih, List.singleton_append]
  | case3 c rest hc ih =>
    rw [renamed_cons_of_not_begins (by simpa using hc), pieces, if_neg hc, ih, List.map_cons]
    rfl

theorem identifiers_renamed (aliases : Aliases) (text : List Char) :
    identifiers (aliases.renamed text) = (identifiers text).map aliases.engineName := by
  simp only [identifiers, pieces_renamed, List.filterMap_map, List.map_filterMap]
  congr 1
  funext piece
  cases piece <;> rfl

/-! ### Substituted lines -/

/-- A line with its names replaced, by the table that holds the aliases of all of them, is cut into the same pieces as
    the line: the characters between the names are kept, ASCII names are kept, and every other name has become the alias
    that the table holds for it.  Then no name has a character outside ASCII, and there is nothing left to replace. -/
theorem substitution_changes_names_only (aliases : Aliases) (line : List Char) :
    let output := (aliases.substitute line).1
    let final := (aliases.substitute line).2
    pieces output = (pieces line).map final.renamePiece ∧
    identifiers output = (identifiers line).map final.engineName ∧
    (∀ name ∈ identifiers line, IsAsciiText name → final.engineName name = name) ∧
    (∀ name ∈ identifiers line, ¬ IsAsciiText name → final.entries.lookup name = some (final.engineName name)) ∧
    (∀ name ∈ identifiers output, IsAsciiText name) ∧
    final.substitute output = (output, final) := by
  intro output final
  have houtput : output = final.renamed line := substitute_eq_renamed List.prefix_rfl
  have hnames : identifiers output = (identifiers line).map final.engineName := by
    rw [houtput, identifiers_renamed]
  have hascii : ∀ name ∈ identifiers output, IsAsciiText name := by
    intro name hname
    rw [hnames, List.mem_map] at hname
    obtain ⟨original, -, rfl⟩ := hname
    exact final.isAsciiText_engineName original
  refine ⟨by rw [houtput, pieces_renamed], hnames, fun name _ => final.engineName_of_ascii, ?_, hascii,
    substitute_of_ascii hascii⟩
  intro name hname hforeign
  have hneeds : needsAlias name = true := by
    rw [← needsAlias_eq_false] at hforeign
    simpa using hforeign
  exact lookup_engineName ((growsBy_substitute aliases line).complete name hname hneeds) hforeign

/-- Digits in front of a name stay apart from its alias. -/
example : (empty.substitute "5房租 + x²_1*房租".toList).1 = "5_v0 + _v1*_v0".toList := by
  decide +kernel

end Aliases

end Reckoner.Document
