import Mathlib.Data.List.Induction
import Reckoner.Proofs.Document.Substitution

/-!
# Tables of aliases under calls

A table is called in two ways: it is asked for the alias of a name, or it is given a text, which asks for the aliases
of its foreign names from left to right.  Whatever the calls, the table lists the names that were asked for, each one at
the place of its first request.

The same table can be kept as a dictionary with the number of the next alias beside it.  Both ways of keeping it give
the same answers, so that number is always the number of entries, and no entry is ever written over.
-/

namespace Reckoner.Document

open Reckoner.Text

variable {aliases : Aliases} {asked : List (List Char)}

/-! ### Calls -/

/-- Calls on a table: for the alias of a name, and for a text with its names replaced. -/
inductive Call
  | name (word : List Char)
  | text (line : List Char)

/-- The names that a call asks for, in order. -/
def Call.requested : Call → List (List Char)
  | .name word => [word]
  | .text line => (identifiers line).filter needsAlias

namespace Aliases

def answer (aliases : Aliases) : Call → List Char × Aliases
  | .name word => aliases.aliasFor word
  | .text line => aliases.substitute line

/-- The table after some calls. -/
def afterCalls (aliases : Aliases) (calls : List Call) : Aliases :=
  calls.foldl (fun aliases call => (aliases.answer call).2) aliases

end Aliases

/-! ### First requests -/

theorem eraseDups_concat (names : List (List Char)) (name : List Char) :
    (names ++ [name]).eraseDups = if name ∈ names then names.eraseDups else names.eraseDups ++ [name] := by
  rw [List.eraseDups_append]
  by_cases hname : name ∈ names
  · simp [List.removeAll, hname]
  · simp [List.removeAll, hname, List.eraseDups_cons]

theorem nodup_eraseDups (names : List (List Char)) : names.eraseDups.Nodup := by
  induction names using List.reverseRecOn with
  | nil => simp
  | append_singleton names name ih =>
    rw [eraseDups_concat]
    split
    · exact ih
    · rename_i hname
      rw [List.nodup_append]
      refine ⟨ih, by simp, ?_⟩
      rintro other hother _ hlast rfl
      obtain rfl : other = name := by simpa using hlast
      exact hname (List.mem_eraseDups.mp hother)

namespace Aliases

/-- The table lists some requests: every name that was asked for stands at the place of its first request. -/
def Lists (aliases : Aliases) (asked : List (List Char)) : Prop := aliases.names = asked.eraseDups

namespace Lists

theorem request (h : aliases.Lists asked) (name : List Char) : (aliases.request name).Lists (asked ++ [name]) := by
  have hcontains : aliases.contains name = true ↔ name ∈ asked := by
    rw [contains, List.contains_iff_mem, h, List.mem_eraseDups]
  rw [Lists, eraseDups_concat, Aliases.request]
  by_cases hname : name ∈ asked
  · rw [if_pos (hcontains.mpr hname), if_pos hname, h]
  · rw [if_neg (mt hcontains.mp hname), if_neg hname, h]

theorem substitute (h : aliases.Lists asked) (text : List Char) :
    (aliases.substitute text).2.Lists (asked ++ (identifiers text).filter needsAlias) := by
  unfold Aliases.substitute
  fun_induction pieces text generalizing aliases asked with
  | case1 => simpa [Aliases.substitutePieces] using h
  | case2 c rest hc ih =>
    rw [identifiers_cons_of_begins hc, substitutePieces_cons]
    cases hneeds : needsAlias (c :: rest.takeWhile isWord) with
    | true =>
      have hrest := ih (h.request (c :: rest.takeWhile isWord))
      rw [List.append_assoc, List.singleton_append] at hrest
      simpa only [substitutePiece, hneeds, if_true, aliasFor, List.filter_cons] using hrest
    | false =>
      simpa only [substitutePiece, hneeds, Bool.false_eq_true, if_false, List.filter_cons] using ih h
  | case3 c rest hc ih =>
    rw [identifiers_cons_of_not_begins (by simpa using hc)]
    exact ih h

theorem answer (h : aliases.Lists asked) (call : Call) : (aliases.answer call).2.Lists (asked ++ call.requested) := by
  cases call with
  | name word => exact h.request word
  | text line => exact h.substitute line

theorem afterCalls (h : aliases.Lists asked) (calls : List Call) :
    (aliases.afterCalls calls).Lists (asked ++ calls.flatMap Call.requested) := by
  induction calls generalizing aliases asked with
  | nil => simpa [Aliases.afterCalls] using h
  | cons call rest ih =>
    have hrest := ih (h.answer call)
    rwa [List.append_assoc] at hrest

end Lists

theorem lists_afterCalls (calls : List Call) : (empty.afterCalls calls).Lists (calls.flatMap Call.requested) := by
  have hempty : empty.Lists [] := rfl
  simpa using hempty.afterCalls calls

/-! ### Entries -/

theorem map_fst_entries (aliases : Aliases) : aliases.entries.map Prod.fst = aliases.names := by
  rw [entries, List.map_map]
  exact List.zipIdx_map_fst 0 aliases.names

theorem nodup_map_snd_entries (aliases : Aliases) : (aliases.entries.map Prod.snd).Nodup := by
  have hplaces : aliases.entries.map Prod.snd = (List.range' 0 aliases.names.length).map aliasText := by
    rw [← List.zipIdx_map_snd 0 aliases.names, entries, List.map_map, List.map_map]
    rfl
  rw [hplaces]
  exact List.Pairwise.map _ (fun _ _ hne => aliasText_injective.ne hne) List.nodup_range'

end Aliases

/-! ### Tables as dictionaries -/

/-- A table kept as a dictionary: the names with their aliases, in the order in which they were entered, and the number
    of the next alias. -/
structure AliasDictionary where
  entries : List (List Char × List Char)
  counter : Nat

namespace AliasDictionary

def empty : AliasDictionary := ⟨[], 0⟩

/-- A name is looked up, and entered with the next alias if it is not found. -/
def aliasFor (table : AliasDictionary) (name : List Char) : List Char × AliasDictionary :=
  match table.entries.lookup name with
  | some text => (text, table)
  | none => (aliasText table.counter, ⟨table.entries ++ [(name, aliasText table.counter)], table.counter + 1⟩)

def substitutePieces (table : AliasDictionary) : List Piece → List Char × AliasDictionary
  | [] => ([], table)
  | .other c :: rest =>
    let (texts, table) := substitutePieces table rest
    (c :: texts, table)
  | .identifier name :: rest =>
    let (text, table) := if needsAlias name then table.aliasFor name else (name, table)
    let (texts, table) := substitutePieces table rest
    (text ++ texts, table)

def answer (table : AliasDictionary) : Call → List Char × AliasDictionary
  | .name word => table.aliasFor word
  | .text line => table.substitutePieces (pieces line)

def afterCalls (table : AliasDictionary) (calls : List Call) : AliasDictionary :=
  calls.foldl (fun table call => (table.answer call).2) table

end AliasDictionary

namespace Aliases

/-- The dictionary with the entries of a table, whose next alias is the one behind the last entry. -/
def toDictionary (aliases : Aliases) : AliasDictionary := ⟨aliases.entries, aliases.size⟩

theorem entries_concat (names : List (List Char)) (name : List Char) :
    entries ⟨names ++ [name]⟩ = entries ⟨names⟩ ++ [(name, aliasText names.length)] := by
  simp [entries, List.zipIdx_append]

theorem aliasFor_toDictionary (aliases : Aliases) (name : List Char) :
    aliases.toDictionary.aliasFor name = ((aliases.aliasFor name).1, (aliases.aliasFor name).2.toDictionary) := by
  rw [AliasDictionary.aliasFor, toDictionary, lookup_entries]
  by_cases hname : name ∈ aliases.names
  · have hrequest : aliases.request name = aliases := by
      rw [request, if_pos (by simpa [contains] using hname)]
    simp only [hname, if_true, aliasFor, hrequest, toDictionary]
  · have hrequest : aliases.request name = ⟨aliases.names ++ [name]⟩ := by
      rw [request, if_neg (by simpa [contains] using hname)]
    have halias : aliases.aliasOf name = aliasText aliases.size := by
      rw [aliasOf, List.idxOf_eq_length hname, size]
    simp only [hname, if_false, aliasFor, hrequest, halias, toDictionary, entries_concat, size, List.length_append,
      List.length_singleton]

theorem substitutePieces_toDictionary (aliases : Aliases) (ps : List Piece) :
    aliases.toDictionary.substitutePieces ps =
      ((aliases.substitutePieces ps).1, (aliases.substitutePieces ps).2.toDictionary) := by
  induction ps generalizing aliases with
  | nil => rfl
  | cons piece rest ih =>
    rw [substitutePieces_cons]
    cases piece with
    | other c =>
      simp only [AliasDictionary.substitutePieces, ih]
      rfl
    | identifier name =>
      cases hneeds : needsAlias name with
      | true =>
        simp only [AliasDictionary.substitutePieces, substitutePiece, hneeds, if_true, aliasFor_toDictionary, ih]
      | false =>
        simp only [AliasDictionary.substitutePieces, substitutePiece, hneeds, Bool.false_eq_true, if_false, ih]

theorem answer_toDictionary (aliases : Aliases) (call : Call) :
    aliases.toDictionary.answer call = ((aliases.answer call).1, (aliases.answer call).2.toDictionary) := by
  cases call with
  | name word => exact aliases.aliasFor_toDictionary word
  | text line => exact aliases.substitutePieces_toDictionary (pieces line)

theorem afterCalls_toDictionary (aliases : Aliases) (calls : List Call) :
    aliases.toDictionary.afterCalls calls = (aliases.afterCalls calls).toDictionary := by
  induction calls generalizing aliases with
  | nil => rfl
  | cons call rest ih =>
    have hcall : (aliases.toDictionary.answer call).2 = (aliases.answer call).2.toDictionary := by
      rw [answer_toDictionary]
    exact (congrArg (·.afterCalls rest) hcall).trans (ih _)

/-! ### The table after any calls -/

/-- After any calls on a new table, its entries are the distinct names that were asked for, in the order of their first
    requests, each with the alias of its place.  The counter is the number of entries, no two names share an alias, and
    all further calls leave the entries as they are.  A table that only lists the names has the same entries and gives
    every call the same answer. -/
theorem table_lists_first_requests (calls : List Call) :
    let table := AliasDictionary.empty.afterCalls calls
    let listed := empty.afterCalls calls
    table.entries = (calls.flatMap Call.requested).eraseDups.zipIdx.map (fun (name, k) => (name, aliasText k)) ∧
    table.counter = table.entries.length ∧
    (table.entries.map Prod.fst).Nodup ∧ (table.entries.map Prod.snd).Nodup ∧
    (∀ more, table.entries <+: (AliasDictionary.empty.afterCalls (calls ++ more)).entries) ∧
    listed.entries = table.entries ∧ listed.size = table.counter ∧
    ∀ call, (listed.answer call).1 = (table.answer call).1 := by
  intro table listed
  have hkept (calls : List Call) : AliasDictionary.empty.afterCalls calls = (empty.afterCalls calls).toDictionary :=
    empty.afterCalls_toDictionary calls
  have htable : table = listed.toDictionary := hkept calls
  have hlists : listed.names = (calls.flatMap Call.requested).eraseDups := lists_afterCalls calls
  rw [htable]
  refine ⟨?_, ?_, ?_, listed.nodup_map_snd_entries, fun more => ?_, rfl, rfl, fun call => ?_⟩
  · rw [← hlists]
    rfl
  · simp [toDictionary, entries, size]
  · rw [toDictionary, map_fst_entries, hlists]
    exact nodup_eraseDups _
  · have hmore : (empty.afterCalls (calls ++ more)).names = ((calls ++ more).flatMap Call.requested).eraseDups :=
      lists_afterCalls (calls ++ more)
    rw [List.flatMap_append, List.eraseDups_append, ← hlists] at hmore
    rw [hkept]
    exact entries_of_prefix ⟨_, hmore.symm⟩
  · rw [answer_toDictionary]

/-- A foreign name in a text and the same name on its own are one entry; an ASCII name is one only on its own. -/
example : (empty.afterCalls [.text "房租 + rent*税".toList, .name "rent".toList, .name "税".toList]).names =
    ["房租".toList, "税".toList, "rent".toList] := by
  decide +kernel

end Aliases

end Reckoner.Document
