import Reckoner.Document.LineClass
import Reckoner.Proofs.Document.Expansion
import Reckoner.Proofs.Document.Inspection
import Reckoner.Proofs.Document.Validation

/-!
# Foreign names in text

Two spellings of one text: some names of foreign letters in the first are replaced by other such names in the second,
and everything else is the same.  Whatever looks at single characters or at runs of them does the same to both, because
it treats all foreign letters alike: where the first text is cut, the second can be cut at the same place, and the parts
are again two spellings of one text.
-/

namespace Reckoner.Document

open Reckoner.Text

variable {p : Char → Bool} {s t u : List Char}

/-! ### Foreign letters -/

/-- A letter of another alphabet: a word character outside ASCII that is no decimal digit. -/
def isForeignLetter (c : Char) : Bool := !isAscii c && beginsIdentifier c

/-- Names that consist of foreign letters only. -/
structure IsForeign (name : List Char) : Prop where
  ne_nil : name ≠ []
  letter : ∀ c ∈ name, isForeignLetter c

instance (name : List Char) : Decidable (IsForeign name) :=
  decidable_of_iff (name ≠ [] ∧ ∀ c ∈ name, isForeignLetter c) ⟨fun h => ⟨h.1, h.2⟩, fun h => ⟨h.ne_nil, h.letter⟩⟩

/-- A class of characters without foreign letters. -/
def ExcludesForeign (p : Char → Bool) : Prop := ∀ c, isForeignLetter c → p c = false

theorem isWord_of_isForeignLetter {c : Char} (h : isForeignLetter c) : isWord c := by
  simp only [isForeignLetter, beginsIdentifier, Bool.and_eq_true] at h
  exact h.2.1

theorem isForeignLetter_of_isAscii {c : Char} (h : isAscii c) : isForeignLetter c = false := by
  simp [isForeignLetter, h]

theorem isForeignLetter_of_not_begins {c : Char} (h : beginsIdentifier c = false) : isForeignLetter c = false := by
  simp [isForeignLetter, h]

theorem ne_of_isForeignLetter {c d : Char} (hc : isForeignLetter c) (hd : isForeignLetter d = false) : c ≠ d := by
  rintro rfl
  rw [hc] at hd
  cases hd

theorem not_isAsciiText_of_foreign (h : ∃ c ∈ s, isForeignLetter c) : ¬ IsAsciiText s := by
  obtain ⟨c, hc, hforeign⟩ := h
  exact fun hascii => ne_of_isForeignLetter hforeign (isForeignLetter_of_isAscii (hascii c hc)) rfl

theorem excludesForeign_of_ascii (h : ∀ c, p c → isAscii c) : ExcludesForeign p := by
  intro c hc
  by_contra hp
  exact ne_of_isForeignLetter hc (isForeignLetter_of_isAscii (h c (by simpa using hp))) rfl

theorem excludesForeign_isDigit : ExcludesForeign isDigit := by
  intro c hc
  simp only [isForeignLetter, beginsIdentifier, Bool.and_eq_true, Bool.not_eq_true'] at hc
  exact hc.2.2

theorem excludesForeign_isBlank : ExcludesForeign isBlank := by
  intro c hc
  by_contra hblank
  have hnone := isWord_of_isBlank (c := c) (by simpa using hblank)
  rw [isWord_of_isForeignLetter hc] at hnone
  cases hnone

theorem excludesForeign_isMathCharacter : ExcludesForeign isMathCharacter := by
  apply excludesForeign_of_ascii
  intro c hc
  have hsigns : ∀ d ∈ ['=', '(', ')', '^'] ++ chainOperators, isAscii d := by decide
  simp only [isMathCharacter, Bool.or_eq_true, List.contains_iff_mem] at hc
  rcases hc with (hdigit | hsign) | hoperator
  · exact isAscii_of_isAsciiDigit hdigit
  · exact hsigns c (List.mem_append_left _ hsign)
  · exact hsigns c (List.mem_append_right _ hoperator)

theorem excludesForeign_isAsciiWord : ExcludesForeign isAsciiWord :=
  excludesForeign_of_ascii fun _ => isAscii_of_isAsciiWord

namespace IsForeign

variable {name : List Char}

theorem isIdentifier (h : IsForeign name) : IsIdentifier name := by
  obtain ⟨c, rest, rfl⟩ := List.exists_cons_of_ne_nil h.ne_nil
  have hc : isForeignLetter c = true := h.letter c List.mem_cons_self
  simp only [isForeignLetter, Bool.and_eq_true] at hc
  exact ⟨c, rest, rfl, hc.2, fun d hd => isWord_of_isForeignLetter (h.letter d (List.mem_cons_of_mem c hd))⟩

theorem isWord (h : IsForeign name) : ∀ c ∈ name, isWord c := fun _ hc => h.isIdentifier.isWord hc

theorem needsAlias (h : IsForeign name) : needsAlias name := by
  obtain ⟨c, rest, rfl⟩ := List.exists_cons_of_ne_nil h.ne_nil
  have hc : isForeignLetter c = true := h.letter c List.mem_cons_self
  simp only [isForeignLetter, Bool.and_eq_true] at hc
  simp [Document.needsAlias, hc.1]

theorem stopsAt (h : IsForeign name) (hp : ExcludesForeign p) (s : List Char) : StopsAt p (name ++ s) := by
  obtain ⟨c, rest, rfl⟩ := List.exists_cons_of_ne_nil h.ne_nil
  exact stopsAt_cons.mpr (hp c (h.letter c List.mem_cons_self))

theorem rdropWhile_eq (h : IsForeign name) (hp : ExcludesForeign p) : name.rdropWhile p = name :=
  List.rdropWhile_eq_self_iff.mpr fun hne => by simp [hp _ (h.letter _ (List.getLast_mem hne))]

theorem not_mem (h : IsForeign name) {c : Char} (hc : isForeignLetter c = false) : c ∉ name :=
  fun hmem => ne_of_isForeignLetter (h.letter c hmem) hc rfl

end IsForeign

/-! ### Ends of texts -/

theorem rdropWhile_append (p : Char → Bool) (s t : List Char) :
    (s ++ t).rdropWhile p = if t.rdropWhile p = [] then s.rdropWhile p else s ++ t.rdropWhile p := by
  simp only [List.rdropWhile, List.reverse_append, List.dropWhile_append, List.reverse_eq_nil_iff, List.isEmpty_iff]
  split
  · rfl
  · rw [List.reverse_append, List.reverse_reverse]

/-- Trimming a text does not touch its identifiers. -/
theorem identifiers_trim (s : List Char) : identifiers (trim s) = identifiers s := by
  have hnone {u : List Char} (hu : ∀ c ∈ u, isBlank c) : ∀ c ∈ u, beginsIdentifier c = false := fun c hc => by
    simp [beginsIdentifier, isWord_of_isBlank (hu c hc)]
  have hfront (u : List Char) : identifiers (u.dropWhile isBlank) = identifiers u := by
    conv_rhs => rw [← List.takeWhile_append_dropWhile (p := isBlank) (l := u)]
    exact (identifiers_append_of_not_begins (hnone fun c hc => List.mem_takeWhile_imp hc) _).symm
  have hback (u : List Char) : identifiers (u.rdropWhile isBlank) = identifiers u := by
    have hblanks : ∀ c ∈ u.rtakeWhile isBlank, isBlank c := fun c hc => List.mem_rtakeWhile_imp hc
    have hstops : StopsAt isWord (u.rtakeWhile isBlank) :=
      fun c hc => isWord_of_isBlank (hblanks c (List.mem_of_mem_head? hc))
    have hempty : identifiers (u.rtakeWhile isBlank) = [] := by
      have h := identifiers_append_of_not_begins (hnone hblanks) []
      rwa [List.append_nil, identifiers_nil] at h
    conv_rhs => rw [← List.rdropWhile_append_rtakeWhile (p := isBlank) (l := u)]
    rw [identifiers_append _ hstops, hempty, List.append_nil]
  exact (hback _).trans (hfront s)

/-! ### Two spellings of a text -/

/-- Pairs of foreign names, no two of which share one of their names. -/
structure Respelling where
  pairs : List Char → List Char → Prop
  left : ∀ {name other}, pairs name other → IsForeign name
  right : ∀ {name other}, pairs name other → IsForeign other
  eq_iff : ∀ {name other name' other'}, pairs name other → pairs name' other' → (name = name' ↔ other = other')

/-- The pairs the other way around. -/
def Respelling.symm (ρ : Respelling) : Respelling where
  pairs other name := ρ.pairs name other
  left h := ρ.right h
  right h := ρ.left h
  eq_iff h h' := (ρ.eq_iff h h').symm

variable {ρ : Respelling}

/-- A text in which some foreign names, each up to the end of its word, are replaced by those they are paired with. -/
inductive Respelled (ρ : Respelling) : List Char → List Char → Prop
  | nil : Respelled ρ [] []
  | kept {c : Char} {s t : List Char} (hc : isForeignLetter c = false) (h : Respelled ρ s t) :
      Respelled ρ (c :: s) (c :: t)
  | name {name other s t : List Char} (hname : ρ.pairs name other) (hs : StopsAt isWord s) (h : Respelled ρ s t) :
      Respelled ρ (name ++ s) (other ++ t)

/-- Pieces of two spellings. -/
inductive RespelledPiece (ρ : Respelling) : Piece → Piece → Prop
  | other (c : Char) : RespelledPiece ρ (.other c) (.other c)
  | kept {name : List Char} (hname : needsAlias name = false) : RespelledPiece ρ (.identifier name) (.identifier name)
  | renamed {name other : List Char} (hname : ρ.pairs name other) :
      RespelledPiece ρ (.identifier name) (.identifier other)

/-- All names of a text that need an alias are foreign names. -/
def HasForeignNames (s : List Char) : Prop := ∀ name ∈ identifiers s, needsAlias name → IsForeign name

instance (s : List Char) : Decidable (HasForeignNames s) :=
  inferInstanceAs (Decidable (∀ name ∈ identifiers s, needsAlias name → IsForeign name))

namespace HasForeignNames

theorem of_subset (h : HasForeignNames s) (ht : identifiers t ⊆ identifiers s) : HasForeignNames t :=
  fun name hname => h name (ht hname)

theorem trim (h : HasForeignNames s) : HasForeignNames (trim s) := by
  apply h.of_subset
  rw [identifiers_trim]
  exact List.Subset.refl _

/-- A foreign name has no digits at its end that a percentage could cut off. -/
theorem expandPercent (h : HasForeignNames s) : HasForeignNames (expandPercent s) := by
  intro name hname hneeds
  rw [identifiers_expandPercent] at hname
  obtain ⟨whole, hwhole, hcut⟩ := exists_of_mem_cutNames hname
  have hprefix : name <+: whole := by
    rcases hcut with rfl | rfl
    · exact List.prefix_rfl
    · exact List.rdropWhile_prefix _ _
  have hforeign : IsForeign whole := by
    refine h whole (mem_identifiers.mpr hwhole) ?_
    by_contra hplain
    have hascii := (needsAlias_eq_false.mp (by simpa using hplain)).of_subset hprefix.subset
    rw [needsAlias_eq_false.mpr hascii] at hneeds
    cases hneeds
  rcases hcut with rfl | rfl
  · exact hforeign
  · rwa [hforeign.rdropWhile_eq excludesForeign_isDigit]

theorem of_chain {settings : Settings} {context : Context} {line assembled : List Char}
    (h : HasForeignNames (Document.expandPercent line))
    (hchain : chain settings context.previous (Document.expandPercent line) = .ok assembled) :
    HasForeignNames assembled :=
  fun name hname hneeds => h name ((mem_identifiers_assembled hchain hneeds).mp hname) hneeds

end HasForeignNames

namespace Respelled

theorem of_pairs {name other : List Char} (h : ρ.pairs name other) : Respelled ρ name other := by
  simpa using Respelled.name h stopsAt_nil .nil

theorem kept_append (hu : ∀ c ∈ u, isForeignLetter c = false) (h : Respelled ρ s t) :
    Respelled ρ (u ++ s) (u ++ t) := by
  induction u with
  | nil => exact h
  | cons c rest ih =>
    rw [List.forall_mem_cons] at hu
    exact .kept hu.1 (ih hu.2)

/-- What holds of all foreign letters or of none holds of the first characters of both texts or of neither. -/
theorem forall_head?_iff {q : Char → Prop} (h : Respelled ρ s t)
    (hq : ∀ c d, isForeignLetter c → isForeignLetter d → (q c ↔ q d)) :
    (∀ c ∈ s.head?, q c) ↔ ∀ c ∈ t.head?, q c := by
  cases h with
  | nil => rfl
  | kept hc h => simp
  | name hname hs h =>
    have hleft := ρ.left hname
    have hright := ρ.right hname
    obtain ⟨c, rest, rfl⟩ := List.exists_cons_of_ne_nil hleft.ne_nil
    obtain ⟨d, more, rfl⟩ := List.exists_cons_of_ne_nil hright.ne_nil
    simpa using hq c d (hleft.letter c List.mem_cons_self) (hright.letter d List.mem_cons_self)

theorem stopsAt_isWord (h : Respelled ρ s t) (hs : StopsAt isWord s) : StopsAt isWord t :=
  (h.forall_head?_iff fun _ _ hc hd => by
    simp [isWord_of_isForeignLetter hc, isWord_of_isForeignLetter hd]).mp hs

theorem symm (h : Respelled ρ s t) : Respelled ρ.symm t s := by
  induction h with
  | nil => exact .nil
  | kept hc h ih => exact .kept hc ih
  | name hname hs h ih => exact .name hname (h.stopsAt_isWord hs) ih

theorem eq_nil_iff (h : Respelled ρ s t) : s = [] ↔ t = [] := by
  have hempty (u : List Char) : u = [] ↔ ∀ c ∈ u.head?, False := by cases u <;> simp
  rw [hempty s, hempty t]
  exact h.forall_head?_iff fun _ _ _ _ => Iff.rfl

/-- What holds of two spellings when it holds of the texts behind their first character, at whatever place these are
    cut, or behind their first name, holds of all. -/
theorem suffix_induction {motive : (s t : List Char) → Respelled ρ s t → Prop} (nil : motive [] [] .nil)
    (kept : ∀ (c : Char) (s t : List Char) (hc : isForeignLetter c = false) (h : Respelled ρ s t),
      (∀ s' t', s' <:+ s → ∀ h' : Respelled ρ s' t', motive s' t' h') → motive (c :: s) (c :: t) (.kept hc h))
    (name : ∀ (name other s t : List Char) (hname : ρ.pairs name other) (hs : StopsAt isWord s) (h : Respelled ρ s t),
      motive s t h → motive (name ++ s) (other ++ t) (.name hname hs h)) (h : Respelled ρ s t) : motive s t h := by
  induction hlength : s.length using Nat.strongRecOn generalizing s t with
  | ind n ih =>
    subst hlength
    cases h with
    | nil => exact nil
    | kept hc h =>
      refine kept _ _ _ hc h fun s' t' hsuffix h' => ih _ ?_ h' rfl
      have hle := hsuffix.length_le
      rw [List.length_cons]
      omega
    | name hname hs h =>
      have hpos := List.length_pos_of_ne_nil (ρ.left hname).ne_nil
      refine name _ _ _ _ hname hs h (ih _ ?_ h rfl)
      rw [List.length_append]
      omega

/-- A text has no other spelling, or it has foreign letters in all of them. -/
theorem eq_or_exists (h : Respelled ρ s t) :
    s = t ∨ (∃ c ∈ s, isForeignLetter c) ∧ ∃ c ∈ t, isForeignLetter c := by
  induction h with
  | nil => exact .inl rfl
  | kept hc h ih =>
    rcases ih with rfl | ⟨⟨c, hcs, hforeign⟩, ⟨d, hdt, hforeign'⟩⟩
    · exact .inl rfl
    · exact .inr ⟨⟨c, List.mem_cons_of_mem _ hcs, hforeign⟩, ⟨d, List.mem_cons_of_mem _ hdt, hforeign'⟩⟩
  | name hname hs h ih =>
    have hleft := ρ.left hname
    have hright := ρ.right hname
    obtain ⟨c, hc⟩ := List.exists_mem_of_ne_nil _ hleft.ne_nil
    obtain ⟨d, hd⟩ := List.exists_mem_of_ne_nil _ hright.ne_nil
    exact .inr ⟨⟨c, List.mem_append_left _ hc, hleft.letter c hc⟩, ⟨d, List.mem_append_left _ hd, hright.letter d hd⟩⟩

theorem eq_of_isAsciiText (h : Respelled ρ s t) (hs : IsAsciiText s) : s = t :=
  h.eq_or_exists.resolve_right fun hforeign => not_isAsciiText_of_foreign hforeign.1 hs

/-- A name of a pair is spelled as the other name. -/
theorem eq_of_pairs {name other : List Char} (h : Respelled ρ name t) (hname : ρ.pairs name other) : t = other := by
  have hforeign := ρ.left hname
  cases h with
  | nil => exact absurd rfl hforeign.ne_nil
  | kept hc h => exact absurd rfl (ne_of_isForeignLetter (hforeign.letter _ List.mem_cons_self) hc)
  | @name first second s t hfirst hs h =>
    cases s with
    | nil =>
      obtain rfl := h.eq_nil_iff.mp rfl
      rw [List.append_nil] at hname ⊢
      exact (ρ.eq_iff hfirst hname).mp rfl
    | cons c rest =>
      have hword := hforeign.isWord c (by simp)
      rw [stopsAt_cons.mp hs] at hword
      cases hword

/-! ### Parts of two spellings -/

/-- A first part without foreign letters is the same in both spellings. -/
theorem exists_of_append (hu : ∀ c ∈ u, isForeignLetter c = false) (h : Respelled ρ (u ++ s) t) :
    ∃ t', t = u ++ t' ∧ Respelled ρ s t' := by
  induction u generalizing t with
  | nil => exact ⟨t, rfl, h⟩
  | cons c rest ih =>
    rw [List.forall_mem_cons] at hu
    generalize hline : c :: rest ++ s = line at h
    cases h with
    | nil => cases hline
    | kept hd h =>
      obtain ⟨rfl, rfl⟩ := List.cons.inj hline
      obtain ⟨t', rfl, h'⟩ := ih hu.2 h
      exact ⟨t', rfl, h'⟩
    | name hname hs h =>
      have hstart := ρ.left hname
      obtain ⟨d, more, rfl⟩ := List.exists_cons_of_ne_nil hstart.ne_nil
      obtain ⟨rfl, -⟩ := List.cons.inj hline
      exact absurd rfl (ne_of_isForeignLetter (hstart.letter c List.mem_cons_self) hu.1)

theorem takeWhile_eq (h : Respelled ρ s t) (hp : ExcludesForeign p) : s.takeWhile p = t.takeWhile p := by
  induction h with
  | nil => rfl
  | kept hc h ih => rw [List.takeWhile_cons, List.takeWhile_cons, ih]
  | name hname hs h ih =>
    rw [takeWhile_of_stopsAt ((ρ.left hname).stopsAt hp _), takeWhile_of_stopsAt ((ρ.right hname).stopsAt hp _)]

theorem dropWhile (h : Respelled ρ s t) (hp : ExcludesForeign p) : Respelled ρ (s.dropWhile p) (t.dropWhile p) := by
  induction h with
  | nil => exact .nil
  | @kept c s t hc h ih =>
    rw [List.dropWhile_cons, List.dropWhile_cons]
    split
    · exact ih
    · exact .kept hc h
  | name hname hs h ih =>
    rw [dropWhile_of_stopsAt ((ρ.left hname).stopsAt hp _), dropWhile_of_stopsAt ((ρ.right hname).stopsAt hp _)]
    exact .name hname hs h

theorem takeWhile_isWord (h : Respelled ρ s t) : Respelled ρ (s.takeWhile isWord) (t.takeWhile isWord) := by
  induction h with
  | nil => exact .nil
  | @kept c s t hc h ih =>
    rw [List.takeWhile_cons, List.takeWhile_cons]
    split
    · exact .kept hc ih
    · exact .nil
  | name hname hs h ih =>
    rw [List.takeWhile_append_of_pos (ρ.left hname).isWord, List.takeWhile_append_of_pos (ρ.right hname).isWord,
      takeWhile_of_stopsAt hs, takeWhile_of_stopsAt (h.stopsAt_isWord hs)]
    exact .name hname stopsAt_nil .nil

theorem dropWhile_isWord (h : Respelled ρ s t) : Respelled ρ (s.dropWhile isWord) (t.dropWhile isWord) := by
  induction h with
  | nil => exact .nil
  | @kept c s t hc h ih =>
    rw [List.dropWhile_cons, List.dropWhile_cons]
    split
    · exact ih
    · exact .kept hc h
  | name hname hs h ih =>
    rw [List.dropWhile_append_of_pos (ρ.left hname).isWord, List.dropWhile_append_of_pos (ρ.right hname).isWord,
      dropWhile_of_stopsAt hs, dropWhile_of_stopsAt (h.stopsAt_isWord hs)]
    exact h

theorem rdropWhile (h : Respelled ρ s t) (hp : ExcludesForeign p) : Respelled ρ (s.rdropWhile p) (t.rdropWhile p) := by
  induction h with
  | nil => exact .nil
  | @kept c s t hc h ih =>
    have hparts (u : List Char) : (c :: u).rdropWhile p = if u.rdropWhile p = [] then [c].rdropWhile p else
        c :: u.rdropWhile p := rdropWhile_append p [c] u
    rw [hparts s, hparts t, List.rdropWhile_singleton]
    by_cases hs : s.rdropWhile p = []
    · rw [if_pos hs, if_pos (ih.eq_nil_iff.mp hs)]
      split
      · exact .nil
      · exact .kept hc .nil
    · rw [if_neg hs, if_neg (ih.eq_nil_iff.not.mp hs)]
      exact .kept hc ih
  | @name name other s t hname hs h ih =>
    have hstops : StopsAt isWord (s.rdropWhile p) := hs.of_prefix (List.rdropWhile_prefix p s)
    rw [rdropWhile_append, rdropWhile_append, (ρ.left hname).rdropWhile_eq hp, (ρ.right hname).rdropWhile_eq hp]
    by_cases hs : s.rdropWhile p = []
    · rw [if_pos hs, if_pos (ih.eq_nil_iff.mp hs)]
      exact of_pairs hname
    · rw [if_neg hs, if_neg (ih.eq_nil_iff.not.mp hs)]
      exact .name hname hstops ih

theorem trim (h : Respelled ρ s t) : Respelled ρ (trim s) (trim t) :=
  (h.dropWhile excludesForeign_isBlank).rdropWhile excludesForeign_isBlank

/-! ### Kinds of lines -/

theorem any_eq (h : Respelled ρ s t) (hp : ExcludesForeign p) : s.any p = t.any p := by
  have hnone {name : List Char} (hname : IsForeign name) : name.any p = false :=
    List.any_eq_false.mpr fun c hc => by simp [hp c (hname.letter c hc)]
  induction h with
  | nil => rfl
  | kept hc h ih => rw [List.any_cons, List.any_cons, ih]
  | name hname hs h ih => rw [List.any_append, List.any_append, hnone (ρ.left hname), hnone (ρ.right hname), ih]

theorem asciiWords_append_of_isForeign {name : List Char} (hname : IsForeign name) (s : List Char) :
    asciiWords (name ++ s) = asciiWords s := by
  have hnone : ∀ c ∈ name, isAsciiWord c = false := fun c hc => excludesForeign_isAsciiWord c (hname.letter c hc)
  clear hname
  induction name with
  | nil => rfl
  | cons c rest ih =>
    rw [List.forall_mem_cons] at hnone
    rw [List.cons_append, asciiWords, if_neg (by simp [hnone.1]), ih hnone.2]

theorem asciiWords_eq (h : Respelled ρ s t) : asciiWords s = asciiWords t := by
  induction h using suffix_induction with
  | nil => rfl
  | kept c s t hc h ih =>
    rw [asciiWords, asciiWords.eq_def (c :: t)]
    dsimp only
    rw [h.takeWhile_eq excludesForeign_isAsciiWord, ih s t List.suffix_rfl h,
      ih _ _ (List.dropWhile_suffix _) (h.dropWhile excludesForeign_isAsciiWord)]
  | name name other s t hname hs h ih =>
    rw [asciiWords_append_of_isForeign (ρ.left hname), asciiWords_append_of_isForeign (ρ.right hname), ih]

theorem isRuler_eq_false_of_foreign (h : ∃ c ∈ s, isForeignLetter c) : isRuler s = false := by
  obtain ⟨c, hc, hforeign⟩ := h
  have hruler : ∀ d ∈ rulerCharacters, isForeignLetter d = false := by decide +kernel
  rw [isRuler, Bool.and_eq_false_iff, List.all_eq_false]
  right
  refine ⟨c, ?_, fun hmem => ?_⟩
  · split
    · rename_i hlast
      obtain ⟨body, rfl⟩ := List.getLast?_eq_some_iff.mp hlast
      rw [List.dropLast_concat]
      have hnewline : c ≠ '\n' := ne_of_isForeignLetter hforeign (by decide)
      exact (List.mem_append.mp hc).resolve_right (by simpa using hnewline)
    · exact hc
  · exact ne_of_isForeignLetter hforeign (hruler c (by simpa using hmem)) rfl

theorem isRuler_eq (h : Respelled ρ s t) : isRuler s = isRuler t := by
  rcases h.eq_or_exists with rfl | ⟨hs, ht⟩
  · rfl
  · rw [isRuler_eq_false_of_foreign hs, isRuler_eq_false_of_foreign ht]

theorem looksLikeMath_eq (h : Respelled ρ s t) : looksLikeMath s = looksLikeMath t := by
  rw [looksLikeMath, looksLikeMath, h.any_eq excludesForeign_isMathCharacter, h.asciiWords_eq]

/-! ### Rejected lines -/

theorem isChain_iff (h : Respelled ρ s t) : s.IsChain Apart ↔ t.IsChain Apart := by
  have hunderscore : isForeignLetter '_' = false := by decide
  induction h with
  | nil => rfl
  | @kept c s t hc h ih =>
    rw [List.isChain_cons, List.isChain_cons]
    refine and_congr (h.forall_head?_iff fun d e hd he => ?_) ih
    exact iff_of_true (.inr (ne_of_isForeignLetter hd hunderscore)) (.inr (ne_of_isForeignLetter he hunderscore))
  | name hname hs h ih =>
    rw [isChain_append_of_not_mem ((ρ.left hname).not_mem hunderscore),
      isChain_append_of_not_mem ((ρ.right hname).not_mem hunderscore)]
    exact ih

/-- The words of two spellings are two spellings of the same words. -/
theorem wordRuns (h : Respelled ρ s t) : List.Forall₂ (Respelled ρ) (wordRuns s) (wordRuns t) := by
  induction h using suffix_induction with
  | nil =>
    rw [wordRuns_nil]
    exact .nil
  | kept c s t hc h ih =>
    rw [Document.wordRuns, Document.wordRuns.eq_def (c :: t)]
    dsimp only
    split
    · exact .cons (.kept hc h.takeWhile_isWord) (ih _ _ (List.dropWhile_suffix _) h.dropWhile_isWord)
    · exact ih s t List.suffix_rfl h
  | name name other s t hname hs h ih =>
    rw [wordRuns_word_append (ρ.left hname).isWord (ρ.left hname).ne_nil hs,
      wordRuns_word_append (ρ.right hname).isWord (ρ.right hname).ne_nil (h.stopsAt_isWord hs)]
    exact .cons (of_pairs hname) ih

theorem not_forbidden_of_foreign {word : List Char} (h : ∃ c ∈ word, isForeignLetter c) :
    forbiddenWords.contains (String.ofList word) = false := by
  by_contra hmem
  have hascii := (isAsciiText_of_mem_forbiddenWords (String.ofList word) (by simpa using hmem)).1
  rw [String.toList_ofList] at hascii
  exact not_isAsciiText_of_foreign h hascii

theorem forbiddenWord?_eq (h : Respelled ρ s t) : forbiddenWord? s = forbiddenWord? t := by
  have hwords := h.wordRuns
  rw [forbiddenWord?, forbiddenWord?]
  generalize Document.wordRuns s = words at hwords ⊢
  generalize Document.wordRuns t = others at hwords ⊢
  induction hwords with
  | nil => rfl
  | @cons word other _ _ hword _ ih =>
    rw [List.map_cons, List.map_cons, List.find?_cons, List.find?_cons, ih]
    rcases hword.eq_or_exists with rfl | ⟨hleft, hright⟩
    · rfl
    · rw [not_forbidden_of_foreign hleft, not_forbidden_of_foreign hright]

theorem reject?_eq {settings : Settings} (h : Respelled ρ s t)
    (hlength : settings.maxLineLength < s.length ↔ settings.maxLineLength < t.length) :
    reject? settings s = reject? settings t := by
  have hunderscores : occursIn ['_', '_'] s = occursIn ['_', '_'] t := by
    rw [Bool.eq_iff_iff, ← not_iff_not, Bool.not_eq_true, Bool.not_eq_true, occursIn_underscores_eq_false,
      occursIn_underscores_eq_false, h.isChain_iff]
  rw [reject?, reject?, hunderscores, h.forbiddenWord?_eq]
  simp only [hlength]

/-! ### Percentages -/

theorem expandPercent_append_of_isForeign {name : List Char} (hname : IsForeign name) (s : List Char) :
    Document.expandPercent (name ++ s) = name ++ Document.expandPercent s := by
  have hends : EndsNumeral name := by
    intro c hc
    have hletter := hname.letter c (List.mem_of_getLast? hc)
    exact ⟨excludesForeign_isDigit c hletter, ne_of_isForeignLetter hletter (by decide)⟩
  rw [expandPercent_append (.inl hends), expandPercent_eq_self (hname.not_mem (by decide))]

theorem exists_of_percentTail? (h : Respelled ρ s t) {fraction after : List Char}
    (htail : percentTail? s = some (fraction, after)) :
    ∃ after', percentTail? t = some (fraction, after') ∧ Respelled ρ after after' := by
  obtain ⟨hs, hfraction⟩ := eq_of_percentTail? htail
  have hkept : ∀ c ∈ fraction ++ ['%'], isForeignLetter c = false := by
    intro c hc
    rcases List.mem_append.mp hc with hc | hc
    · have hnumeral : ∀ d ∈ [] ++ fraction, beginsIdentifier d = false := not_begins_of_percentTail? (by simp) htail
      exact isForeignLetter_of_not_begins (hnumeral c hc)
    · obtain rfl := List.mem_singleton.mp hc
      decide
  have hparts : s = fraction ++ ['%'] ++ after := by simp [hs]
  rw [hparts] at h
  obtain ⟨after', rfl, hafter⟩ := exists_of_append hkept h
  refine ⟨after', ?_, hafter⟩
  rcases hfraction with rfl | ⟨more, rfl, hsome, hmore⟩
  · exact percentTail?_percent after'
  · simpa using percentTail?_point hmore hsome after'

theorem percentTail?_eq_none (h : Respelled ρ s t) (htail : percentTail? s = none) : percentTail? t = none := by
  by_contra hsome
  obtain ⟨⟨fraction, after⟩, hsome⟩ := Option.ne_none_iff_exists'.mp hsome
  obtain ⟨after', hfound, -⟩ := h.symm.exists_of_percentTail? hsome
  rw [htail] at hfound
  cases hfound

theorem expandPercent (h : Respelled ρ s t) : Respelled ρ (expandPercent s) (expandPercent t) := by
  induction h using suffix_induction with
  | nil =>
    rw [Document.expandPercent]
    exact .nil
  | kept c s t hc h ih =>
    by_cases hdigit : isDigit c
    · have hdigits : ∀ d ∈ c :: s.takeWhile isDigit, isDigit d :=
        List.forall_mem_cons.mpr ⟨hdigit, fun d hd => List.mem_takeWhile_imp hd⟩
      have hparts (u : List Char) : c :: u = c :: u.takeWhile isDigit ++ u.dropWhile isDigit := by
        rw [List.cons_append, List.takeWhile_append_dropWhile]
      have hkept : ∀ d ∈ c :: s.takeWhile isDigit, isForeignLetter d = false :=
        fun d hd => isForeignLetter_of_not_begins (not_begins_of_isDigit (hdigits d hd))
      have htail := h.dropWhile excludesForeign_isDigit
      rw [hparts s, hparts t, ← h.takeWhile_eq excludesForeign_isDigit,
        expandPercent_digits hdigits (by simp) (stopsAt_dropWhile _ _),
        expandPercent_digits hdigits (by simp) (stopsAt_dropWhile _ _)]
      cases hsign : percentTail? (s.dropWhile isDigit) with
      | none =>
        simp only [htail.percentTail?_eq_none hsign]
        exact kept_append hkept (ih _ _ (List.dropWhile_suffix _) htail)
      | some found =>
        obtain ⟨fraction, after⟩ := found
        obtain ⟨after', hsign', hafter⟩ := htail.exists_of_percentTail? hsign
        have hsuffix : after <:+ s := by
          refine List.IsSuffix.trans ?_ (List.dropWhile_suffix isDigit)
          rw [(eq_of_percentTail? hsign).1]
          exact (List.suffix_cons _ _).trans (List.suffix_append _ _)
        simp only [hsign']
        refine kept_append (fun d hd => isForeignLetter_of_not_begins ?_) (ih _ _ hsuffix hafter)
        exact not_begins_of_mem_hundredth (not_begins_of_percentTail? hdigits hsign) d hd
    · have hdigit : isDigit c = false := by simpa using hdigit
      rw [expandPercent_cons hdigit, expandPercent_cons hdigit]
      exact .kept hc (ih s t List.suffix_rfl h)
  | name name other s t hname hs h ih =>
    rw [expandPercent_append_of_isForeign (ρ.left hname), expandPercent_append_of_isForeign (ρ.right hname)]
    exact .name hname (stopsAt_expandPercent hs) ih

/-! ### Identifiers -/

/-- The pieces of two spellings, where the names that need an alias are foreign names. -/
theorem pieces (h : Respelled ρ s t) (hnames : HasForeignNames s) :
    List.Forall₂ (RespelledPiece ρ) (pieces s) (pieces t) := by
  induction h using suffix_induction with
  | nil =>
    rw [Text.pieces]
    exact .nil
  | kept c s t hc h ih =>
    by_cases hbegins : beginsIdentifier c
    · have hpieces (u : List Char) : Text.pieces (c :: u) =
          .identifier (c :: u.takeWhile isWord) :: Text.pieces (u.dropWhile isWord) := by
        rw [Text.pieces, if_pos hbegins]
      have hnames' : identifiers (c :: s) = (c :: s.takeWhile isWord) :: identifiers (s.dropWhile isWord) :=
        identifiers_cons_of_begins hbegins s
      have hplain : needsAlias (c :: s.takeWhile isWord) = false := by
        by_contra hneeds
        have hmem : c :: s.takeWhile isWord ∈ identifiers (c :: s) := hnames' ▸ List.mem_cons_self
        have hforeign := hnames _ hmem (by simpa using hneeds)
        exact ne_of_isForeignLetter (hforeign.letter c List.mem_cons_self) hc rfl
      have hascii : IsAsciiText (s.takeWhile isWord) := (isAsciiText_cons.mp (needsAlias_eq_false.mp hplain)).2
      have hbehind : HasForeignNames (s.dropWhile isWord) :=
        hnames.of_subset (hnames' ▸ List.subset_cons_self _ _)
      rw [hpieces s, hpieces t, ← h.takeWhile_isWord.eq_of_isAsciiText hascii]
      exact .cons (.kept hplain) (ih _ _ (List.dropWhile_suffix _) h.dropWhile_isWord hbehind)
    · have hpieces (u : List Char) : Text.pieces (c :: u) = .other c :: Text.pieces u := by
        rw [Text.pieces, if_neg hbegins]
      have hsame : identifiers (c :: s) = identifiers s := identifiers_cons_of_not_begins (by simpa using hbegins) s
      have hbehind : HasForeignNames s := hnames.of_subset (hsame ▸ List.Subset.refl _)
      rw [hpieces s, hpieces t]
      exact .cons (.other c) (ih s t List.suffix_rfl h hbehind)
  | name name other s t hname hs h ih =>
    have hbehind : HasForeignNames s := by
      refine hnames.of_subset ?_
      rw [identifiers_append _ hs]
      exact List.subset_append_right _ _
    rw [pieces_append _ hs, pieces_append _ (h.stopsAt_isWord hs), (ρ.left hname).isIdentifier.pieces_eq,
      (ρ.right hname).isIdentifier.pieces_eq]
    exact .cons (.renamed hname) (ih hbehind)

end Respelled

end Reckoner.Document
