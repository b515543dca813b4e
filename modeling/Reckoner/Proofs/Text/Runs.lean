import Mathlib.Data.List.TakeWhile
import Reckoner.Text.Identifier

/-!
# Runs of characters

A run of characters of one class ends where a text of another class begins.  From this the pieces of a text can be
found part by part: when the second of two texts does not go on with a word, the pieces of both together are the
pieces of the first followed by the pieces of the second.
-/

namespace Reckoner.Text

variable {p : Char → Bool} {s t : List Char}

/-! ### Deciding -/

-- A property of the characters of a text is decided by these characters alone.  Left to itself, the search for an
-- instance may come upon the one that goes through every character there is.
instance (priority := 10000) decidableForallChar (s : List Char) (q : Char → Prop) [DecidablePred q] :
    Decidable (∀ c ∈ s, q c) := List.decidableBAll q s

instance (priority := 10000) decidableExistsChar (s : List Char) (q : Char → Prop) [DecidablePred q] :
    Decidable (∃ c ∈ s, q c) := List.decidableBEx q s

instance (priority := 10000) decidableForallChar? (c? : Option Char) (q : Char → Prop) [DecidablePred q] :
    Decidable (∀ c ∈ c?, q c) := Option.decidableForallMem c?

/-! ### Where a run stops -/

/-- No run of the class goes on into the text: the text is empty or begins with a character of another class. -/
def StopsAt (p : Char → Bool) (s : List Char) : Prop := ∀ c ∈ s.head?, p c = false

@[simp] theorem stopsAt_nil : StopsAt p [] := by
  intro c hc
  simp at hc

@[simp] theorem stopsAt_cons {c : Char} : StopsAt p (c :: s) ↔ p c = false := by
  simp [StopsAt]

theorem takeWhile_of_stopsAt (h : StopsAt p s) : s.takeWhile p = [] := by
  cases s with
  | nil => rfl
  | cons c rest =>
    rw [stopsAt_cons] at h
    simp [h]

theorem dropWhile_of_stopsAt (h : StopsAt p s) : s.dropWhile p = s := by
  cases s with
  | nil => rfl
  | cons c rest =>
    rw [stopsAt_cons] at h
    simp [h]

theorem StopsAt.of_prefix (h : StopsAt p s) (ht : t <+: s) : StopsAt p t := by
  intro c hc
  obtain ⟨rest, rfl⟩ := ht
  exact h c (by simp [List.head?_append, Option.mem_def.mp hc])

theorem stopsAt_dropWhile (p : Char → Bool) (s : List Char) : StopsAt p (s.dropWhile p) := by
  induction s with
  | nil => exact stopsAt_nil
  | cons c rest ih =>
    cases hc : p c with
    | true => rwa [List.dropWhile_cons_of_pos hc]
    | false => simp [hc]

theorem exists_run (p : Char → Bool) (s : List Char) :
    ∃ run rest, s = run ++ rest ∧ (∀ c ∈ run, p c) ∧ StopsAt p rest :=
  ⟨s.takeWhile p, s.dropWhile p, List.takeWhile_append_dropWhile.symm, fun _ hc => List.mem_takeWhile_imp hc,
    stopsAt_dropWhile p s⟩

theorem takeWhile_append_of_stopsAt (s : List Char) (h : StopsAt p t) : (s ++ t).takeWhile p = s.takeWhile p := by
  induction s with
  | nil => exact takeWhile_of_stopsAt h
  | cons c rest ih =>
    cases hc : p c with
    | true => simp [hc, ih]
    | false => simp [hc]

theorem dropWhile_append_of_stopsAt (s : List Char) (h : StopsAt p t) :
    (s ++ t).dropWhile p = s.dropWhile p ++ t := by
  induction s with
  | nil => exact dropWhile_of_stopsAt h
  | cons c rest ih =>
    cases hc : p c with
    | true => simp [hc, ih]
    | false => simp [hc]

/-! ### Pieces of joined texts -/

theorem pieces_append (s : List Char) (h : StopsAt isWord t) : pieces (s ++ t) = pieces s ++ pieces t := by
  fun_induction pieces s with
  | case1 => rfl
  | case2 c rest hc ih =>
    rw [List.cons_append, pieces, if_pos hc, takeWhile_append_of_stopsAt rest h,
      dropWhile_append_of_stopsAt rest h, ih, List.cons_append]
  | case3 c rest hc ih => rw [List.cons_append, pieces, if_neg hc, ih, List.cons_append]

@[simp] theorem identifiers_nil : identifiers [] = [] := by
  rw [identifiers, pieces]
  rfl

theorem identifiers_cons_of_begins {c : Char} (hc : beginsIdentifier c) (s : List Char) :
    identifiers (c :: s) = (c :: s.takeWhile isWord) :: identifiers (s.dropWhile isWord) := by
  rw [identifiers, pieces, if_pos hc]
  rfl

theorem identifiers_cons_of_not_begins {c : Char} (hc : beginsIdentifier c = false) (s : List Char) :
    identifiers (c :: s) = identifiers s := by
  rw [identifiers, pieces, if_neg (by simp [hc])]
  rfl

theorem identifiers_append (s : List Char) (h : StopsAt isWord t) :
    identifiers (s ++ t) = identifiers s ++ identifiers t := by
  simp only [identifiers, pieces_append s h, List.filterMap_append]

/-! ### Identifiers -/

theorem mem_identifiers {name : List Char} : name ∈ identifiers s ↔ Piece.identifier name ∈ pieces s := by
  simp only [identifiers, List.mem_filterMap]
  constructor
  · rintro ⟨piece, hpiece, h⟩
    cases piece with
    | identifier other =>
      obtain rfl : other = name := by simpa using h
      exact hpiece
    | other c => simp at h
  · intro h
    exact ⟨.identifier name, h, rfl⟩

theorem mem_of_mem_identifiers {name : List Char} {c : Char} (h : name ∈ identifiers s) (hc : c ∈ name) : c ∈ s := by
  rw [← flatMap_text_pieces s]
  exact List.mem_flatMap.mpr ⟨_, mem_identifiers.mp h, hc⟩

/-- A text in which nothing can begin an identifier adds none in front of another text. -/
theorem identifiers_append_of_not_begins (h : ∀ c ∈ s, beginsIdentifier c = false) (t : List Char) :
    identifiers (s ++ t) = identifiers t := by
  induction s with
  | nil => rfl
  | cons c rest ih =>
    rw [List.forall_mem_cons] at h
    rw [List.cons_append, identifiers_cons_of_not_begins h.1, ih h.2]

theorem identifiers_of_word {c : Char} {rest : List Char} (hc : beginsIdentifier c) (h : ∀ d ∈ rest, isWord d) :
    identifiers (c :: rest) = [c :: rest] := by
  have htake : rest.takeWhile isWord = rest := by
    simpa [List.takeWhile_eq_self_iff] using h
  have hdrop : rest.dropWhile isWord = [] := by
    simpa [List.dropWhile_eq_nil_iff] using h
  rw [identifiers, pieces, if_pos hc, htake, hdrop, pieces]
  rfl

/-! ### ASCII texts -/

/-- Texts of seven-bit characters. -/
def IsAsciiText (s : List Char) : Prop := ∀ c ∈ s, isAscii c

instance (s : List Char) : Decidable (IsAsciiText s) := inferInstanceAs (Decidable (∀ c ∈ s, isAscii c))

@[simp] theorem isAsciiText_nil : IsAsciiText [] := by
  intro c hc
  simp at hc

@[simp] theorem isAsciiText_cons {c : Char} : IsAsciiText (c :: s) ↔ isAscii c ∧ IsAsciiText s := by
  simp [IsAsciiText]

@[simp] theorem isAsciiText_append : IsAsciiText (s ++ t) ↔ IsAsciiText s ∧ IsAsciiText t := by
  simp only [IsAsciiText, List.mem_append, or_imp, forall_and]

theorem IsAsciiText.of_subset (ht : IsAsciiText t) (h : s ⊆ t) : IsAsciiText s := fun c hc => ht c (h hc)

/-- What holds of each of the 128 seven-bit characters holds of all of them. -/
theorem forall_of_isAscii {P : Char → Prop} (h : ∀ n : Fin 128, P (Char.ofNat n)) {c : Char} (hc : isAscii c) :
    P c := by
  have hlt : c.toNat < 128 := by simpa [isAscii] using hc
  have hchar : Char.ofNat c.toNat = c := Char.ofNat_toNat c
  rw [← hchar]
  exact h ⟨c.toNat, hlt⟩

theorem isAsciiDigit_iff {c : Char} : isAsciiDigit c ↔ 48 ≤ c.toNat ∧ c.toNat ≤ 57 := by
  simp only [isAsciiDigit, Bool.and_eq_true, decide_eq_true_eq, Char.le_def, UInt32.le_iff_toNat_le]
  rfl

theorem isAsciiLetter_iff {c : Char} :
    isAsciiLetter c ↔ (97 ≤ c.toNat ∧ c.toNat ≤ 122) ∨ (65 ≤ c.toNat ∧ c.toNat ≤ 90) := by
  simp only [isAsciiLetter, Bool.or_eq_true, Bool.and_eq_true, decide_eq_true_eq, Char.le_def,
    UInt32.le_iff_toNat_le]
  rfl

theorem isAscii_of_isAsciiWord {c : Char} (h : isAsciiWord c) : isAscii c := by
  simp only [isAsciiWord, Bool.or_eq_true, isAsciiLetter_iff, isAsciiDigit_iff, decide_eq_true_eq] at h
  rcases h with h | rfl
  · simp only [isAscii, decide_eq_true_eq]
    omega
  · decide

theorem isAscii_of_isAsciiDigit {c : Char} (h : isAsciiDigit c) : isAscii c := by
  apply isAscii_of_isAsciiWord
  simp [isAsciiWord, h]

theorem isWord_of_isAsciiWord {c : Char} (h : isAsciiWord c) : isWord c := by
  simp [isWord, isAscii_of_isAsciiWord h, h]

theorem isAscii_of_isDigit {c : Char} (h : c.isDigit) : isAscii c := by
  simp only [Char.isDigit, Bool.and_eq_true, decide_eq_true_eq] at h
  have h9 : c.val.toNat ≤ 57 := UInt32.le_iff_toNat_le.mp h.2
  simp only [isAscii, Char.toNat, decide_eq_true_eq]
  omega

theorem isDigit_of_isAscii {c : Char} (h : isAscii c) : isDigit c = isAsciiDigit c := by
  have hlt : c.toNat < 128 := by simpa [isAscii] using h
  rw [isDigit, digitValue?]
  simp only [hlt, if_true]
  split
  · simp [*]
  · simp [*]

/-- Whether every number of a list lies in a range together with the nine behind it, both lists in increasing order. -/
def holdTens (firsts : List Nat) : List (Nat × Nat) → Bool
  | [] => firsts.isEmpty
  | range :: rest => holdTens (firsts.dropWhile fun first => range.1.ble first && (first + 9).ble range.2) rest

theorem exists_range_of_holdTens {firsts : List Nat} {ranges : List (Nat × Nat)} (h : holdTens firsts ranges)
    {first : Nat} (hfirst : first ∈ firsts) : ∃ range ∈ ranges, range.1 ≤ first ∧ first + 9 ≤ range.2 := by
  induction ranges generalizing firsts with
  | nil =>
    rw [List.isEmpty_iff.mp h] at hfirst
    cases hfirst
  | cons range rest ih =>
    have hsplit :=
      List.takeWhile_append_dropWhile (p := fun first => range.1.ble first && (first + 9).ble range.2) (l := firsts)
    rw [← hsplit, List.mem_append] at hfirst
    rcases hfirst with hfirst | hfirst
    · have hrange := List.mem_takeWhile_imp hfirst
      simp only [Bool.and_eq_true, Nat.ble_eq] at hrange
      exact ⟨range, List.mem_cons_self, hrange⟩
    · obtain ⟨range', hmem, hrange⟩ := ih h hfirst
      exact ⟨range', List.mem_cons_of_mem range hmem, hrange⟩

theorem isWord_of_isDigit {c : Char} (h : isDigit c) : isWord c := by
  by_cases hascii : isAscii c
  · rw [isDigit_of_isAscii hascii] at h
    simp [isWord, hascii, isAsciiWord, h]
  · have hlt : ¬ c.toNat < 128 := by simpa [isAscii] using hascii
    -- beyond ASCII, the ten digits of a system lie within one range of letters and numbers
    have hall : holdTens (CharacterRanges.digitZeros.filter (· ≠ 48)) CharacterRanges.lettersAndNumbers := by
      decide +kernel
    simp only [isDigit, digitValue?, hlt, if_false, Option.isSome_map, List.find?_isSome, Bool.and_eq_true,
      decide_eq_true_eq] at h
    obtain ⟨first, hfirst, hlow, hhigh⟩ := h
    have hbeyond : first ≠ 48 := by omega
    obtain ⟨range, hmem, hbounds⟩ :=
      exists_range_of_holdTens hall (List.mem_filter.mpr ⟨hfirst, by simpa using hbeyond⟩)
    simp only [isWord, hascii, Bool.false_eq_true, if_false, inRanges, List.any_eq_true, Bool.and_eq_true,
      decide_eq_true_eq]
    exact ⟨range, hmem, by omega, by omega⟩

/-- The codes of the blank characters. -/
def blankCodes : List Nat :=
  [9, 10, 11, 12, 13, 28, 29, 30, 31, 32, 0x85, 0xa0, 0x1680, 0x2000, 0x2001, 0x2002, 0x2003, 0x2004, 0x2005, 0x2006,
    0x2007, 0x2008, 0x2009, 0x200a, 0x2028, 0x2029, 0x202f, 0x205f, 0x3000]

theorem isWord_of_isBlank {c : Char} (h : isBlank c) : isWord c = false := by
  have hcode : c.toNat ∈ blankCodes := by
    simp only [isBlank, Bool.or_eq_true, Bool.and_eq_true, decide_eq_true_eq] at h
    simp only [blankCodes, List.mem_cons, List.not_mem_nil, or_false]
    omega
  have hall : ∀ code ∈ blankCodes, isWord (Char.ofNat code) = false := by decide +kernel
  rw [← Char.ofNat_toNat c]
  exact hall _ hcode

theorem stopsAt_isDigit_of_isWord (h : StopsAt isWord s) : StopsAt isDigit s := by
  intro c hc
  by_contra hdigit
  have hword : isWord c = true := isWord_of_isDigit (by simpa using hdigit)
  rw [h c hc] at hword
  cases hword

theorem isAsciiText_toString (n : Nat) : IsAsciiText (toString n).toList := by
  intro c hc
  have hdigits : c ∈ Nat.toDigits 10 n := by
    simpa [Nat.toList_repr] using hc
  exact isAscii_of_isDigit (Nat.isDigit_of_mem_toDigits (by decide : 0 < 10) (by decide) hdigits)

end Reckoner.Text
