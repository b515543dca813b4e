import Mathlib.Data.List.DropRight
import Reckoner.Proofs.Expression.Pieces

/-!
# The limit of literals

The exponents of literals are limited before anything is evaluated.  The guard looks for them in the raw text, while
the literals are what the scanner reads.  The two agree on every literal that begins with a digit, has no underscore and
does not stand right behind a word or a point.  The exponent of a literal that begins with a point, or has an underscore
in it, escapes the guard.
-/

namespace Reckoner.Expression

open Reckoner.Text

/-! ### Blank ends -/

section Blanks

variable {blanks : List Char}

theorem isDigit_of_isBlank {c : Char} (h : isBlank c) : isDigit c = false := by
  rw [← Bool.not_eq_true]
  intro hdigit
  have hword := isWord_of_isDigit hdigit
  rw [isWord_of_isBlank h] at hword
  cases hword

/-- A text that is empty or begins with a blank. -/
theorem head?_of_blanks (hblanks : ∀ c ∈ blanks, isBlank c) {c : Char} (hc : isBlank c = false) (rest : List Char) :
    blanks ≠ c :: rest := by
  rintro rfl
  rw [hblanks c List.mem_cons_self] at hc
  cases hc

theorem stopsAt_isDigit_blanks (hblanks : ∀ c ∈ blanks, isBlank c) : StopsAt isDigit blanks :=
  fun _ hc => isDigit_of_isBlank (hblanks _ (List.mem_of_mem_head? hc))

theorem splitSign_append_blanks (hblanks : ∀ c ∈ blanks, isBlank c) (s : List Char) :
    (splitSign (s ++ blanks)).2 = (splitSign s).2 ++ blanks := by
  cases s with
  | nil =>
    rw [List.nil_append, splitSign]
    · rfl
    · exact head?_of_blanks hblanks (by decide)
    · exact head?_of_blanks hblanks (by decide)
  | cons c rest =>
    by_cases hminus : c = '-'
    · rw [hminus]
      rfl
    · by_cases hplus : c = '+'
      · rw [hplus]
        rfl
      · have hsplit (rest : List Char) : (splitSign (c :: rest)).2 = c :: rest := by
          rw [splitSign]
          · rintro _ heq
            exact hminus (List.cons.inj heq).1
          · rintro _ heq
            exact hplus (List.cons.inj heq).1
        rw [List.cons_append, hsplit, hsplit, List.cons_append]

theorem afterFraction_append_blanks (hblanks : ∀ c ∈ blanks, isBlank c) (s : List Char) :
    afterFraction (s ++ blanks) = afterFraction s ++ blanks := by
  cases s with
  | nil =>
    rw [List.nil_append, afterFraction]
    · rfl
    · exact head?_of_blanks hblanks (by decide)
  | cons c rest =>
    by_cases hpoint : c = '.'
    · rw [hpoint]
      exact dropWhile_append_of_stopsAt rest (stopsAt_isDigit_blanks hblanks)
    · have hsame (rest : List Char) : afterFraction (c :: rest) = c :: rest := by
        rw [afterFraction]
        rintro _ heq
        exact hpoint (List.cons.inj heq).1
      rw [List.cons_append, hsame, hsame, List.cons_append]

theorem exponentDigits?_append_blanks (hblanks : ∀ c ∈ blanks, isBlank c) (s : List Char) :
    exponentDigits? (s ++ blanks) = exponentDigits? s := by
  cases s with
  | nil =>
    cases blanks with
    | nil => rfl
    | cons c rest =>
      have hc : ¬ (c = 'e' ∨ c = 'E') := by
        rintro (rfl | rfl) <;> exact absurd (hblanks _ List.mem_cons_self) (by decide)
      rw [List.nil_append, exponentDigits?, if_neg hc]
      rfl
  | cons c rest =>
    rw [List.cons_append, exponentDigits?, exponentDigits?]
    simp only [splitSign_append_blanks hblanks, takeWhile_append_of_stopsAt _ (stopsAt_isDigit_blanks hblanks)]

theorem literalExponents_blanks (hblanks : ∀ c ∈ blanks, isBlank c) (inside : Bool) (skip : Nat) :
    literalExponents inside skip blanks = [] := by
  induction blanks generalizing inside skip with
  | nil => rfl
  | cons c rest ih =>
    have hdigit : isDigit c = false := isDigit_of_isBlank (hblanks c List.mem_cons_self)
    cases skip <;>
    · rw [literalExponents]
      simp [hdigit, ih fun d hd => hblanks d (List.mem_cons_of_mem c hd)]

/-- Blanks behind a text do not change what the guard finds. -/
theorem literalExponents_append_blanks (hblanks : ∀ c ∈ blanks, isBlank c) (s : List Char) (inside : Bool) (skip : Nat) :
    literalExponents inside skip (s ++ blanks) = literalExponents inside skip s := by
  induction s generalizing inside skip with
  | nil =>
    rw [List.nil_append, literalExponents_blanks hblanks]
    rfl
  | cons c rest ih =>
    cases skip with
    | succ skip =>
      rw [List.cons_append, literalExponents, literalExponents]
      exact ih _ _
    | zero =>
      have htail : afterFraction ((rest ++ blanks).dropWhile isDigit) =
          afterFraction (rest.dropWhile isDigit) ++ blanks := by
        rw [dropWhile_append_of_stopsAt rest (stopsAt_isDigit_blanks hblanks), afterFraction_append_blanks hblanks]
      rw [List.cons_append, literalExponents, literalExponents]
      simp only [htail, exponentDigits?_append_blanks hblanks, ih]
      split
      · cases hfound : exponentDigits? (afterFraction (rest.dropWhile isDigit)) with
        | none => rfl
        | some digits =>
          obtain ⟨letter, tail, heq⟩ : ∃ letter tail, afterFraction (rest.dropWhile isDigit) = letter :: tail := by
            cases htailEq : afterFraction (rest.dropWhile isDigit) with
            | nil =>
              rw [htailEq] at hfound
              cases hfound
            | cons letter tail => exact ⟨letter, tail, rfl⟩
          have hskip : (rest ++ blanks).length + digits.length - (splitSign (tail ++ blanks)).2.length =
              rest.length + digits.length - (splitSign tail).2.length := by
            rw [splitSign_append_blanks hblanks]
            simp only [List.length_append]
            omega
          simp only [heq, List.cons_append, List.drop_one, List.tail_cons, hskip]
      · rfl

/-- What the guard finds in a text does not depend on its blank ends. -/
theorem literalExponents_trim (s : List Char) : literalExponents false 0 (trim s) = literalExponents false 0 s := by
  have hfront : ∀ c ∈ s.takeWhile isBlank, isBlank c := fun c hc => List.mem_takeWhile_imp hc
  have hback : ∀ c ∈ (s.dropWhile isBlank).rtakeWhile isBlank, isBlank c := fun c hc => List.mem_rtakeWhile_imp hc
  have hinside : insideAfter false (s.takeWhile isBlank) = false := by
    cases hlast : (s.takeWhile isBlank).getLast? with
    | none => simp [insideAfter, hlast]
    | some c =>
      have hblank := hfront c (List.mem_of_getLast? hlast)
      have hpoint : c ≠ '.' := by
        rintro rfl
        exact absurd hblank (by decide)
      simp [insideAfter, hlast, isWord_of_isBlank hblank, hpoint]
  have htrim : trim s ++ (s.dropWhile isBlank).rtakeWhile isBlank = s.dropWhile isBlank :=
    List.rdropWhile_append_rtakeWhile
  conv_rhs => rw [← List.takeWhile_append_dropWhile (p := isBlank) (l := s), ← htrim]
  rw [literalExponents_of_not_digits (fun c hc => isDigit_of_isBlank (hfront c hc)), hinside,
    literalExponents_append_blanks hback]

end Blanks

/-! ### The guard of literals -/

/-- A numeral is a literal of a text: the scanner reads it behind `before` when the blank ends of the text have gone. -/
def IsLiteralBehind (text before numeral : List Char) : Prop :=
  ∃ pieces word after, cut (trim text) = pieces ++ (numeral, some (.numeral word)) :: after ∧
    before = pieces.flatMap Prod.fst

/-- The number that digits denote. -/
def exponentOf (digits : List Char) : Nat := digits.foldl (fun n c => 10 * n + (digitValue? c).getD 0) 0

/-- A number is the exponent of a literal of the text. -/
def HasExponent (text : List Char) (n : Nat) : Prop :=
  ∃ before numeral field, IsLiteralBehind text before numeral ∧ exponentField? numeral = some field ∧ exponentOf field = n

/-- The guard refuses a text with a literal whose exponent is too large, and it gives up exact literals if the greatest
    of the exponents asks for too many digits. -/
structure GuardsLiterals (settings : Settings) (text : List Char) : Prop where
  refuses : ∀ n, HasExponent text n → settings.maxDecimalExponent < n →
    readsExactly settings text = .error .literalTooLarge
  givesUp : ∀ n, HasExponent text n → (∀ m, HasExponent text m → m ≤ n) → settings.maxExactDigits < n →
    n ≤ settings.maxDecimalExponent → readsExactly settings text = .ok false

/-- Every literal with an exponent begins with a digit, has no underscore, stands neither right behind a word nor right
    behind a point, and has an exponent that is not too long to be read. -/
structure HasPlainLiterals (text : List Char) : Prop where
  asciiDigits : HasAsciiDigits text
  unquoted : IsUnquoted text
  plain : ∀ before numeral field, IsLiteralBehind text before numeral → exponentField? numeral = some field →
    IsPlainNumeral numeral ∧ insideAfter false before = false ∧ field.length ≤ integerLimit

section Guard

variable {settings : Settings} {text : List Char}

theorem mem_trim {c : Char} (h : c ∈ trim text) : c ∈ text := by
  simp only [trim, List.mem_reverse] at h
  exact (List.dropWhile_suffix _).subset (List.mem_reverse.mp ((List.dropWhile_suffix _).subset h))

/-- The exponents of the literals are among the exponents of the pieces. -/
theorem hasExponent_iff (n : Nat) : HasExponent text n ↔
    ∃ field ∈ (cut (trim text)).filterMap pieceField?, exponentOf field = n := by
  constructor
  · rintro ⟨before, numeral, field, ⟨pieces, word, after, hcut, -⟩, hfield, rfl⟩
    refine ⟨field, List.mem_filterMap.mpr ⟨(numeral, some (.numeral word)), ?_, ?_⟩, rfl⟩
    · simp [hcut]
    · simpa [pieceField?, Token.numeral?] using hfield
  · rintro ⟨field, hmem, rfl⟩
    obtain ⟨⟨numeral, t⟩, hpiece, hfield⟩ := List.mem_filterMap.mp hmem
    obtain ⟨token, rfl, hbind⟩ := Option.bind_eq_some_iff.mp hfield
    obtain ⟨word, hword, hnumeral⟩ := Option.bind_eq_some_iff.mp hbind
    obtain ⟨pieces, after, hcut⟩ := List.append_of_mem hpiece
    rw [Token.eq_of_numeral? hword] at hcut
    exact ⟨pieces.flatMap Prod.fst, numeral, field, ⟨pieces, word, after, hcut, rfl⟩, hnumeral, rfl⟩

theorem le_foldl_max {ns : List Nat} {n start : Nat} (h : n ≤ start ∨ n ∈ ns) : n ≤ ns.foldl max start := by
  induction ns generalizing start with
  | nil => simpa using h
  | cons m rest ih =>
    refine ih ?_
    rcases h with h | h
    · exact .inl (h.trans (le_max_left _ _))
    · rcases List.mem_cons.mp h with rfl | h
      · exact .inl (le_max_right _ _)
      · exact .inr h

theorem foldl_max_le {ns : List Nat} {n start : Nat} (hstart : start ≤ n) (h : ∀ m ∈ ns, m ≤ n) :
    ns.foldl max start ≤ n := by
  induction ns generalizing start with
  | nil => exact hstart
  | cons m rest ih =>
    exact ih (max_le hstart (h m List.mem_cons_self)) fun k hk => h k (List.mem_cons_of_mem m hk)

theorem mapM_exponentValue? {fields : List (List Char)} {exponents : List Nat}
    (h : fields.mapM exponentValue? = some exponents) :
    exponents = fields.map exponentOf ∧ ∀ field ∈ fields, field.length ≤ integerLimit := by
  induction fields generalizing exponents with
  | nil =>
    obtain rfl := Option.some.inj h
    simp
  | cons field rest ih =>
    rw [List.mapM_cons] at h
    obtain ⟨n, hn, hrest⟩ := Option.bind_eq_some_iff.mp h
    obtain ⟨others, hothers, hpure⟩ := Option.bind_eq_some_iff.mp hrest
    obtain rfl : n :: others = exponents := Option.some.inj hpure
    obtain ⟨rfl, hread⟩ := ih hothers
    rw [exponentValue?] at hn
    split at hn
    · cases hn
    · rename_i hlength
      obtain rfl : exponentOf field = n := Option.some.inj hn
      exact ⟨rfl, List.forall_mem_cons.mpr ⟨by omega, hread⟩⟩

/-- A text is refused for one of the exponents that the guard finds. -/
theorem exists_found_of_refused (hexponent : 0 ≤ settings.maxDecimalExponent)
    (h : readsExactly settings text = .error .literalTooLarge) :
    ∃ found ∈ literalExponents false 0 text, found.length ≤ integerLimit ∧
      settings.maxDecimalExponent < exponentOf found := by
  rw [readsExactly] at h
  split at h
  · cases h
  · rename_i exponents hvalues
    obtain ⟨rfl, hread⟩ := mapM_exponentValue? hvalues
    dsimp only at h
    split at h
    · rename_i hlarge
      by_contra hnone
      push Not at hnone
      have hle : ((literalExponents false 0 text).map exponentOf).foldl max 0 ≤ settings.maxDecimalExponent.toNat := by
        refine foldl_max_le (Nat.zero_le _) fun m hm => ?_
        obtain ⟨found, hfound, rfl⟩ := List.mem_map.mp hm
        have hsmall := hnone found hfound (hread found hfound)
        omega
      omega
    · cases h

/-- What becomes of a text whose exponents are found and can be read. -/
theorem readsExactly_of_found {fields : List (List Char)} (hfound : literalExponents false 0 text = fields)
    (hread : ∀ field ∈ fields, field.length ≤ integerLimit) : readsExactly settings text =
      if settings.maxDecimalExponent < ((fields.map exponentOf).foldl max 0 : Nat) then .error .literalTooLarge
      else .ok (decide ((((fields.map exponentOf).foldl max 0 : Nat) : Int) ≤ settings.maxExactDigits)) := by
  have hvalues : fields.mapM exponentValue? = some (fields.map exponentOf) := by
    clear hfound
    induction fields with
    | nil => rfl
    | cons field rest ih =>
      have hvalue : exponentValue? field = some (exponentOf field) :=
        if_neg (by have := hread field List.mem_cons_self; omega)
      simp [hvalue, ih fun other hother => hread other (List.mem_cons_of_mem field hother)]
  simp only [readsExactly, hfound, hvalues]

/-- In a text with plain literals, the exponents that the guard finds are the exponents of the literals. -/
theorem literalExponents_of_plain_literals (h : HasPlainLiterals text) :
    literalExponents false 0 text = (cut (trim text)).filterMap pieceField? := by
  rw [← literalExponents_trim]
  refine literalExponents_cut (fun c hc => h.unquoted c (mem_trim hc)) (fun c hc => h.asciiDigits c (mem_trim hc)) false ?_
  intro before numeral word after hcut hfield
  obtain ⟨field, hfield⟩ := Option.ne_none_iff_exists'.mp hfield
  have hplain := h.plain _ numeral field ⟨before, word, after, hcut, rfl⟩ hfield
  exact ⟨hplain.1, hplain.2.1⟩

/-- The guard covers the literals of every text with plain literals. -/
theorem guardsLiterals_of_plain (h : HasPlainLiterals text) (settings : Settings) : GuardsLiterals settings text := by
  have hread : ∀ field ∈ (cut (trim text)).filterMap pieceField?, field.length ≤ integerLimit := by
    intro field hmem
    obtain ⟨⟨numeral, t⟩, hpiece, hfield⟩ := List.mem_filterMap.mp hmem
    obtain ⟨token, rfl, hbind⟩ := Option.bind_eq_some_iff.mp hfield
    obtain ⟨word, hword, hnumeral⟩ := Option.bind_eq_some_iff.mp hbind
    obtain ⟨pieces, after, hcut⟩ := List.append_of_mem hpiece
    rw [Token.eq_of_numeral? hword] at hcut
    exact (h.plain _ numeral field ⟨pieces, word, after, hcut, rfl⟩ hnumeral).2.2
  have hexact : readsExactly settings text = _ := readsExactly_of_found (literalExponents_of_plain_literals h) hread
  have hle {n : Nat} (hn : HasExponent text n) :
      n ≤ (((cut (trim text)).filterMap pieceField?).map exponentOf).foldl max 0 := by
    obtain ⟨field, hmem, rfl⟩ := (hasExponent_iff n).mp hn
    exact le_foldl_max (.inr (List.mem_map_of_mem hmem))
  constructor
  · intro n hn hlarge
    have hlargest := hle hn
    rw [hexact, if_pos (by omega)]
  · intro n hn hgreatest hdigits hexponent
    have hlargest : (((cut (trim text)).filterMap pieceField?).map exponentOf).foldl max 0 = n := by
      refine le_antisymm (foldl_max_le (Nat.zero_le n) fun m hm => ?_) (hle hn)
      obtain ⟨field, hmem, rfl⟩ := List.mem_map.mp hm
      exact hgreatest _ ((hasExponent_iff _).mpr ⟨field, hmem, rfl⟩)
    rw [hexact, hlargest, if_neg (by omega), decide_eq_false (by omega)]

end Guard

/-! ### Literals that escape -/

section Alone

variable {numeral field : List Char}

theorem exponentOf_append (s t : List Char) : exponentOf s * 10 ^ t.length ≤ exponentOf (s ++ t) := by
  have hfold (n : Nat) : n * 10 ^ t.length ≤ t.foldl (fun n c => 10 * n + (digitValue? c).getD 0) n := by
    induction t generalizing n with
    | nil => simp
    | cons c rest ih =>
      refine le_trans ?_ (ih _)
      rw [List.length_cons, pow_succ', ← mul_assoc]
      refine Nat.mul_le_mul_right _ ?_
      dsimp only
      omega
  rw [exponentOf, exponentOf, List.foldl_append]
  exact hfold _

/-- A run of digits ends in a digit. -/
theorem last_of_run {digits s : List Char} (hdigits : digits ≠ [])
    (hrun : digitRun isAsciiDigit (digits ++ s) = digits.length) : ∃ d ∈ digits.getLast?, isAsciiDigit d := by
  have hcons {c : Char} {rest : List Char} (hc : isAsciiDigit c) (hrest : ∀ d ∈ rest.getLast?, isAsciiDigit d) :
      ∀ d ∈ (c :: rest).getLast?, isAsciiDigit d := by
    intro d hd
    rw [List.getLast?_cons, Option.mem_some_iff] at hd
    cases hlast : rest.getLast? with
    | none =>
      rw [hlast] at hd
      exact hd ▸ hc
    | some e =>
      rw [hlast] at hd
      exact hd ▸ hrest e (by rw [hlast]; rfl)
  have hmore (s : List Char) : ∀ d ∈ (s.take (moreDigits isAsciiDigit s)).getLast?, isAsciiDigit d := by
    fun_induction moreDigits isAsciiDigit s with
    | case1 c rest hc ih =>
      rw [List.take_succ_cons, List.take_succ_cons, List.getLast?_cons_cons]
      exact hcons hc ih
    | case2 => simp
    | case3 c rest _ hc ih =>
      rw [List.take_succ_cons]
      exact hcons hc ih
    | case4 => simp
    | case5 => simp
  have htake : digits = (digits ++ s).take (digitRun isAsciiDigit (digits ++ s)) := by rw [hrun, List.take_left]
  have hall : ∀ d ∈ digits.getLast?, isAsciiDigit d := by
    rw [htake]
    cases digits ++ s with
    | nil => simp
    | cons c rest =>
      rw [digitRun]
      split
      · rename_i hc
        rw [List.take_succ_cons]
        exact hcons hc (hmore rest)
      · simp
  exact ⟨digits.getLast hdigits, List.getLast?_eq_some_getLast hdigits, hall _ (List.getLast?_eq_some_getLast hdigits)⟩

/-- Behind the digits in front of an exponent, nothing is found. -/
theorem literalExponents_letter {letter : Char} {sign digits suffix : List Char} (hletter : isExponentLetter letter)
    (hsign : sign ∈ [[], ['+'], ['-']]) (hdigits : ∀ c ∈ digits, isDigitOrUnderscore c)
    (hsuffix : suffix ∈ [[], ['j'], ['J']]) :
    literalExponents true 0 (letter :: (sign ++ digits ++ suffix)) = [] := by
  have hends : ∀ s ∈ [[], ['+'], ['-']] ++ [[], ['j'], ['J']], ∀ c ∈ s, c ≠ 'e' ∧ c ≠ 'E' := by decide
  have hbehind : ∀ c ∈ sign ++ digits ++ suffix, c ≠ 'e' ∧ c ≠ 'E' := by
    intro c hc
    rcases List.mem_append.mp hc with hc | hc
    · rcases List.mem_append.mp hc with hc | hc
      · exact hends sign (List.mem_append_left _ hsign) c hc
      · constructor <;>
        · rintro rfl
          exact absurd (hdigits _ hc) (by decide)
    · exact hends suffix (List.mem_append_right _ hsuffix) c hc
  have hinside : ∀ c ∈ [letter], isWord c ∨ c = '.' := by
    simpa using .inl (letter_of_isExponentLetter hletter).2.1
  have hword := literalExponents_within hinside (sign ++ digits ++ suffix)
  rw [← literalExponents_eq_nil hbehind true, ← hword]
  rfl

/-- No underscore stands in a mantissa behind which the guard finds an exponent. -/
theorem underscore_notMem_of_found {c letter : Char} {rest behind found : List Char}
    (hascii : HasAsciiDigits (c :: rest ++ letter :: behind)) (hmantissa : ∀ d ∈ c :: rest, isMantissa d)
    (hletter : isExponentLetter letter) (hc : isDigit c)
    (hfound : exponentDigits? (afterFraction ((rest ++ letter :: behind).dropWhile isDigit)) = some found) :
    '_' ∉ c :: rest := by
  obtain ⟨front, point, other, tail, hsplit, -, hfront, hpoint, hother, -, -⟩ := exists_found hc hfound
  rw [List.cons_append, hsplit] at hascii
  have hdigit {d : Char} (hmem : d ∈ front ++ point ++ other :: tail) (hd : isDigit d) : isMantissa d ∧ d ≠ '_' := by
    have hasciiDigit := hascii d hmem hd
    refine ⟨by simp [isMantissa, hasciiDigit], ?_⟩
    rintro rfl
    exact absurd hasciiDigit (by decide)
  have hboth : ∀ d ∈ front ++ point, isMantissa d ∧ d ≠ '_' := by
    intro d hd
    rcases List.mem_append.mp hd with hd | hd
    · exact hdigit (by simp [hd]) (hfront d hd)
    · rcases hpoint.mem hd with rfl | hrun
      · decide
      · exact hdigit (by simp [hd]) hrun
  -- Both ways of taking the numeral apart end its mantissa at the same place.
  have hmantissaEq : c :: rest = front ++ point := by
    have hruns := congrArg (List.takeWhile isMantissa) hsplit
    have hstops {letter : Char} (hletter : isExponentLetter letter) (s : List Char) :
        StopsAt isMantissa (letter :: s) :=
      stopsAt_cons.mpr (isMantissa_of_isExponentLetter hletter)
    rwa [← List.cons_append, takeWhile_append_of_stopsAt _ (hstops hletter _), List.takeWhile_eq_self_iff.mpr hmantissa,
      takeWhile_append_of_stopsAt _ (hstops hother _),
      List.takeWhile_eq_self_iff.mpr fun d hd => (hboth d hd).1] at hruns
  rw [hmantissaEq]
  exact fun hunderscore => (hboth '_' hunderscore).2 rfl

/-- The guard finds no exponent in a numeral that has an underscore, or no digit, in front of its exponent. -/
theorem literalExponents_of_mantissa {whole fraction sign digits suffix : List Char} {letter : Char}
    (hascii : HasAsciiDigits (whole ++ fraction ++ letter :: (sign ++ digits ++ suffix)))
    (hwhole : ∀ c ∈ whole, isDigitOrUnderscore c) (hfraction : IsFraction isDigitOrUnderscore fraction)
    (hletter : isExponentLetter letter) (hsign : sign ∈ [[], ['+'], ['-']])
    (hdigits : ∀ c ∈ digits, isDigitOrUnderscore c) (hsuffix : suffix ∈ [[], ['j'], ['J']])
    (hmantissa : ¬ ((∃ c ∈ (whole ++ fraction ++ letter :: (sign ++ digits ++ suffix)).head?, isAsciiDigit c) ∧
      '_' ∉ whole ++ fraction)) :
    literalExponents false 0 (whole ++ fraction ++ letter :: (sign ++ digits ++ suffix)) = [] := by
  have hmem : ∀ c ∈ whole ++ fraction, isMantissa c := fun c hc => isMantissa_of_mem hwhole hfraction hc
  have hbehind := literalExponents_letter hletter hsign hdigits hsuffix
  generalize whole ++ fraction = mantissa at hmem hmantissa hascii ⊢
  cases mantissa with
  | nil =>
    have hstep (inside : Bool) : literalExponents inside 0 (letter :: (sign ++ digits ++ suffix)) =
        literalExponents true 0 (sign ++ digits ++ suffix) := by
      have hinside : insideAfter inside [letter] = true :=
        insideAfter_of_last rfl (.inl (letter_of_isExponentLetter hletter).2.1) inside
      have hletters : ∀ c ∈ [letter], isDigit c = false := by
        simpa using (letter_of_isExponentLetter hletter).2.2.1
      rw [← hinside]
      exact literalExponents_of_not_digits hletters inside _
    rw [List.nil_append, hstep, ← hstep true, hbehind]
  | cons c rest =>
    have hinside : (isWord c || decide (c = '.')) = true := by
      simpa using isWord_of_isMantissa (hmem c List.mem_cons_self)
    have hrest := literalExponents_within (fun d hd => isWord_of_isMantissa (hmem d (List.mem_cons_of_mem c hd)))
      (letter :: (sign ++ digits ++ suffix))
    rw [hbehind] at hrest
    have hnone (hc : isDigit c) : exponentDigits? (afterFraction
        ((rest ++ letter :: (sign ++ digits ++ suffix)).dropWhile isDigit)) = none := by
      by_contra hsome
      obtain ⟨found, hfound⟩ := Option.ne_none_iff_exists'.mp hsome
      exact hmantissa ⟨⟨c, rfl, hascii c (by simp) hc⟩, underscore_notMem_of_found hascii hmem hletter hc hfound⟩
    rw [List.cons_append, literalExponents, hinside]
    dsimp only
    split
    · rename_i hdigit
      rw [hnone (by simpa using hdigit)]
      exact hrest
    · exact hrest

/-- Where only the exponent of a numeral keeps it from being plain, an underscore stands in the exponent. -/
theorem underscore_mem_of_not_plain {mantissa sign digits suffix : List Char} {letter : Char}
    (hletter : isExponentLetter letter) (hsign : sign ∈ [[], ['+'], ['-']]) (hsuffix : suffix ∈ [[], ['j'], ['J']])
    (hfirst : ∃ c ∈ (mantissa ++ letter :: (sign ++ digits ++ suffix)).head?, isAsciiDigit c) (hmantissa : '_' ∉ mantissa)
    (hplain : ¬ IsPlainNumeral (mantissa ++ letter :: (sign ++ digits ++ suffix))) : '_' ∈ digits := by
  have hends : ∀ s ∈ [[], ['+'], ['-']] ++ [[], ['j'], ['J']], '_' ∉ s := by decide
  by_contra hnone
  refine hplain ⟨hfirst, fun hmem => ?_⟩
  rcases List.mem_append.mp hmem with hmem | hmem
  · exact hmantissa hmem
  rcases List.mem_cons.mp hmem with rfl | hmem
  · exact (letter_of_isExponentLetter hletter).2.2.2.2.2 rfl
  rcases List.mem_append.mp hmem with hmem | hmem
  · rcases List.mem_append.mp hmem with hmem | hmem
    · exact hends sign (List.mem_append_left _ hsign) hmem
    · exact hnone hmem
  · exact hends suffix (List.mem_append_right _ hsuffix) hmem

/-- Of an exponent with an underscore, the guard finds only the digits in front of the underscore. -/
theorem literalExponents_of_underscore {c letter : Char} {whole fraction sign front back suffix : List Char}
    (hwhole : ∀ d ∈ c :: whole, isDigit d) (hfraction : IsFraction isDigit fraction)
    (hletter : isExponentLetter letter) (hsign : sign ∈ [[], ['+'], ['-']])
    (hhead : ∃ d ∈ (front ++ '_' :: back).head?, isAsciiDigit d)
    (hdigits : ∀ d ∈ front ++ '_' :: back, isDigitOrUnderscore d) (hfront : '_' ∉ front)
    (hsuffix : suffix ∈ [[], ['j'], ['J']]) :
    literalExponents false 0 (c :: whole ++ fraction ++ letter :: (sign ++ (front ++ '_' :: back) ++ suffix)) =
      [front] := by
  have hfrontHead : ∃ d ∈ front.head?, isAsciiDigit d := by
    obtain ⟨d, hd, hdigit⟩ := hhead
    cases front with
    | nil =>
      obtain rfl : '_' = d := by simpa using hd
      exact absurd hdigit (by decide)
    | cons e rest => exact ⟨d, by simpa using hd, hdigit⟩
  have hfrontDigits : ∀ d ∈ front, isDigit d := by
    intro d hd
    refine isDigit_of_isDigitOrUnderscore (hdigits d (List.mem_append_left _ hd)) ?_
    rintro rfl
    exact hfront hd
  have hbehind : ∀ d ∈ '_' :: back ++ suffix, isWord d ∨ d = '.' := by
    intro d hd
    rcases List.mem_append.mp hd with hd | hd
    · exact isWord_of_isMantissa (isMantissa_of_isDigitOrUnderscore (hdigits d (List.mem_append_right _ hd)))
    · exact .inl (isWord_of_isAsciiWord (isAsciiWord_of_suffix hsuffix d hd))
  have hrest : literalExponents true 0 ('_' :: back ++ suffix) = [] := by
    have hwithin := literalExponents_within hbehind []
    rwa [List.append_nil] at hwithin
  have hsplit : c :: whole ++ fraction ++ letter :: (sign ++ (front ++ '_' :: back) ++ suffix) =
      c :: whole ++ (fraction ++ letter :: (sign ++ (front ++ ('_' :: back ++ suffix)))) := by
    simp
  have hstops : StopsAt isDigit ('_' :: back ++ suffix) := by
    rw [List.cons_append, stopsAt_cons]
    decide
  rw [hsplit, literalExponents_found hwhole hfraction hletter hsign hfrontHead hfrontDigits hstops, hrest]

/-- Digits stand behind the underscore too, so that an exponent is at least ten times what stands in front of it. -/
theorem exponentOf_front_lt {front back after : List Char} (hfront : '_' ∉ front)
    (hrun : digitRun isAsciiDigit (front ++ '_' :: back ++ after) = (front ++ '_' :: back).length)
    (hpos : 0 < exponentOf ((front ++ '_' :: back).filter (· ≠ '_'))) :
    exponentOf front < exponentOf ((front ++ '_' :: back).filter (· ≠ '_')) := by
  have hfilter : (front ++ '_' :: back).filter (· ≠ '_') = front ++ back.filter (· ≠ '_') := by
    rw [List.filter_append, List.filter_eq_self.mpr fun d hd => by
      simpa using fun heq : d = '_' => hfront (heq ▸ hd), List.filter_cons_of_neg (by simp)]
  have hback : 0 < (back.filter (· ≠ '_')).length := by
    obtain ⟨last, hlast, hdigit⟩ := last_of_run (by simp) hrun
    have hne : last ≠ '_' := by
      rintro rfl
      exact absurd hdigit (by decide)
    have hmem : last ∈ back := by
      rw [List.getLast?_append_of_ne_nil _ (List.cons_ne_nil _ _)] at hlast
      rcases List.mem_cons.mp (List.mem_of_getLast? hlast) with heq | hmem
      · exact absurd heq hne
      · exact hmem
    exact List.length_pos_of_mem (List.mem_filter.mpr ⟨hmem, by simpa using hne⟩)
  have hle := exponentOf_append front (back.filter (· ≠ '_'))
  have hten : exponentOf front * 10 ≤ exponentOf front * 10 ^ (back.filter (· ≠ '_')).length :=
    Nat.mul_le_mul_left _ (Nat.le_self_pow hback.ne' 10)
  rw [hfilter] at hpos ⊢
  omega

/-- The exponents that the guard finds in a literal that is not plain are less than its exponent. -/
theorem found_lt_of_not_plain (hread : IsRead numeral []) (hascii : HasAsciiDigits numeral)
    (hfield : exponentField? numeral = some field) (hpos : 0 < exponentOf field) (hplain : ¬ IsPlainNumeral numeral) :
    ∀ found ∈ literalExponents false 0 numeral, exponentOf found < exponentOf field := by
  cases hread with
  | plain hmantissa hsuffix hletter =>
    rw [exponentField?_append hmantissa, exponentField?_of_head hletter] at hfield
    cases hfield
  | exponent hwhole hfraction hletter hsign hdigits hrun hsuffix =>
    rename_i whole fraction sign digits suffix letter
    rw [exponentField?_exponent (fun d hd => isMantissa_of_mem hwhole hfraction hd) hletter hsign hdigits hrun
      hsuffix, Option.some.injEq] at hfield
    obtain ⟨hhead, hdigitsAll, -⟩ := digits_of_run hdigits hrun
    by_cases hmantissa : (∃ c ∈ (whole ++ fraction ++ letter :: (sign ++ digits ++ suffix)).head?, isAsciiDigit c) ∧
        '_' ∉ whole ++ fraction
    swap
    · rw [literalExponents_of_mantissa hascii hwhole hfraction hletter hsign hdigitsAll hsuffix hmantissa]
      simp
    -- The mantissa is plain, so the underscore stands among the digits of the exponent.
    obtain ⟨⟨c, more, rfl⟩, hwholeDigits, hfractionDigits⟩ :=
      digits_of_plain hletter hwhole hfraction hmantissa.1 hmantissa.2
    have hunderscore := underscore_mem_of_not_plain hletter hsign hsuffix hmantissa.1 hmantissa.2 hplain
    obtain ⟨front, back, rfl, hfront⟩ := List.eq_append_cons_of_mem hunderscore
    rw [literalExponents_of_underscore hwholeDigits hfractionDigits hletter hsign hhead hdigitsAll hfront hsuffix]
    intro found hfound
    obtain rfl : found = front := by simpa using hfound
    rw [← hfield] at hpos ⊢
    exact exponentOf_front_lt hfront hrun hpos

/-- A literal that makes up a text, with an exponent other than zero. -/
structure IsAlone (numeral field : List Char) : Prop where
  first : ∃ c ∈ numeral.head?, isAsciiDigit c ∨ c = '.'
  length : numeralLength numeral = numeral.length
  exponent : exponentField? numeral = some field
  positive : 0 < exponentOf field

theorem IsAlone.isRead (h : IsAlone numeral field) : IsRead numeral [] := by
  have hread := isRead_numeral numeral
  rwa [h.length, List.take_length, List.drop_length] at hread

theorem IsAlone.isAscii (h : IsAlone numeral field) : ∀ c ∈ numeral, isAscii c := by
  have hall := isAsciiText_take_numeralLength numeral
  rwa [h.length, List.take_length] at hall

theorem IsAlone.ne_nil (h : IsAlone numeral field) : numeral ≠ [] := by
  rintro rfl
  obtain ⟨c, hc, -⟩ := h.first
  cases hc

theorem IsAlone.trim_eq (h : IsAlone numeral field) : trim numeral = numeral := by
  have hnotBlank {c : Char} (hc : isWord c ∨ c = '.') : isBlank c = false := by
    rw [← Bool.not_eq_true]
    intro hblank
    rcases hc with hword | rfl
    · rw [isWord_of_isBlank hblank] at hword
      cases hword
    · exact absurd hblank (by decide)
  have hfront : numeral.dropWhile isBlank = numeral := by
    refine dropWhile_of_stopsAt fun c hc => hnotBlank ?_
    obtain ⟨first, hfirst, hkind⟩ := h.first
    obtain rfl : first = c := Option.mem_unique hfirst hc
    exact hkind.imp_left fun hdigit => isWord_of_isAsciiWord (isAsciiWord_of_isAsciiDigit hdigit)
  have hback : numeral.rdropWhile isBlank = numeral := by
    refine List.rdropWhile_eq_self_iff.mpr fun hne => ?_
    have hinside := insideAfter_numeral h.isRead hne false
    simp only [insideAfter, List.getLast?_eq_some_getLast hne, Bool.or_eq_true, decide_eq_true_eq] at hinside
    simp [hnotBlank hinside]
  rw [trim, hfront]
  exact hback

theorem IsAlone.cut_eq (h : IsAlone numeral field) :
    cut (trim numeral) = [(numeral, some (.numeral (String.ofList numeral)))] := by
  have hlexeme := lexemeAt_numeral (s := []) h.first (by simpa using h.length)
  rw [List.append_nil] at hlexeme
  rw [h.trim_eq]
  cases numeral with
  | nil => exact absurd rfl h.ne_nil
  | cons c rest =>
    rw [cut_token hlexeme]
    simp [cut]

theorem IsAlone.isLiteralBehind_iff (h : IsAlone numeral field) (before other : List Char) :
    IsLiteralBehind numeral before other ↔ before = [] ∧ other = numeral := by
  constructor
  · rintro ⟨pieces, word, after, hcut, rfl⟩
    rw [h.cut_eq] at hcut
    cases pieces with
    | nil =>
      simp only [List.nil_append, List.cons.injEq, Prod.mk.injEq] at hcut
      exact ⟨rfl, hcut.1.1.symm⟩
    | cons piece rest => simp at hcut
  · rintro ⟨rfl, rfl⟩
    exact ⟨[], _, [], h.cut_eq, rfl⟩

theorem IsAlone.hasExponent (h : IsAlone numeral field) : HasExponent numeral (exponentOf field) :=
  ⟨[], numeral, field, (h.isLiteralBehind_iff [] numeral).mpr ⟨rfl, rfl⟩, h.exponent, rfl⟩

theorem IsAlone.hasPlainLiterals_iff (h : IsAlone numeral field) :
    HasPlainLiterals numeral ↔ IsPlainNumeral numeral ∧ field.length ≤ integerLimit := by
  constructor
  · intro hplain
    obtain ⟨hnumeral, -, hlength⟩ :=
      hplain.plain [] numeral field ((h.isLiteralBehind_iff [] numeral).mpr ⟨rfl, rfl⟩) h.exponent
    exact ⟨hnumeral, hlength⟩
  · rintro ⟨hnumeral, hlength⟩
    refine ⟨?_, ?_, ?_⟩
    · intro c hc hdigit
      rwa [isDigit_of_isAscii (h.isAscii c hc)] at hdigit
    · intro c hc
      have hkind := h.isRead.mem hc
      refine ⟨?_, ?_, ?_⟩ <;>
      · rintro rfl
        exact absurd hkind (by decide)
    · intro before other otherField hbehind hother
      obtain ⟨rfl, rfl⟩ := (h.isLiteralBehind_iff before other).mp hbehind
      rw [h.exponent] at hother
      obtain rfl := Option.some.inj hother
      exact ⟨hnumeral, rfl, hlength⟩

/-- The guard covers a literal on its own, for all settings, exactly if the literal is plain. -/
theorem guardsLiterals_alone_iff (h : IsAlone numeral field) :
    (∀ settings, GuardsLiterals settings numeral) ↔ HasPlainLiterals numeral := by
  refine ⟨fun hguards => ?_, fun hplain settings => guardsLiterals_of_plain hplain settings⟩
  have hpos := h.positive
  have hrefused : readsExactly { Settings.standard with maxDecimalExponent := exponentOf field - 1 } numeral =
      .error .literalTooLarge :=
    (hguards _).refuses _ h.hasExponent (by dsimp only; omega)
  obtain ⟨found, hfound, hlength, hlarge⟩ := exists_found_of_refused (by dsimp only; omega) hrefused
  have hascii : HasAsciiDigits numeral := by
    intro c hc hdigit
    rwa [isDigit_of_isAscii (h.isAscii c hc)] at hdigit
  have hplain : IsPlainNumeral numeral := by
    by_contra hplain
    have hless := found_lt_of_not_plain h.isRead hascii h.exponent hpos hplain found hfound
    dsimp only at hlarge
    omega
  have hexact := literalExponents_of_exponent h.isRead (by simpa using hascii) hplain h.exponent
  rw [List.append_nil] at hexact
  rw [hexact] at hfound
  obtain rfl : found = field := by simpa [literalExponents] using hfound
  exact h.hasPlainLiterals_iff.mpr ⟨hplain, hlength⟩

end Alone

/-- The guard covers the literals of every text with plain literals.  A literal on its own it covers only if that is
    plain. -/
theorem plain_literals_are_guarded (text : List Char) :
    (HasPlainLiterals text → ∀ settings, GuardsLiterals settings text) ∧
      ∀ field, IsAlone text field → ((∀ settings, GuardsLiterals settings text) ↔ HasPlainLiterals text) :=
  ⟨guardsLiterals_of_plain, fun _ => guardsLiterals_alone_iff⟩

/-- In a product with one exponent, the exponent is found. -/
theorem exponent_of_product_is_guarded : HasPlainLiterals "2*1.5e+200".toList ∧
    GuardsLiterals { Settings.standard with maxExactDigits := 100 } "2*1.5e+200".toList ∧
    readsExactly { Settings.standard with maxExactDigits := 100 } "2*1.5e+200".toList = .ok false := by
  have hcut : cut (trim "2*1.5e+200".toList) = [(['2'], some (.numeral "2")), (['*'], some (.operator "*")),
      ("1.5e+200".toList, some (.numeral "1.5e+200"))] := by
    decide +kernel
  have hplain : HasPlainLiterals "2*1.5e+200".toList := by
    refine ⟨by unfold HasAsciiDigits; decide, by unfold IsUnquoted; decide, ?_⟩
    rintro before numeral field ⟨pieces, word, after, heq, rfl⟩ hfield
    rw [hcut] at heq
    rcases pieces with _ | ⟨_, _ | ⟨_, _ | ⟨_, pieces⟩⟩⟩
    · obtain ⟨⟨rfl, -⟩, -⟩ : (['2'] = numeral ∧ "2" = word) ∧ _ := by simpa using heq
      cases hfield
    · simp at heq
    · simp only [List.cons_append, List.nil_append, List.cons.injEq, Prod.mk.injEq] at heq
      obtain ⟨rfl, rfl, ⟨rfl, -⟩, -⟩ := heq
      rw [show exponentField? "1.5e+200".toList = some ['2', '0', '0'] by decide] at hfield
      obtain rfl := Option.some.inj hfield
      exact ⟨⟨⟨'1', rfl, by decide⟩, by decide⟩, by decide, by decide⟩
    · simp at heq
  exact ⟨hplain, (plain_literals_are_guarded _).1 hplain _, by decide +kernel⟩

/-- Without a digit in front of the point, and with an underscore in front of the exponent or in it, the exponent of a
    literal is not found, and the literal is read exactly. -/
theorem exponents_escape_the_guard : [".5e200", "1_0e200", "1e2_00"].Forall fun text =>
    HasExponent text.toList 200 ∧
      ¬ GuardsLiterals { Settings.standard with maxDecimalExponent := 100 } text.toList ∧
      readsExactly { Settings.standard with maxDecimalExponent := 100 } text.toList = .ok true := by
  have hread : ∀ text ∈ [".5e200", "1_0e200", "1e2_00"],
      readsExactly { Settings.standard with maxDecimalExponent := 100 } text.toList = .ok true := by
    decide +kernel
  have hall : ∀ text ∈ [".5e200", "1_0e200", "1e2_00"], (∃ c ∈ text.toList.head?, isAsciiDigit c ∨ c = '.') ∧
      numeralLength text.toList = text.toList.length ∧ exponentField? text.toList = some ['2', '0', '0'] := by
    intro text htext
    simp only [List.mem_cons, List.not_mem_nil, or_false] at htext
    rcases htext with rfl | rfl | rfl <;> exact ⟨⟨_, rfl, by decide⟩, rfl, by decide⟩
  refine List.forall_iff_forall_mem.mpr fun text htext => ?_
  obtain ⟨hfirst, hlength, hfield⟩ := hall text htext
  have halone : IsAlone text.toList ['2', '0', '0'] := ⟨hfirst, hlength, hfield, by decide⟩
  refine ⟨halone.hasExponent, fun hguards => ?_, hread text htext⟩
  have hrefused := hguards.refuses 200 halone.hasExponent (by decide)
  rw [hread text htext] at hrefused
  cases hrefused

end Reckoner.Expression
