import Mathlib.Data.List.Find
import Reckoner.Proofs.Expression.Adjacency
import Reckoner.Proofs.Expression.Numerals

/-!
# Scanning a writing

A writing that is laid out with blanks is cut into exactly its tokens.  A token ends where it ends because nothing that
may stand behind it goes on with it: no letter, digit or point behind a numeral, no letter or digit behind a name, and
no second sign that makes a longer operator out of a sign.
-/

namespace Reckoner.Expression

open Reckoner.Text

/-! ### Typed tokens -/

/-- The operators and brackets of writings. -/
def typedOperators : List String := ["(", ")", "+", "-", "*", "/", "^"]

/-- Tokens of writings. -/
inductive IsTyped : Token → Prop
  | numeral (l : Literal) (h : l.IsReadable) : IsTyped (.numeral (String.ofList l.text))
  | name (word : String) (h : IsVariableName word) : IsTyped (.name word)
  | operator (text : String) (h : text ∈ typedOperators) : IsTyped (.operator text)

/-- Whether a character right behind a token would belong to it. -/
def Token.goesOn : Token → Char → Bool
  | .numeral _, c => continuesNumeral c
  | .name _, c => isWord c
  | .operator text, c => text ≠ "(" && text ≠ ")" && ['=', '>', '*', '/'].contains c
  | _, _ => true

def isInk (c : Char) : Bool := isAsciiWord c || ['(', ')', '+', '-', '*', '/', '^', '.'].contains c

/-- The characters of writings, blanks included. -/
def isPlain (c : Char) : Bool := isSpace c || isInk c

theorem isSpelling_typed :
    IsSpelling (fun l => [.numeral (String.ofList l.text)]) ArithmeticOperator.sign where
  begins l := ⟨_, [], rfl, rfl⟩
  ends l := ⟨[], _, rfl, rfl⟩
  signs op := by cases op <;> rfl

theorem isTyped_of_mem_tokens {w : Writing} (hw : w.tree.IsReadable) : ∀ t ∈ w.tokens, IsTyped t := by
  refine w.forall_mem_spell ?_ ?_ (.operator _ (by decide)) (.operator _ (by decide)) (.operator _ (by decide)) ?_
  · intro l hl t ht
    obtain rfl : t = .numeral (String.ofList l.text) := by simpa using ht
    exact .numeral l (hw.literals l hl)
  · intro word hword
    exact .name word (hw.names word hword).1
  · intro op
    cases op <;> exact .operator _ (by decide)

/-! ### Characters of typed tokens -/

theorem isAsciiWord_of_isLetter {c : Char} (h : isAsciiLetter c ∨ c = '_') : isAsciiWord c := by
  rcases h with h | rfl
  · simp [isAsciiWord, h]
  · decide

theorem isInk_of_isAsciiWord {c : Char} (h : isAsciiWord c) : isInk c := by
  simp [isInk, h]

theorem isAscii_of_isInk {c : Char} (h : isInk c) : isAscii c := by
  simp only [isInk, Bool.or_eq_true] at h
  rcases h with h | h
  · exact isAscii_of_isAsciiWord h
  · simp only [List.contains_iff_mem, List.mem_cons, List.not_mem_nil, or_false] at h
    rcases h with rfl | rfl | rfl | rfl | rfl | rfl | rfl | rfl <;> decide

theorem isAscii_of_isPlain {c : Char} (h : isPlain c) : isAscii c := by
  simp only [isPlain, isSpace, Bool.or_eq_true, decide_eq_true_eq] at h
  rcases h with ((rfl | rfl) | rfl) | h
  · decide
  · decide
  · decide
  · exact isAscii_of_isInk h

theorem isBlank_of_isInk {c : Char} (h : isInk c) : isBlank c = false := by
  simp only [isInk, isAsciiWord, Bool.or_eq_true, isAsciiLetter_iff, isAsciiDigit_iff, decide_eq_true_eq,
    List.contains_iff_mem, List.mem_cons, List.not_mem_nil, or_false] at h
  rcases h with (h | rfl) | rfl | rfl | rfl | rfl | rfl | rfl | rfl | rfl
  · simp only [isBlank, Bool.or_eq_false_iff, Bool.and_eq_false_iff, decide_eq_false_iff_not]
    omega
  all_goals decide

/-- No token begins with a character that the scanner treats in a special way. -/
theorem not_special_of_isInk {c : Char} (h : isInk c) :
    isSpace c = false ∧ isBlank c = false ∧
      c ∉ ['\\', '#', '\n', '\r', '\'', '"', '='] := by
  have hspecial : ∀ d ∈ [' ', '\t', '\x0c', '\\', '#', '\n', '\r', '\'', '"', '='], c ≠ d := by
    have hall : ∀ d ∈ [' ', '\t', '\x0c', '\\', '#', '\n', '\r', '\'', '"', '='], isInk d = false := by decide
    rintro d hd rfl
    rw [hall c hd] at h
    cases h
  refine ⟨by simp [isSpace, hspecial], isBlank_of_isInk h, fun hmem => hspecial c ?_ rfl⟩
  exact List.mem_cons_of_mem _ (List.mem_cons_of_mem _ (List.mem_cons_of_mem _ hmem))

theorem isInk_of_mem_typed {t : Token} (ht : IsTyped t) {c : Char} (hc : c ∈ t.typed) : isInk c := by
  cases ht with
  | numeral l h =>
    rw [Token.typed, String.toList_ofList] at hc
    rcases mem_literal_text hc with hdigit | rfl
    · exact isInk_of_isAsciiWord (isAsciiWord_of_isAsciiDigit hdigit)
    · decide
  | name word h =>
    obtain ⟨first, rest, hword, hfirst, hrest⟩ := h
    rw [Token.typed, hword] at hc
    rcases List.mem_cons.mp hc with rfl | hc
    · exact isInk_of_isAsciiWord (isAsciiWord_of_isLetter hfirst)
    · exact isInk_of_isAsciiWord (hrest c hc)
  | operator text h =>
    have hall : ∀ text ∈ typedOperators, ∀ c ∈ text.toList, isInk c := by decide
    exact hall text h c hc

theorem typed_ne_nil {t : Token} (ht : IsTyped t) : t.typed ≠ [] := by
  cases ht with
  | numeral l h =>
    rw [Token.typed, String.toList_ofList]
    cases l with
    | whole n => exact digitsOfNat_ne_nil n
    | decimal front fraction => simp [Literal.text]
  | name word h =>
    obtain ⟨first, rest, hword, _⟩ := h
    simp [Token.typed, hword]
  | operator text h =>
    have hall : ∀ text ∈ typedOperators, text.toList ≠ [] := by decide
    exact hall text h

theorem isPlain_of_mem_laidOut {ts : List Token} {s : List Char} (h : LaidOut ts s) (hts : ∀ t ∈ ts, IsTyped t)
    {c : Char} (hc : c ∈ s) : isPlain c := by
  induction h with
  | blanks hblanks => simp [isPlain, hblanks c hc]
  | token hblanks t h ih =>
    simp only [List.mem_append] at hc
    rcases hc with (hc | hc) | hc
    · simp [isPlain, hblanks c hc]
    · simp [isPlain, isInk_of_mem_typed (hts t List.mem_cons_self) hc]
    · exact ih (fun u hu => hts u (List.mem_cons_of_mem t hu)) hc

theorem isAsciiDigit_eq_false {c : Char} (h : isAsciiLetter c ∨ c = '_') : isAsciiDigit c = false := by
  rcases h with h | rfl
  · rw [isAsciiLetter_iff] at h
    rw [← Bool.not_eq_true, isAsciiDigit_iff]
    omega
  · decide

/-! ### Lexemes -/

/-- An operator that a text with a sign in front begins with is no longer than the sign. -/
theorem isPrefixOf_append_of_stops {text : String} (h : text ∈ "**" :: typedOperators) {s : List Char}
    (hs : StopsAt (Token.operator text).goesOn s) {op : List Char} (hop : op ∈ operators) :
    op.isPrefixOf (text.toList ++ s) = op.isPrefixOf text.toList := by
  have hlonger : ∀ text ∈ "**" :: typedOperators, ∀ op ∈ operators, text.toList <+: op →
      ∀ c ∈ (op.drop text.toList.length).head?, (Token.operator text).goesOn c := by
    decide +kernel
  rw [Bool.eq_iff_iff, List.isPrefixOf_iff_prefix, List.isPrefixOf_iff_prefix]
  constructor
  · intro hprefix
    rcases List.prefix_or_prefix_of_prefix hprefix (List.prefix_append text.toList s) with hshort | hlong
    · exact hshort
    · obtain ⟨more, rfl⟩ := hlong
      cases more with
      | nil => simp
      | cons c more =>
        have hgoes : (Token.operator text).goesOn c := hlonger text h _ hop (List.prefix_append _ _) c (by simp)
        rw [List.prefix_append_right_inj] at hprefix
        obtain ⟨tail, rfl⟩ := hprefix
        rw [List.cons_append, stopsAt_cons, hgoes] at hs
        cases hs
  · intro hprefix
    exact hprefix.trans (List.prefix_append _ _)

/-- A sign is read as itself where nothing goes on with it. -/
theorem operatorAt?_append {text : String} (h : text ∈ "**" :: typedOperators) {s : List Char}
    (hs : StopsAt (Token.operator text).goesOn s) : operatorAt? (text.toList ++ s) = some text.toList := by
  have halone : ∀ text ∈ "**" :: typedOperators, operatorAt? text.toList = some text.toList := by
    decide_cbv
  rw [← halone text h]
  exact List.find?_congr fun op hop => isPrefixOf_append_of_stops h hs hop

theorem operatorAt?_of_isAsciiWord {c : Char} (hc : isAsciiWord c) (s : List Char) : operatorAt? (c :: s) = none := by
  have hall : ∀ op ∈ operators, op.head?.any fun d => !isAsciiWord d := by decide_cbv
  apply List.find?_eq_none.mpr
  intro op hop hprefix
  cases op with
  | nil => cases hall [] hop
  | cons d rest =>
    obtain ⟨rfl, -⟩ : d = c ∧ _ := by simpa [List.isPrefixOf] using hprefix
    simpa [hc] using hall _ hop

theorem quotationStart?_eq_none {s : List Char} (h : ∀ c ∈ s, c ≠ '\'' ∧ c ≠ '"') : quotationStart? s = none := by
  unfold quotationStart?
  rw [List.findSome?_eq_none_iff]
  intro mark _
  split
  · have hquote {a : Char} {rest : List Char} (hdrop : s.drop mark.length = a :: rest) : ¬ (a = '\'' ∨ a = '"') := by
      have hmem : a ∈ s := List.mem_of_mem_drop (by rw [hdrop]; exact List.mem_cons_self)
      simpa [not_or] using h a hmem
    split
    · rename_i hdrop
      rw [if_neg (hquote hdrop)]
    · rename_i hdrop
      rw [if_neg (hquote hdrop)]
    · rfl
  · rfl

theorem numeralLength_eq_zero {c : Char} (hdigit : isAsciiDigit c = false) (hpoint : c ≠ '.') (s : List Char) :
    numeralLength (c :: s) = 0 := by
  have hrun : digitRun isAsciiDigit (c :: s) = 0 := by simp [digitRun, hdigit]
  have hdecimal : decimalLength (c :: s) = 0 := by
    simp only [decimalLength, hrun, List.drop_zero]
    split
    · rename_i heq
      exact absurd (List.cons.inj heq).1 hpoint
    · simp
  have hwhole : wholeLength (c :: s) = 0 := by
    have hzero : c ≠ '0' := by
      rintro rfl
      exact absurd hdigit (by decide)
    rw [wholeLength_of_ne_zero hzero, hrun]
  have himaginary : imaginaryLength 0 (c :: s) = 0 := rfl
  simp only [numeralLength, hrun, hdecimal, hwhole, himaginary, ne_eq, not_true_eq_false, if_false]

theorem lexemeAt_of_isInk {c : Char} (hc : isInk c) {s : List Char} (hquotation : quotationStart? (c :: s) = none) :
    lexemeAt (c :: s) =
      if numeralLength (c :: s) ≠ 0 then
        .token (.numeral (String.ofList ((c :: s).take (numeralLength (c :: s))))) (numeralLength (c :: s))
      else
        match operatorAt? (c :: s) with
        | some text => .token (.operator (String.ofList text)) text.length
        | none => wordAt (c :: s) := by
  have hspecial := (not_special_of_isInk hc).2.2
  have hne {d : Char} {rest : List Char} (hd : d ∈ ['#', '\n', '\r']) : c :: s ≠ d :: rest := by
    intro heq
    obtain ⟨rfl, -⟩ := List.cons.inj heq
    simp only [List.mem_cons, List.not_mem_nil, or_false] at hd
    rcases hd with rfl | rfl | rfl <;> exact hspecial (by decide)
  rw [lexemeAt]
  · cases operatorAt? (c :: s) <;> simp only [hquotation, quotationOrWordAt]
  · intro heq
    cases heq
  · intro rest heq
    exact hne (by decide) heq
  · intro rest heq
    exact hne (by decide) heq
  · intro rest heq
    exact hne (by decide) heq

/-- No quotation begins with a character that is neither a quote nor the letter of a mark. -/
theorem quotationStart?_of_first {c : Char} (hmark : c.toLower ∉ ['b', 'r', 'u', 'f']) (hquote : c ≠ '\'' ∧ c ≠ '"')
    (s : List Char) : quotationStart? (c :: s) = none := by
  have hmarks : ∀ mark ∈ quotationMarks, ∀ d ∈ mark.head?, d ∈ ['b', 'r', 'u', 'f'] := by decide
  unfold quotationStart?
  rw [List.findSome?_eq_none_iff]
  intro mark hmem
  cases mark with
  | nil =>
    rcases s with _ | ⟨d, _ | ⟨e, rest⟩⟩
    · simp [hquote]
    · simp [hquote]
    · simp [hquote]
  | cons d rest =>
    have hd : d ≠ c.toLower := by
      rintro rfl
      exact hmark (hmarks _ hmem _ rfl)
    simp [hd]

/-- A numeral is the next token wherever it is read as one. -/
theorem lexemeAt_numeral {numeral s : List Char} (hfirst : ∃ c ∈ numeral.head?, isAsciiDigit c ∨ c = '.')
    (hlength : numeralLength (numeral ++ s) = numeral.length) :
    lexemeAt (numeral ++ s) = .token (.numeral (String.ofList numeral)) numeral.length := by
  obtain ⟨c, hc, hdigit⟩ := hfirst
  cases numeral with
  | nil => simp at hc
  | cons d rest =>
    obtain rfl : d = c := by simpa using hc
    have hink : isInk d := by
      rcases hdigit with hdigit | rfl
      · exact isInk_of_isAsciiWord (isAsciiWord_of_isAsciiDigit hdigit)
      · decide
    have hquotation : quotationStart? (d :: (rest ++ s)) = none := by
      rcases hdigit with hdigit | rfl
      · have hall : ∀ n : Fin 128, isAsciiDigit (Char.ofNat n) →
            (Char.ofNat n).toLower ∉ ['b', 'r', 'u', 'f'] ∧ Char.ofNat n ≠ '\'' ∧ Char.ofNat n ≠ '"' := by
          decide
        obtain ⟨hmark, hquote⟩ := forall_of_isAscii
          (P := fun c => isAsciiDigit c → c.toLower ∉ ['b', 'r', 'u', 'f'] ∧ c ≠ '\'' ∧ c ≠ '"') hall
          (isAscii_of_isAsciiWord (isAsciiWord_of_isAsciiDigit hdigit)) hdigit
        exact quotationStart?_of_first hmark hquote _
      · exact quotationStart?_of_first (by decide) (by decide) _
    have htake : (d :: (rest ++ s)).take (d :: rest).length = d :: rest := List.take_left
    rw [List.cons_append] at hlength ⊢
    rw [lexemeAt_of_isInk hink hquotation, hlength, if_pos (by simp), htake]

/-- A sign is the next token where nothing goes on with it. -/
theorem lexemeAt_operator {text : String} (h : text ∈ typedOperators) {s : List Char}
    (hs : StopsAt (Token.operator text).goesOn s) :
    lexemeAt (text.toList ++ s) = .token (.operator text) text.toList.length := by
  have hfirst : ∀ text ∈ typedOperators, ∀ c ∈ text.toList.head?, isAsciiDigit c = false ∧ c ≠ '.' ∧ isInk c ∧
      c.toLower ∉ ['b', 'r', 'u', 'f'] ∧ c ≠ '\'' ∧ c ≠ '"' := by
    decide
  have hoperator := operatorAt?_append (List.mem_cons_of_mem "**" h) hs
  cases htext : text.toList with
  | nil => exact absurd htext (typed_ne_nil (.operator text h))
  | cons c rest =>
    obtain ⟨hdigit, hpoint, hink, hmark, hquote⟩ := hfirst text h c (by simp [htext])
    have hnumeral : numeralLength (c :: (rest ++ s)) = 0 := numeralLength_eq_zero hdigit hpoint _
    rw [htext, List.cons_append] at hoperator
    rw [List.cons_append, lexemeAt_of_isInk hink (quotationStart?_of_first hmark hquote _), if_neg (by simp [hnumeral]),
      hoperator, ← htext]
    simp only [String.ofList_toList]

theorem wordAt_append {word : String} (h : IsVariableName word) {s : List Char} (hs : StopsAt isWord s) :
    wordAt (word.toList ++ s) = .token (.name word) word.toList.length := by
  obtain ⟨c, rest, hword, hc, hrest⟩ := h
  have hall : ∀ d ∈ word.toList, isWord d = true := by
    intro d hd
    rw [hword] at hd
    rcases List.mem_cons.mp hd with rfl | hd
    · exact isWord_of_isAsciiWord (isAsciiWord_of_isLetter hc)
    · exact isWord_of_isAsciiWord (hrest d hd)
  have hstart : isNameStart c := by
    have hascii : isAscii c := isAscii_of_isAsciiWord (isAsciiWord_of_isLetter hc)
    simpa [isNameStart, hascii] using hc
  have htake : (word.toList ++ s).takeWhile isWord = word.toList := by
    rw [takeWhile_append_of_stopsAt _ hs, List.takeWhile_eq_self_iff.mpr hall]
  rw [wordAt, htake]
  simp only [hword, hstart, if_true]
  rw [← hword, String.ofList_toList]

/-- A typed token in front of a text that does not go on with it is the next token. -/
theorem lexemeAt_append {t : Token} (ht : IsTyped t) {s : List Char} (hs : StopsAt t.goesOn s)
    (hquotes : ∀ c ∈ t.typed ++ s, c ≠ '\'' ∧ c ≠ '"') : lexemeAt (t.typed ++ s) = .token t t.typed.length := by
  cases ht with
  | numeral l h =>
    have htyped : (Token.numeral (String.ofList l.text)).typed = l.text := String.toList_ofList
    rw [htyped]
    apply lexemeAt_numeral _ (numeralLength_append h hs)
    cases htext : l.text with
    | nil => exact absurd (htyped.trans htext) (typed_ne_nil (.numeral l h))
    | cons c rest => exact ⟨c, rfl, mem_literal_text (by rw [htext]; exact List.mem_cons_self)⟩
  | name word h =>
    have hquotation : quotationStart? (word.toList ++ s) = none := quotationStart?_eq_none hquotes
    have hwordAt := wordAt_append h hs
    obtain ⟨c, rest, hword, hletter, _⟩ := h
    have hasciiWord : isAsciiWord c := isAsciiWord_of_isLetter hletter
    have hpoint : c ≠ '.' := by
      rintro rfl
      exact absurd hasciiWord (by decide)
    have hnumeral : numeralLength (c :: (rest ++ s)) = 0 :=
      numeralLength_eq_zero (isAsciiDigit_eq_false hletter) hpoint _
    rw [hword, List.cons_append] at hquotation
    rw [Token.typed, hwordAt.symm, hword, List.cons_append, lexemeAt_of_isInk (isInk_of_isAsciiWord hasciiWord) hquotation,
      if_neg (by simp [hnumeral]), operatorAt?_of_isAsciiWord hasciiWord]
  | operator text h => exact lexemeAt_operator h hs

end Reckoner.Expression
