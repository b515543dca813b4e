import Reckoner.Expression.Engine
import Reckoner.Proofs.Expression.Scanning

/-!
# Texts of writings

A writing that is laid out with blanks is scanned into exactly its tokens, and nothing else that the engine looks for
in a text is in it: it is no assignment, none of its numerals has an exponent, and its identifiers are its names.
-/

namespace Reckoner.Expression

open Reckoner.Text

/-! ### Neighbours -/

/-- Tokens that may stand side by side in a writing. -/
def Token.Meets (a b : Token) : Prop := (a.asksOperand ∧ b.beginsOperand) ∨ (a.endsOperand ∧ b.followsOperand)

theorem isChain_tokens (w : Writing) : w.tokens.IsChain Token.Meets :=
  Writing.isChain_spell isSpelling_typed (fun _ => List.isChain_singleton _) (fun _ _ ha hb => .inl ⟨ha, hb⟩)
    (fun _ _ ha hb => .inr ⟨ha, hb⟩) w

/-- A blank belongs to no token, and is nothing that the scanner treats in another way. -/
theorem plain_of_isSpace {c : Char} (hc : isSpace c) :
    isBlank c ∧ isWord c = false ∧ continuesNumeral c = false ∧
      c ∉ ['=', '>', '*', '/', '\\', '#', '\n', '\r', '\'', '"'] := by
  simp only [isSpace, Bool.or_eq_true, decide_eq_true_eq] at hc
  rcases hc with (rfl | rfl) | rfl <;> decide

theorem goesOn_of_isSpace {t : Token} (ht : IsTyped t) {c : Char} (hc : isSpace c) : t.goesOn c = false := by
  obtain ⟨_, hname, hnumeral, hsign⟩ := plain_of_isSpace hc
  cases ht with
  | numeral l h => exact hnumeral
  | name word h => exact hname
  | operator text h =>
    have hsign : c ∉ ['=', '>', '*', '/'] := by
      simp only [List.mem_cons, not_or] at hsign ⊢
      tauto
    simp [Token.goesOn, hsign]

/-- The character that an operand begins with makes no longer operator of a sign in front of it. -/
theorem not_mem_of_beginsOperand {t : Token} (ht : IsTyped t) (hbegins : t.beginsOperand) {c : Char}
    (hc : c ∈ t.typed.head?) : c ∉ ['=', '>', '*', '/'] := by
  have hword : ∀ d ∈ ['=', '>', '*', '/'], isAsciiWord d = false ∧ d ≠ '.' := by decide
  intro hmem
  cases ht with
  | numeral l h =>
    rw [Token.typed, String.toList_ofList] at hc
    rcases mem_literal_text (List.mem_of_mem_head? hc) with hdigit | hpoint
    · have hplain := (hword c hmem).1
      rw [isAsciiWord_of_isAsciiDigit hdigit] at hplain
      cases hplain
    · exact (hword c hmem).2 hpoint
  | name word h =>
    obtain ⟨first, rest, hfirst, hletter, _⟩ := h
    obtain rfl : first = c := by simpa [Token.typed, hfirst] using hc
    have hplain := (hword first hmem).1
    rw [isAsciiWord_of_isLetter hletter] at hplain
    cases hplain
  | operator text h =>
    have hall : ∀ text ∈ typedOperators, (Token.operator text).beginsOperand → ∀ c ∈ text.toList.head?,
        c ∉ ['=', '>', '*', '/'] := by
      decide
    exact hall text h hbegins c hc hmem

theorem goesOn_of_followsOperand {t : Token} (ht : IsTyped t) (hfollows : t.followsOperand) {c : Char}
    (hc : c ∈ t.typed.head?) : continuesNumeral c = false ∧ isWord c = false := by
  cases ht with
  | numeral l h => cases hfollows
  | name word h => cases hfollows
  | operator text h =>
    have hall : ∀ text ∈ typedOperators, (Token.operator text).followsOperand → ∀ c ∈ text.toList.head?,
        continuesNumeral c = false ∧ isWord c = false := by
      decide
    exact hall text h hfollows c hc

theorem goesOn_of_meets {a b : Token} (ha : IsTyped a) (hb : IsTyped b) (h : a.Meets b) {c : Char}
    (hc : c ∈ b.typed.head?) : a.goesOn c = false := by
  rcases h with ⟨hasks, hbegins⟩ | ⟨hends, hfollows⟩
  · cases ha with
    | numeral l h => cases hasks
    | name word h => cases hasks
    | operator text h =>
      have hmem := not_mem_of_beginsOperand hb hbegins hc
      simp [Token.goesOn, hmem]
  · obtain ⟨hnumeral, hname⟩ := goesOn_of_followsOperand hb hfollows hc
    cases ha with
    | numeral l h => exact hnumeral
    | name word h => exact hname
    | operator text h =>
      obtain rfl : text = ")" := by simpa [Token.endsOperand] using hends
      rfl

/-- What stands behind a token in a text that is laid out does not go on with it. -/
theorem stopsAt_laidOut {a : Token} {ts : List Token} {s : List Char} (hts : ∀ t ∈ a :: ts, IsTyped t)
    (hchain : (a :: ts).IsChain Token.Meets) (h : LaidOut ts s) : StopsAt a.goesOn s := by
  have ha : IsTyped a := hts a List.mem_cons_self
  cases h with
  | blanks hblanks =>
    intro c hc
    exact goesOn_of_isSpace ha (hblanks c (List.mem_of_mem_head? hc))
  | token hblanks t h =>
    rename_i blanks ts s
    have ht : IsTyped t := hts t (by simp)
    cases blanks with
    | nil =>
      cases htyped : t.typed with
      | nil => exact absurd htyped (typed_ne_nil ht)
      | cons c rest =>
        rw [List.nil_append, List.cons_append, stopsAt_cons]
        rw [List.isChain_cons_cons] at hchain
        exact goesOn_of_meets ha ht hchain.1 (by simp [htyped])
    | cons c rest =>
      rw [List.cons_append, List.cons_append, stopsAt_cons]
      exact goesOn_of_isSpace ha (hblanks c List.mem_cons_self)

/-- Where a class holds no ink, no run of it goes on into a token. -/
theorem stopsAt_typed {p : Char → Bool} (hp : ∀ c, isInk c → p c = false) {t : Token} (ht : IsTyped t) (s : List Char) :
    StopsAt p (t.typed ++ s) := by
  cases htyped : t.typed with
  | nil => exact absurd htyped (typed_ne_nil ht)
  | cons c rest =>
    rw [List.cons_append, stopsAt_cons]
    apply hp
    exact isInk_of_mem_typed ht (by simp [htyped])

/-! ### Scanning -/

/-- A lexeme that begins with ink, and is no line end, is scanned as it is. -/
theorem scanFrom_lexeme {c : Char} {s : List Char} {t : Token} {n : Nat} (hc : isInk c)
    (hlexeme : lexemeAt (c :: s) = .token t n) (hend : ∀ visible, t ≠ .lineEnd visible) (depth : Int) (fresh : Bool) :
    scanFrom depth fresh (c :: s) = (scanFrom (depth + bracketStep t) false (s.drop (n - 1))).map (t :: ·) := by
  obtain ⟨hspace, _, hspecial⟩ := not_special_of_isInk hc
  simp only [List.mem_cons, List.not_mem_nil, or_false, not_or] at hspecial
  obtain ⟨hbackslash, hcomment, hnewline, _⟩ := hspecial
  rw [scanFrom]
  · simp only [hcomment, hnewline, hspace, hlexeme, decide_false, Bool.and_false, Bool.false_eq_true, if_false]
  · intro rest heq
    exact absurd heq hbackslash

/-- A numeral is scanned as it is wherever it is read as one. -/
theorem scanFrom_numeral {numeral s : List Char} (hfirst : ∃ c rest, numeral = c :: rest ∧ (isAsciiDigit c ∨ c = '.'))
    (hlength : numeralLength (numeral ++ s) = numeral.length) (depth : Int) (fresh : Bool) :
    scanFrom depth fresh (numeral ++ s) = (scanFrom depth false s).map (.numeral (String.ofList numeral) :: ·) := by
  obtain ⟨c, rest, rfl, hc⟩ := hfirst
  have hlexeme := lexemeAt_numeral ⟨c, rfl, hc⟩ hlength
  have hink : isInk c := by
    rcases hc with hdigit | rfl
    · exact isInk_of_isAsciiWord (isAsciiWord_of_isAsciiDigit hdigit)
    · decide
  rw [List.cons_append] at hlexeme ⊢
  rw [scanFrom_lexeme hink hlexeme (by simp), List.length_cons, Nat.add_sub_cancel, List.drop_left]
  simp [bracketStep]

theorem scanFrom_operator {text : String} (h : text ∈ typedOperators) {s : List Char}
    (hs : StopsAt (Token.operator text).goesOn s) (depth : Int) (fresh : Bool) :
    scanFrom depth fresh (text.toList ++ s) =
      (scanFrom (depth + bracketStep (.operator text)) false s).map (.operator text :: ·) := by
  have hlexeme := lexemeAt_operator h hs
  cases htext : text.toList with
  | nil => exact absurd htext (typed_ne_nil (.operator text h))
  | cons c rest =>
    have hc : isInk c := isInk_of_mem_typed (.operator text h) (by simp [Token.typed, htext])
    rw [htext, List.cons_append] at hlexeme
    rw [List.cons_append, scanFrom_lexeme hc hlexeme (by simp), List.length_cons, Nat.add_sub_cancel, List.drop_left]

/-- A token is scanned as itself where nothing goes on with it. -/
theorem scanFrom_token {t : Token} (ht : IsTyped t) {s : List Char} (hs : StopsAt t.goesOn s)
    (hquotes : ∀ c ∈ t.typed ++ s, c ≠ '\'' ∧ c ≠ '"') (depth : Int) (fresh : Bool) :
    scanFrom depth fresh (t.typed ++ s) = (scanFrom (depth + bracketStep t) false s).map (t :: ·) := by
  have hlexeme := lexemeAt_append ht hs hquotes
  have hend (visible : Bool) : t ≠ .lineEnd visible := by
    rintro rfl
    cases ht
  cases htyped : t.typed with
  | nil => exact absurd htyped (typed_ne_nil ht)
  | cons c rest =>
    have hc : isInk c := isInk_of_mem_typed ht (by simp [htyped])
    rw [htyped, List.cons_append] at hlexeme
    rw [List.cons_append, scanFrom_lexeme hc hlexeme hend, List.length_cons, Nat.add_sub_cancel, List.drop_left]

theorem scanFrom_blanks {blanks s : List Char} (hblanks : ∀ c ∈ blanks, isSpace c) (hs : StopsAt isSpace s)
    (hlexeme : s = [] ∨ ∃ t n, lexemeAt s = .token t n) (depth : Int) :
    scanFrom depth false (blanks ++ s) = scanFrom depth false s := by
  induction blanks with
  | nil => rfl
  | cons c rest ih =>
    have hc : isSpace c := hblanks c List.mem_cons_self
    have hrest : ∀ d ∈ rest, isSpace d := fun d hd => hblanks d (List.mem_cons_of_mem c hd)
    have hdrop : (rest ++ s).dropWhile isSpace = s := by
      rw [List.dropWhile_append_of_pos hrest, dropWhile_of_stopsAt hs]
    have hbackslash : c ≠ '\\' := by
      rintro rfl
      exact absurd hc (by decide)
    rw [List.cons_append, scanFrom]
    · simp only [hc, hdrop, Bool.false_and, Bool.false_eq_true, if_false, if_true]
      rcases hlexeme with rfl | ⟨t, n, hlexeme⟩
      · exact ih hrest
      · rw [hlexeme]
        exact ih hrest
    · intro rest heq
      exact absurd heq hbackslash

theorem not_quote_of_mem_laidOut {ts : List Token} {s : List Char} (h : LaidOut ts s) (hts : ∀ t ∈ ts, IsTyped t)
    {c : Char} (hc : c ∈ s) : c ≠ '\'' ∧ c ≠ '"' ∧ c ≠ '=' := by
  have hplain := isPlain_of_mem_laidOut h hts hc
  refine ⟨?_, ?_, ?_⟩ <;> (rintro rfl; exact absurd hplain (by decide))

theorem not_quote_of_mem_append {t : Token} {ts : List Token} {s : List Char} (h : LaidOut ts s)
    (hts : ∀ u ∈ t :: ts, IsTyped u) : ∀ c ∈ t.typed ++ s, c ≠ '\'' ∧ c ≠ '"' := by
  intro c hc
  have hlaidOut : LaidOut (t :: ts) ([] ++ t.typed ++ s) := .token (by simp) t h
  obtain ⟨hsingle, hdouble, _⟩ := not_quote_of_mem_laidOut hlaidOut hts (by simpa using hc)
  exact ⟨hsingle, hdouble⟩

/-- A text that is laid out is scanned into its tokens. -/
theorem scanFrom_laidOut {ts : List Token} {s : List Char} (h : LaidOut ts s) (hts : ∀ t ∈ ts, IsTyped t)
    (hchain : ts.IsChain Token.Meets) {depth : Int} (hdepth : depth + (ts.map bracketStep).sum = 0) :
    scanFrom depth false s = some (ts ++ closingTokens) := by
  induction h generalizing depth with
  | blanks hblanks =>
    rename_i blanks
    have hpassed := scanFrom_blanks hblanks stopsAt_nil (.inl rfl) depth
    rw [List.append_nil] at hpassed
    rw [hpassed, scanFrom, if_pos (by simpa using hdepth)]
    rfl
  | token hblanks t h ih =>
    rename_i blanks ts s
    have ht : IsTyped t := hts t List.mem_cons_self
    have hts' : ∀ u ∈ ts, IsTyped u := fun u hu => hts u (List.mem_cons_of_mem t hu)
    have hstops := stopsAt_laidOut hts hchain h
    have hquotes := not_quote_of_mem_append h hts
    have hstart : StopsAt isSpace (t.typed ++ s) := stopsAt_typed (fun c hc => (not_special_of_isInk hc).1) ht s
    have hlexeme := lexemeAt_append ht hstops hquotes
    have hsum : depth + bracketStep t + (ts.map bracketStep).sum = 0 := by
      rw [List.map_cons, List.sum_cons] at hdepth
      omega
    rw [List.append_assoc, scanFrom_blanks hblanks hstart (.inr ⟨t, _, hlexeme⟩), scanFrom_token ht hstops hquotes,
      ih hts' hchain.tail hsum]
    rfl

/-- Every bracket of a writing is closed. -/
theorem sum_bracketStep_tokens (w : Writing) : (w.tokens.map bracketStep).sum = 0 := by
  unfold Writing.tokens
  induction w with
  | literal l => rfl
  | name word => rfl
  | negation operand ih =>
    rw [Writing.spell, List.map_cons, List.sum_cons, ih]
    rfl
  | operation op left right ihl ihr =>
    have hsign : bracketStep (.operator op.sign) = 0 := by cases op <;> rfl
    rw [Writing.spell, List.map_append, List.map_cons, List.sum_append, List.sum_cons, ihl, ihr, hsign]
    rfl
  | bracket inside ih =>
    rw [Writing.spell, List.cons_append, List.map_cons, List.map_append, List.sum_cons, List.sum_append, ih]
    rfl

/-! ### Blank ends -/

theorem trimRight_append {s t : List Char} (h : ∀ c ∈ s.getLast?, isBlank c = false) :
    trimRight (s ++ t) = s ++ trimRight t := by
  have hstops : StopsAt isBlank s.reverse := by
    intro c hc
    exact h c (by rwa [List.head?_reverse] at hc)
  rw [trimRight, trimRight, List.reverse_append, dropWhile_append_of_stopsAt _ hstops, List.reverse_append,
    List.reverse_reverse]

theorem LaidOut.trimRight {ts : List Token} {s : List Char} (h : LaidOut ts s) (hts : ∀ t ∈ ts, IsTyped t) :
    LaidOut ts (trimRight s) := by
  induction h with
  | blanks hblanks =>
    rename_i blanks
    have hnil : Text.trimRight blanks = [] := by
      rw [Text.trimRight, List.dropWhile_eq_nil_iff.mpr, List.reverse_nil]
      intro c hc
      exact (plain_of_isSpace (hblanks c (List.mem_reverse.mp hc))).1
    rw [hnil]
    exact .blanks (by simp)
  | token hblanks t h ih =>
    rename_i blanks ts s
    have ht : IsTyped t := hts t List.mem_cons_self
    have hlast : ∀ c ∈ (blanks ++ t.typed).getLast?, isBlank c = false := by
      intro c hc
      rw [List.getLast?_append_of_ne_nil _ (typed_ne_nil ht)] at hc
      exact (not_special_of_isInk (isInk_of_mem_typed ht (List.mem_of_getLast? hc))).2.1
    rw [trimRight_append hlast]
    exact .token hblanks t (ih fun u hu => hts u (List.mem_cons_of_mem t hu))

theorem trim_laidOut {t : Token} {ts : List Token} {s : List Char} (h : LaidOut (t :: ts) s)
    (hts : ∀ u ∈ t :: ts, IsTyped u) : ∃ rest, trim s = t.typed ++ rest ∧ LaidOut ts rest := by
  cases h with
  | token hblanks t h =>
    rename_i blanks s
    have ht : IsTyped t := hts t List.mem_cons_self
    have hblank (c : Char) (hc : isInk c) : isBlank c = false := (not_special_of_isInk hc).2.1
    have hstart : StopsAt isBlank (t.typed ++ s) := stopsAt_typed hblank ht s
    have hdrop : (blanks ++ t.typed ++ s).dropWhile isBlank = t.typed ++ s := by
      rw [List.append_assoc, List.dropWhile_append_of_pos fun c hc => (plain_of_isSpace (hblanks c hc)).1,
        dropWhile_of_stopsAt hstart]
    refine ⟨trimRight s, ?_, h.trimRight fun u hu => hts u (List.mem_cons_of_mem t hu)⟩
    have htrim : trim (blanks ++ t.typed ++ s) = trimRight (t.typed ++ s) := by
      rw [trim, hdrop]
      rfl
    rw [htrim, trimRight_append fun c hc => hblank c (isInk_of_mem_typed ht (List.mem_of_getLast? hc))]

theorem laidOut_trim {w : Writing} (hw : w.tree.IsReadable) {text : List Char} (h : LaidOut w.tokens text) :
    LaidOut w.tokens (trim text) ∧ trim text ≠ [] := by
  have hts := isTyped_of_mem_tokens hw
  obtain ⟨t, ts, htokens, _⟩ : ∃ t ts, w.tokens = t :: ts ∧ t.beginsOperand := w.spell_begins isSpelling_typed
  rw [htokens] at h hts ⊢
  obtain ⟨rest, htrim, hrest⟩ := trim_laidOut h hts
  have hlaidOut : LaidOut (t :: ts) ([] ++ t.typed ++ rest) := .token (by simp) t hrest
  rw [htrim]
  exact ⟨hlaidOut, by simp [typed_ne_nil (hts t List.mem_cons_self)]⟩

/-- The tokens of a writing are the tokens of its text. -/
theorem scan_trim {w : Writing} (hw : w.tree.IsReadable) {text : List Char} (h : LaidOut w.tokens text) :
    scan (trim text) = some (w.tokens ++ closingTokens) := by
  have hts := isTyped_of_mem_tokens hw
  have hchain := isChain_tokens w
  have hsum := sum_bracketStep_tokens w
  obtain ⟨t, ts, htokens, _⟩ : ∃ t ts, w.tokens = t :: ts ∧ t.beginsOperand := w.spell_begins isSpelling_typed
  rw [htokens] at h hts hchain hsum ⊢
  obtain ⟨rest, htrim, hrest⟩ := trim_laidOut h hts
  have hdepth : (0 : Int) + bracketStep t + (ts.map bracketStep).sum = 0 := by
    rw [List.map_cons, List.sum_cons] at hsum
    omega
  rw [htrim, scan, scanFrom_token (hts t List.mem_cons_self) (stopsAt_laidOut hts hchain hrest)
    (not_quote_of_mem_append hrest hts),
    scanFrom_laidOut hrest (fun u hu => hts u (List.mem_cons_of_mem t hu)) hchain.tail hdepth]
  rfl

/-! ### What a text is not -/

theorem splitAssignment?_eq_none {s : List Char} (h : '=' ∉ s) : splitAssignment? s = none := by
  unfold splitAssignment?
  split
  · rfl
  · rename_i c rest hdrop
    split
    · dsimp only
      split
      · rename_i right hright
        refine absurd ?_ h
        have hmem : '=' ∈ rest := by
          refine (List.dropWhile_suffix isAsciiWord).subset ((List.dropWhile_suffix isBlank).subset ?_)
          rw [hright]
          exact List.mem_cons_self
        apply (List.dropWhile_suffix isBlank).subset
        rw [hdrop]
        exact List.mem_cons_of_mem c hmem
      · rfl
    · rfl

theorem splitAssignment?_laidOut {w : Writing} (hw : w.tree.IsReadable) {text : List Char}
    (h : LaidOut w.tokens text) : splitAssignment? text = none := by
  apply splitAssignment?_eq_none
  intro hmem
  exact (not_quote_of_mem_laidOut h (isTyped_of_mem_tokens hw) hmem).2.2 rfl

/-- Within a word, nothing is taken for an exponent. -/
theorem literalExponents_within {word : List Char} (hword : ∀ c ∈ word, isWord c ∨ c = '.') (s : List Char) :
    literalExponents true 0 (word ++ s) = literalExponents true 0 s := by
  induction word with
  | nil => rfl
  | cons c rest ih =>
    have hc : (isWord c || decide (c = '.')) = true := by simpa using hword c List.mem_cons_self
    rw [List.cons_append, literalExponents, hc]
    simpa using ih fun d hd => hword d (List.mem_cons_of_mem c hd)

/-- Outside words and numerals, nothing is taken for an exponent. -/
theorem literalExponents_outside {word : List Char}
    (hword : ∀ c ∈ word, isWord c = false ∧ isDigit c = false ∧ c ≠ '.') (inside : Bool) (s : List Char) :
    ∃ after, literalExponents inside 0 (word ++ s) = literalExponents after 0 s := by
  induction word generalizing inside with
  | nil => exact ⟨inside, rfl⟩
  | cons c rest ih =>
    obtain ⟨hc, hdigit, hpoint⟩ := hword c List.mem_cons_self
    obtain ⟨after, hafter⟩ := ih (fun d hd => hword d (List.mem_cons_of_mem c hd)) false
    refine ⟨after, ?_⟩
    rw [List.cons_append, literalExponents]
    simpa [hc, hdigit, hpoint] using hafter

/-- In a text without the letter of an exponent there are no exponents. -/
theorem literalExponents_eq_nil {s : List Char} (h : ∀ c ∈ s, c ≠ 'e' ∧ c ≠ 'E') (inside : Bool) :
    literalExponents inside 0 s = [] := by
  induction s generalizing inside with
  | nil => rfl
  | cons c rest ih =>
    have hrest : ∀ d ∈ rest, d ≠ 'e' ∧ d ≠ 'E' := fun d hd => h d (List.mem_cons_of_mem c hd)
    have hnone : exponentDigits? (afterFraction (rest.dropWhile isDigit)) = none := by
      have htail : afterFraction (rest.dropWhile isDigit) ⊆ rest := by
        have hdigits : rest.dropWhile isDigit ⊆ rest := (List.dropWhile_suffix isDigit).subset
        cases hdrop : rest.dropWhile isDigit with
        | nil => exact List.nil_subset rest
        | cons d more =>
          rw [hdrop] at hdigits
          by_cases hpoint : d = '.'
          · subst hpoint
            exact fun e he => hdigits (List.mem_cons_of_mem _ ((List.dropWhile_suffix isDigit).subset he))
          · simpa [afterFraction, hpoint] using hdigits
      cases htailEq : afterFraction (rest.dropWhile isDigit) with
      | nil => rfl
      | cons d more =>
        have hd := hrest d (htail (by simp [htailEq]))
        rw [exponentDigits?, if_neg (by simp [hd])]
    simp [literalExponents, hnone, ih hrest]

section Exponents

variable {digits s : List Char}

theorem stopsAt_isDigit (hs : StopsAt continuesNumeral s) (hascii : ∀ c ∈ s, isAscii c) : StopsAt isDigit s := by
  intro c hc
  have hplain : continuesNumeral c = false := hs c hc
  rw [isDigit_of_isAscii (hascii c (List.mem_of_mem_head? hc))]
  simp only [continuesNumeral, isAsciiWord, Bool.or_eq_false_iff] at hplain
  exact hplain.1.1.2

/-- Behind digits and points stands no exponent if none begins behind them. -/
theorem stopsAt_exponent (hdigits : ∀ c ∈ digits, isAsciiDigit c ∨ c = '.') (hs : StopsAt continuesNumeral s)
    (hdigit : StopsAt isDigit s) :
    StopsAt (fun c => c = 'e' || c = 'E') ((digits ++ s).dropWhile isDigit) ∧
      StopsAt (fun c => c = 'e' || c = 'E') (afterFraction ((digits ++ s).dropWhile isDigit)) := by
  induction digits with
  | nil =>
    have hletter : StopsAt (fun c => c = 'e' || c = 'E') s := by
      intro c hc
      have hplain : continuesNumeral c = false := hs c hc
      have hne {d : Char} (hd : continuesNumeral d) : c ≠ d := by
        rintro rfl
        rw [hplain] at hd
        cases hd
      simp [hne (d := 'e') (by decide), hne (d := 'E') (by decide)]
    have hpoint : afterFraction s = s := by
      unfold afterFraction
      split
      · exact absurd (stopsAt_cons.mp hs) (by decide)
      · rfl
    rw [List.nil_append, dropWhile_of_stopsAt hdigit, hpoint]
    exact ⟨hletter, hletter⟩
  | cons c rest ih =>
    have hrest := ih fun d hd => hdigits d (List.mem_cons_of_mem c hd)
    rcases hdigits c List.mem_cons_self with hc | rfl
    · have hdigit : isDigit c = true := by
        rw [isDigit_of_isAscii (isAscii_of_isAsciiWord (isAsciiWord_of_isAsciiDigit hc))]
        exact hc
      rw [List.cons_append, List.dropWhile_cons_of_pos hdigit]
      exact hrest
    · rw [List.cons_append, List.dropWhile_cons_of_neg (by decide)]
      exact ⟨by simp, hrest.1⟩

theorem literalExponents_numeral (hdigits : ∀ c ∈ digits, isAsciiDigit c ∨ c = '.') (hs : StopsAt continuesNumeral s)
    (hdigit : StopsAt isDigit s) (inside : Bool) :
    ∃ after, literalExponents inside 0 (digits ++ s) = literalExponents after 0 s := by
  have hinside : ∀ c ∈ digits, isWord c ∨ c = '.' := fun c hc =>
    (hdigits c hc).imp_left fun h => isWord_of_isAsciiWord (isAsciiWord_of_isAsciiDigit h)
  cases digits with
  | nil => exact ⟨inside, rfl⟩
  | cons c rest =>
    refine ⟨true, ?_⟩
    have hc : (isWord c || decide (c = '.')) = true := by simpa using hinside c List.mem_cons_self
    have hrest := literalExponents_within (fun d hd => hinside d (List.mem_cons_of_mem c hd)) s
    have hnone : exponentDigits? (afterFraction ((rest ++ s).dropWhile isDigit)) = none := by
      have hstops := (stopsAt_exponent (fun d hd => hdigits d (List.mem_cons_of_mem c hd)) hs hdigit).2
      generalize afterFraction ((rest ++ s).dropWhile isDigit) = tail at hstops
      cases tail with
      | nil => rfl
      | cons d tail =>
        have hd : ¬ (d = 'e' ∨ d = 'E') := by simpa [not_or] using stopsAt_cons.mp hstops
        rw [exponentDigits?, if_neg hd]
    rw [List.cons_append, literalExponents, hc]
    simpa [hnone] using hrest

end Exponents

theorem literalExponents_token {t : Token} (ht : IsTyped t) {s : List Char} (hs : StopsAt t.goesOn s)
    (hascii : ∀ c ∈ s, isAscii c) (inside : Bool) :
    ∃ after, literalExponents inside 0 (t.typed ++ s) = literalExponents after 0 s := by
  cases ht with
  | numeral l h =>
    rw [Token.typed, String.toList_ofList]
    exact literalExponents_numeral (fun c hc => mem_literal_text hc) hs (stopsAt_isDigit hs hascii) inside
  | name word h =>
    obtain ⟨c, rest, hword, hc, hrest⟩ := h
    have hcWord : isAsciiWord c := isAsciiWord_of_isLetter hc
    have hdigit : isDigit c = false := by
      rw [isDigit_of_isAscii (isAscii_of_isAsciiWord hcWord)]
      exact isAsciiDigit_eq_false hc
    have hwithin := literalExponents_within (fun d hd => .inl (isWord_of_isAsciiWord (hrest d hd))) s
    refine ⟨true, ?_⟩
    rw [Token.typed, hword, List.cons_append, literalExponents]
    simpa [hdigit, isWord_of_isAsciiWord hcWord] using hwithin
  | operator text h =>
    have hall : ∀ text ∈ typedOperators, ∀ c ∈ text.toList, isWord c = false ∧ isDigit c = false ∧ c ≠ '.' := by
      decide
    exact literalExponents_outside (hall text h) inside s

theorem literalExponents_laidOut {ts : List Token} {s : List Char} (h : LaidOut ts s) (hts : ∀ t ∈ ts, IsTyped t)
    (hchain : ts.IsChain Token.Meets) (inside : Bool) : literalExponents inside 0 s = [] := by
  have hblank {blanks : List Char} (hblanks : ∀ c ∈ blanks, isSpace c) :
      ∀ c ∈ blanks, isWord c = false ∧ isDigit c = false ∧ c ≠ '.' := by
    intro c hc
    have hspace := hblanks c hc
    simp only [isSpace, Bool.or_eq_true, decide_eq_true_eq] at hspace
    rcases hspace with (rfl | rfl) | rfl <;> decide
  induction h generalizing inside with
  | blanks hblanks =>
    rename_i blanks
    obtain ⟨after, hafter⟩ := literalExponents_outside (hblank hblanks) inside []
    rw [List.append_nil] at hafter
    rw [hafter, literalExponents]
  | token hblanks t h ih =>
    rename_i blanks ts s
    have hts' : ∀ u ∈ ts, IsTyped u := fun u hu => hts u (List.mem_cons_of_mem t hu)
    have hascii : ∀ c ∈ s, isAscii c := fun c hc => isAscii_of_isPlain (isPlain_of_mem_laidOut h hts' hc)
    obtain ⟨within, hwithin⟩ := literalExponents_outside (hblank hblanks) inside (t.typed ++ s)
    obtain ⟨after, hafter⟩ :=
      literalExponents_token (hts t List.mem_cons_self) (stopsAt_laidOut hts hchain h) hascii within
    rw [List.append_assoc, hwithin, hafter]
    exact ih hts' hchain.tail after

/-- A writing has no exponents, so the limits decide alone how its literals are read. -/
theorem readsExactly_laidOut {w : Writing} (hw : w.tree.IsReadable) {text : List Char} (h : LaidOut w.tokens text)
    (settings : Settings) :
    readsExactly settings text =
      if settings.maxDecimalExponent < 0 then .error .literalTooLarge
      else .ok (decide (0 ≤ settings.maxExactDigits)) := by
  rw [readsExactly, literalExponents_laidOut h (isTyped_of_mem_tokens hw) (isChain_tokens w) false]
  simp

/-! ### Identifiers -/

theorem beginsIdentifier_of_isAscii {c : Char} (h : isAscii c) :
    beginsIdentifier c = (isWord c && !isAsciiDigit c) := by
  rw [beginsIdentifier, isDigit_of_isAscii h]

/-- An identifier of a text behind a token is the name that the token is, or an identifier of the text alone. -/
theorem mem_identifiers_token {t : Token} (ht : IsTyped t) {s : List Char} (hs : StopsAt t.goesOn s) {word : List Char}
    (hword : word ∈ identifiers (t.typed ++ s)) : t = .name (String.ofList word) ∨ word ∈ identifiers s := by
  cases ht with
  | numeral l h =>
    right
    rw [Token.typed, String.toList_ofList, identifiers_append_of_not_begins] at hword
    · exact hword
    · intro c hc
      rcases mem_literal_text hc with hdigit | rfl
      · simp [beginsIdentifier_of_isAscii (isAscii_of_isAsciiWord (isAsciiWord_of_isAsciiDigit hdigit)), hdigit]
      · decide
  | name name h =>
    obtain ⟨c, rest, hchars, hc, hrest⟩ := h
    have hcWord : isAsciiWord c := isAsciiWord_of_isLetter hc
    have hbegins : beginsIdentifier c := by
      simp [beginsIdentifier_of_isAscii (isAscii_of_isAsciiWord hcWord), isWord_of_isAsciiWord hcWord,
        isAsciiDigit_eq_false hc]
    rw [Token.typed, identifiers_append _ hs, hchars,
      identifiers_of_word hbegins fun d hd => isWord_of_isAsciiWord (hrest d hd), List.mem_append] at hword
    apply hword.imp_left
    intro hself
    obtain rfl : word = c :: rest := by simpa using hself
    rw [← hchars, String.ofList_toList]
  | operator text h =>
    have hall : ∀ text ∈ typedOperators, ∀ c ∈ text.toList, beginsIdentifier c = false := by decide
    right
    rwa [Token.typed, identifiers_append_of_not_begins (hall text h)] at hword

theorem identifiers_blanks {blanks : List Char} (hblanks : ∀ c ∈ blanks, isSpace c) (s : List Char) :
    identifiers (blanks ++ s) = identifiers s := by
  apply identifiers_append_of_not_begins
  intro c hc
  simp [beginsIdentifier, (plain_of_isSpace (hblanks c hc)).2.1]

theorem identifiers_laidOut {ts : List Token} {s : List Char} (h : LaidOut ts s) (hts : ∀ t ∈ ts, IsTyped t)
    (hchain : ts.IsChain Token.Meets) {word : List Char} (hword : word ∈ identifiers s) :
    Token.name (String.ofList word) ∈ ts := by
  induction h with
  | blanks hblanks =>
    rename_i blanks
    rw [← List.append_nil blanks, identifiers_blanks hblanks] at hword
    simp [identifiers, pieces] at hword
  | token hblanks t h ih =>
    have ht : IsTyped t := hts t List.mem_cons_self
    rw [List.append_assoc, identifiers_blanks hblanks] at hword
    rcases mem_identifiers_token ht (stopsAt_laidOut hts hchain h) hword with rfl | hword
    · exact List.mem_cons_self
    · exact List.mem_cons_of_mem t (ih (fun u hu => hts u (List.mem_cons_of_mem t hu)) hchain.tail hword)

theorem operationWord?_trim {w : Writing} (hw : w.tree.IsReadable) {text : List Char} (h : LaidOut w.tokens text) :
    operationWord? (trim text) = none := by
  rw [operationWord?, List.filter_eq_nil_iff.mpr]
  · rfl
  intro operation hoperation hcontains
  have hmem : operation.toList ∈ identifiers (trim text) := by simpa using hcontains
  have hname := identifiers_laidOut (laidOut_trim hw h).1 (isTyped_of_mem_tokens hw) (isChain_tokens w) hmem
  rw [String.ofList_toList] at hname
  exact (hw.names operation (Writing.mem_names_of_mem_tokens hname)).2.2 hoperation

end Reckoner.Expression
