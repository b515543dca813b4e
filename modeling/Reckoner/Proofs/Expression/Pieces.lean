import Reckoner.Proofs.Expression.Exponents

/-!
# The pieces of a text

The scanner cuts a text into its tokens and the characters between them.  The numerals among these pieces are the
numerals among the tokens, and the guard of literals finds the exponents of all of them if each that has one is plain
and stands in no word.
-/

namespace Reckoner.Expression

open Reckoner.Text

/-! ### Pieces -/

/-- The pieces into which the scanner cuts a text: the characters of each token, and single characters between them. -/
def cut : List Char → List (List Char × Option Token)
  | [] => []
  | c :: rest =>
    match lexemeAt (c :: rest) with
    | .token t n => (c :: rest.take (n - 1), some t) :: cut (rest.drop (n - 1))
    | _ => ([c], none) :: cut rest
termination_by s => s.length
decreasing_by
  all_goals
    simp only [List.length_cons, List.length_drop]
    omega

def Token.numeral? : Token → Option String
  | .numeral text => some text
  | _ => none

theorem Token.eq_of_numeral? {t : Token} {text : String} (h : t.numeral? = some text) : t = .numeral text := by
  cases t with
  | numeral other =>
    obtain rfl := Option.some.inj h
    rfl
  | _ => cases h

/-- A text without quotations and comments. -/
def IsUnquoted (s : List Char) : Prop := ∀ c ∈ s, c ≠ '\'' ∧ c ≠ '"' ∧ c ≠ '#'

section Lexemes

variable {c : Char} {rest : List Char}

theorem IsUnquoted.of_subset {s t : List Char} (h : IsUnquoted t) (hst : s ⊆ t) : IsUnquoted s :=
  fun d hd => h d (hst hd)

/-- What the scanner takes for a token in a text without quotations and comments. -/
theorem lexemeAt_of_unquoted (h : IsUnquoted (c :: rest)) {t : Token} {n : Nat}
    (htoken : lexemeAt (c :: rest) = .token t n) :
    (∃ visible, t = .lineEnd visible ∧ (c = '\n' ∧ n = 1 ∨ c = '\r' ∧ rest.head? = some '\n' ∧ n = 2)) ∨
    (numeralLength (c :: rest) ≠ 0 ∧ n = numeralLength (c :: rest) ∧
      t = .numeral (String.ofList ((c :: rest).take n))) ∨
    (numeralLength (c :: rest) = 0 ∧ ∃ op ∈ operators, op <+: c :: rest ∧ n = op.length ∧
      t = .operator (String.ofList op)) ∨
    (numeralLength (c :: rest) = 0 ∧ isWord c ∧ n = ((c :: rest).takeWhile isWord).length ∧ t.numeral? = none ∧
      ∀ visible, t ≠ .lineEnd visible) := by
  have hquotation : quotationStart? (c :: rest) = none := quotationStart?_eq_none fun d hd => ⟨(h d hd).1, (h d hd).2.1⟩
  unfold lexemeAt at htoken
  split at htoken
  · cases htoken
  · rename_i more heq
    exact absurd (List.cons.inj heq).1 (h c List.mem_cons_self).2.2
  · rename_i more heq
    obtain ⟨rfl, rfl⟩ := Lexed.token.inj htoken
    exact .inl ⟨true, rfl, .inl ⟨(List.cons.inj heq).1, rfl⟩⟩
  · rename_i more heq
    obtain ⟨rfl, rfl⟩ := Lexed.token.inj htoken
    obtain ⟨rfl, rfl⟩ := List.cons.inj heq
    exact .inl ⟨true, rfl, .inr ⟨rfl, rfl, rfl⟩⟩
  · simp only [hquotation] at htoken
    split at htoken
    · rename_i hnumeral
      obtain ⟨rfl, rfl⟩ := Lexed.token.inj htoken
      exact .inr (.inl ⟨hnumeral, rfl, rfl⟩)
    · rename_i hnumeral
      have hnumeral : numeralLength (c :: rest) = 0 := by simpa using hnumeral
      cases hoperator : operatorAt? (c :: rest) with
      | some op =>
        rw [hoperator] at htoken
        obtain ⟨rfl, rfl⟩ := Lexed.token.inj htoken
        have hmem : op ∈ operators := List.mem_of_find?_eq_some hoperator
        have hprefix := List.find?_some hoperator
        exact .inr (.inr (.inl ⟨hnumeral, op, hmem, List.isPrefixOf_iff_prefix.mp hprefix, rfl, rfl⟩))
      | none =>
        rw [hoperator] at htoken
        simp only [quotationOrWordAt, hquotation, wordAt] at htoken
        cases hc : isWord c with
        | false => simp [hc] at htoken
        | true =>
          simp only [List.takeWhile_cons_of_pos hc] at htoken ⊢
          obtain ⟨rfl, rfl⟩ := Lexed.token.inj htoken
          refine .inr (.inr (.inr ⟨hnumeral, trivial, rfl, ?_, ?_⟩))
          · split <;> rfl
          · intro visible
            split <;> simp

/-- A text that begins with a digit begins with a numeral. -/
theorem numeralLength_of_digit (hc : isAsciiDigit c) (rest : List Char) : numeralLength (c :: rest) ≠ 0 := by
  have hrun {p : Char → Bool} (hp : p c) : digitRun p (c :: rest) ≠ 0 := by simp [digitRun, hp]
  have hwhole : wholeLength (c :: rest) ≠ 0 := by
    unfold wholeLength
    dsimp only
    split
    iterate 6
      split
      · rename_i heq _
        obtain ⟨rfl, rfl⟩ := List.cons.inj heq
        exact hrun (by decide)
      · omega
    · rename_i heq
      obtain ⟨rfl, rfl⟩ := List.cons.inj heq
      exact hrun (by decide)
    · exact hrun hc
  unfold numeralLength
  dsimp only
  split
  · assumption
  · split
    · assumption
    · split
      · assumption
      · exact hwhole

end Lexemes

/-! ### Pieces and tokens -/

/-- No token begins with a blank or a backslash. -/
theorem lexemeAt_of_gap {c : Char} (hc : c ∈ [' ', '\t', '\x0c', '\\']) (rest : List Char) :
    lexemeAt (c :: rest) = .nothing := by
  have hgap : ∀ c ∈ [' ', '\t', '\x0c', '\\'], isWord c = false ∧ isAsciiDigit c = false ∧ c ≠ '.' ∧
      c.toLower ∉ ['b', 'r', 'u', 'f'] ∧ (c ≠ '\'' ∧ c ≠ '"') ∧ c ∉ ['#', '\n', '\r'] := by
    decide
  have hfirst : ∀ op ∈ operators, ∀ d ∈ op.head?, d ∉ [' ', '\t', '\x0c', '\\'] := by decide +kernel
  have hsome : ∀ op ∈ operators, op ≠ [] := by decide +kernel
  obtain ⟨hword, hdigit, hpoint, hmark, hquote, hspecial⟩ := hgap c hc
  have hoperator : operatorAt? (c :: rest) = none := by
    refine List.find?_eq_none.mpr fun op hop hprefix => ?_
    cases op with
    | nil => exact hsome [] hop rfl
    | cons d more =>
      obtain ⟨rfl, -⟩ : d = c ∧ _ := by simpa [List.isPrefixOf] using hprefix
      exact hfirst _ hop d rfl hc
  have hquotation := quotationStart?_of_first hmark hquote rest
  have hnumeral := numeralLength_eq_zero hdigit hpoint rest
  have hne {d : Char} {more : List Char} (hd : d ∈ ['#', '\n', '\r']) : c :: rest ≠ d :: more := by
    intro heq
    obtain ⟨rfl, -⟩ := List.cons.inj heq
    exact hspecial hd
  rw [lexemeAt]
  · simp [hnumeral, hquotation, hoperator, quotationOrWordAt, wordAt, hword]
  · intro heq
    cases heq
  · intro more
    exact hne (by decide)
  · intro more
    exact hne (by decide)
  · intro more
    exact hne (by decide)

theorem lexemeAt_newline (rest : List Char) : lexemeAt ('\n' :: rest) = .token (.lineEnd true) 1 := rfl

theorem cut_nothing {c : Char} {rest : List Char} (h : lexemeAt (c :: rest) = .nothing) :
    cut (c :: rest) = ([c], none) :: cut rest := by
  rw [cut]
  simp only [h]

theorem cut_token {c : Char} {rest : List Char} {t : Token} {n : Nat} (h : lexemeAt (c :: rest) = .token t n) :
    cut (c :: rest) = (c :: rest.take (n - 1), some t) :: cut (rest.drop (n - 1)) := by
  rw [cut]
  simp only [h]

/-- The numerals among the tokens of a text are the numerals among its pieces. -/
theorem numerals_of_scanFrom {depth : Int} {fresh : Bool} {s : List Char} {tokens : List Token} (hs : IsUnquoted s)
    (h : scanFrom depth fresh s = some tokens) :
    tokens.filterMap Token.numeral? = (cut s).filterMap fun piece => piece.2.bind Token.numeral? := by
  have hrest {c : Char} {rest : List Char} (hs : IsUnquoted (c :: rest)) : IsUnquoted rest :=
    hs.of_subset (List.subset_cons_self c rest)
  have hspace {c : Char} (hc : isSpace c) : c ∈ [' ', '\t', '\x0c', '\\'] := by
    simp only [isSpace, Bool.or_eq_true, decide_eq_true_eq] at hc
    rcases hc with (rfl | rfl) | rfl <;> simp
  -- Whatever token is found first, the others are those of the rest.
  have hfound {first : List Token} {after : List Char} {depth : Int} {fresh : Bool} {tokens : List Token}
      (hcut : first.filterMap Token.numeral? = [])
      (hscan : (scanFrom depth fresh after).map (first ++ ·) = some tokens)
      (ih : ∀ {tokens}, scanFrom depth fresh after = some tokens →
        tokens.filterMap Token.numeral? = (cut after).filterMap fun piece => piece.2.bind Token.numeral?) :
      tokens.filterMap Token.numeral? = (cut after).filterMap fun piece => piece.2.bind Token.numeral? := by
    obtain ⟨others, hothers, rfl⟩ := Option.map_eq_some_iff.mp hscan
    rw [List.filterMap_append, hcut, List.nil_append, ih hothers]
  fun_induction scanFrom depth fresh s generalizing tokens with
  | case1 fresh =>
    obtain rfl := Option.some.inj h
    cases fresh <;> simp [cut, Token.numeral?]
  | case2 => cases h
  | case3 => cases h
  | case4 depth fresh rest _ ih =>
    rw [cut_nothing (lexemeAt_of_gap (by simp) _), cut_token (lexemeAt_newline rest), List.filterMap_cons_none rfl,
      List.filterMap_cons_none rfl]
    exact ih (hrest (hrest hs)) h
  | case5 depth fresh c rest _ hcomment =>
    simp only [Bool.and_eq_true, decide_eq_true_eq] at hcomment
    exact absurd hcomment.2 (hs c List.mem_cons_self).2.2
  | case6 depth fresh c rest _ hcomment =>
    simp only [Bool.and_eq_true, decide_eq_true_eq] at hcomment
    exact absurd hcomment.2 (hs c List.mem_cons_self).2.2
  | case7 depth fresh c rest _ _ hnewline ih =>
    obtain rfl : c = '\n' := by simpa using (Bool.and_eq_true_iff.mp hnewline).2
    have hothers := @hfound [.lineBreak] _ _ _ _ rfl h fun htokens => ih (hrest hs) htokens
    rw [cut_token (lexemeAt_newline rest), List.filterMap_cons_none rfl]
    exact hothers
  | case8 depth fresh c rest _ _ _ hc _ _ ih =>
    rw [cut_nothing (lexemeAt_of_gap (hspace hc) rest)]
    simpa using ih (hrest hs) h
  | case9 depth fresh c rest _ _ _ hc _ _ ih =>
    have hothers := @hfound [.stray (String.ofList [c])] _ _ _ _ rfl h fun htokens => ih (hrest hs) htokens
    rw [cut_nothing (lexemeAt_of_gap (hspace hc) rest)]
    simpa using hothers
  | case10 depth fresh c rest _ _ _ hc _ _ ih =>
    have hothers := @hfound [.indentation] _ _ _ _ rfl h fun htokens => ih (hrest hs) htokens
    rw [cut_nothing (lexemeAt_of_gap (hspace hc) rest)]
    simpa using hothers
  | case11 depth fresh c rest _ _ _ hc _ _ ih =>
    rw [cut_nothing (lexemeAt_of_gap (hspace hc) rest)]
    simpa using ih (hrest hs) h
  | case12 => cases h
  | case13 depth fresh c rest _ _ _ _ hnothing ih =>
    have hothers := @hfound [.stray (String.ofList [c])] _ _ _ _ rfl h fun htokens => ih (hrest hs) htokens
    rw [cut_nothing hnothing]
    simpa using hothers
  | case14 depth fresh c rest _ _ _ _ n after _ visible htoken =>
    rename_i ih
    have hothers := @hfound [.lineBreak] _ _ _ _ rfl h
      fun htokens => ih ((hrest hs).of_subset (List.drop_subset _ _)) htokens
    rw [cut_token htoken, List.filterMap_cons_none rfl]
    exact hothers
  | case15 depth fresh c rest _ _ _ _ n after _ visible htoken =>
    rename_i ih
    have hothers := @hfound [.lineEnd true] _ _ _ _ rfl h
      fun htokens => ih ((hrest hs).of_subset (List.drop_subset _ _)) htokens
    rw [cut_token htoken, List.filterMap_cons_none rfl]
    exact hothers
  | case16 depth fresh c rest _ _ _ _ t n htoken =>
    rename_i ih
    obtain ⟨others, hothers, rfl⟩ := Option.map_eq_some_iff.mp h
    rw [cut_token htoken, List.filterMap_cons, List.filterMap_cons,
      ih ((hrest hs).of_subset (List.drop_subset _ _)) hothers]
    rfl

/-! ### What the guard finds -/

theorem insideAfter_append (inside : Bool) (s t : List Char) :
    insideAfter inside (s ++ t) = insideAfter (insideAfter inside s) t := by
  unfold insideAfter
  rw [List.getLast?_append]
  cases t.getLast? <;> rfl

theorem insideAfter_of_last {s : List Char} {c : Char} (h : s.getLast? = some c) (hc : isWord c ∨ c = '.')
    (inside : Bool) : insideAfter inside s = true := by
  simpa [insideAfter, h] using hc

/-- A numeral ends in a character of a word or in a point. -/
theorem insideAfter_numeral {numeral after : List Char} (h : IsRead numeral after) (hne : numeral ≠ [])
    (inside : Bool) : insideAfter inside numeral = true := by
  obtain ⟨last, hlast⟩ : ∃ last, numeral.getLast? = some last := ⟨_, List.getLast?_eq_some_getLast hne⟩
  refine insideAfter_of_last hlast ?_ inside
  cases h with
  | plain hall hsuffix =>
    rcases List.mem_append.mp (List.mem_of_getLast? hlast) with hmem | hmem
    · exact isWord_of_isMantissa (hall last hmem)
    · exact .inl (isWord_of_isAsciiWord (hsuffix last hmem))
  | exponent hwhole hfraction hletter hsign hdigits hrun hsuffix =>
    rename_i whole fraction sign digits suffix letter
    have hend : (whole ++ fraction ++ letter :: (sign ++ digits ++ suffix)).getLast? = (digits ++ suffix).getLast? := by
      have hsplit : whole ++ fraction ++ letter :: (sign ++ digits ++ suffix) =
          (whole ++ fraction ++ letter :: sign) ++ (digits ++ suffix) := by
        simp
      rw [hsplit, List.getLast?_append_of_ne_nil _ (by simp [hdigits])]
    rw [hend] at hlast
    rcases List.mem_append.mp (List.mem_of_getLast? hlast) with hmem | hmem
    · exact isWord_of_isMantissa (isMantissa_of_isDigitOrUnderscore ((digits_of_run hdigits hrun).2.1 last hmem))
    · exact .inl (isWord_of_isAsciiWord (isAsciiWord_of_suffix hsuffix last hmem))

/-- The exponent of a piece that is a numeral. -/
def pieceField? (piece : List Char × Option Token) : Option (List Char) :=
  piece.2.bind fun t => t.numeral?.bind fun _ => exponentField? piece.1

/-- In a word, the guard finds nothing. -/
theorem literalExponents_word {c : Char} (hdigit : isDigit c = false) (hword : isWord c) (rest : List Char)
    (inside : Bool) :
    literalExponents inside 0 (c :: rest) = literalExponents true 0 (rest.dropWhile isWord) := by
  have hrest : ∀ d ∈ rest.takeWhile isWord, isWord d ∨ d = '.' := fun d hd => .inl (List.mem_takeWhile_imp hd)
  have hwithin := literalExponents_within hrest (rest.dropWhile isWord)
  rw [List.takeWhile_append_dropWhile] at hwithin
  rw [← hwithin, literalExponents, hdigit, Bool.and_false, if_neg Bool.false_ne_true, hword, Bool.true_or]

/-- What the guard finds in a token that is no numeral. -/
theorem literalExponents_lexeme {c : Char} {rest : List Char} (hs : IsUnquoted (c :: rest))
    (hascii : HasAsciiDigits (c :: rest)) {t : Token} {n : Nat} (htoken : lexemeAt (c :: rest) = .token t n)
    (ht : t.numeral? = none) (inside : Bool) : literalExponents inside 0 (c :: rest) =
      literalExponents (insideAfter inside (c :: rest.take (n - 1))) 0 (rest.drop (n - 1)) := by
  have hdigits {word after : List Char} (hword : ∀ d ∈ word, isDigit d = false)
      (hsplit : c :: rest = word ++ after) (hlength : word.length = n) (hpos : 0 < n) :
      literalExponents inside 0 (c :: rest) =
        literalExponents (insideAfter inside (c :: rest.take (n - 1))) 0 (rest.drop (n - 1)) := by
    obtain ⟨m, rfl⟩ : ∃ m, n = m + 1 := ⟨n - 1, by omega⟩
    have htake : c :: rest.take m = word := by
      rw [← List.take_succ_cons, hsplit, ← hlength, List.take_left]
    have hdrop : rest.drop m = after := by
      rw [← List.drop_succ_cons (a := c), hsplit, ← hlength, List.drop_left]
    rw [Nat.add_sub_cancel, htake, hdrop, hsplit, literalExponents_of_not_digits hword]
  rcases lexemeAt_of_unquoted hs htoken with ⟨visible, rfl, hline⟩ | ⟨_, _, rfl⟩ | ⟨_, op, hop, ⟨after, hsplit⟩, hn, _⟩ |
    ⟨hnumeral, hword, hn, _, _⟩
  · rcases hline with ⟨rfl, rfl⟩ | ⟨rfl, hhead, rfl⟩
    · exact @hdigits ['\n'] rest (by decide) rfl rfl (by decide)
    · obtain ⟨more, rfl⟩ : ∃ more, rest = '\n' :: more := by
        cases rest with
        | nil => cases hhead
        | cons d more =>
          obtain rfl : d = '\n' := by simpa using hhead
          exact ⟨more, rfl⟩
      exact @hdigits ['\r', '\n'] more (by decide) rfl rfl (by decide)
  · cases ht
  · have hall : ∀ op ∈ operators, 0 < op.length ∧ ∀ d ∈ op, isDigit d = false := by decide +kernel
    subst hn
    exact hdigits (hall op hop).2 hsplit.symm rfl (hall op hop).1
  · have hdigit : isDigit c = false := by
      rw [← Bool.not_eq_true]
      exact fun hdigit => numeralLength_of_digit (hascii c List.mem_cons_self hdigit) rest hnumeral
    rw [List.takeWhile_cons_of_pos hword, List.length_cons] at hn
    have hsplit : rest.takeWhile isWord ++ rest.dropWhile isWord = rest := List.takeWhile_append_dropWhile
    have htake : rest.take (n - 1) = rest.takeWhile isWord := by
      conv_lhs => rw [← hsplit, hn, Nat.add_sub_cancel, List.take_left]
    have hdrop : rest.drop (n - 1) = rest.dropWhile isWord := by
      conv_lhs => rw [← hsplit, hn, Nat.add_sub_cancel, List.drop_left]
    have hlast : insideAfter inside (c :: rest.takeWhile isWord) = true := by
      refine insideAfter_of_last (List.getLast?_eq_some_getLast (List.cons_ne_nil _ _)) ?_ inside
      rcases List.mem_cons.mp (List.getLast_mem (List.cons_ne_nil c (rest.takeWhile isWord))) with heq | hmem
      · rw [heq]
        exact .inl hword
      · exact .inl (List.mem_takeWhile_imp hmem)
    rw [htake, hdrop, hlast, literalExponents_word hdigit hword]

/-- A token that is a numeral is what the scanner takes for one. -/
theorem length_of_numeral {c : Char} {rest : List Char} (hs : IsUnquoted (c :: rest)) {t : Token} {n : Nat}
    (htoken : lexemeAt (c :: rest) = .token t n) {word : String} (ht : t.numeral? = some word) :
    numeralLength (c :: rest) ≠ 0 ∧ n = numeralLength (c :: rest) := by
  rcases lexemeAt_of_unquoted hs htoken with ⟨_, rfl, _⟩ | ⟨hlength, hn, _⟩ | ⟨_, _, _, _, _, rfl⟩ | ⟨_, _, _, hnone, _⟩
  · cases ht
  · exact ⟨hlength, hn⟩
  · cases ht
  · rw [hnone] at ht
    cases ht

/-- In a numeral, the guard finds its exponent, if a numeral with one is plain and stands in no word. -/
theorem literalExponents_of_numeral {c : Char} {rest numeral after : List Char} (hascii : HasAsciiDigits (c :: rest))
    (hlength : numeralLength (c :: rest) ≠ 0) (hnumeral : (c :: rest).take (numeralLength (c :: rest)) = numeral)
    (hafter : (c :: rest).drop (numeralLength (c :: rest)) = after) (inside : Bool)
    (hplain : exponentField? numeral ≠ none → IsPlainNumeral numeral ∧ inside = false) :
    literalExponents inside 0 (c :: rest) = (exponentField? numeral).toList ++ literalExponents true 0 after := by
  cases hfield : exponentField? numeral with
  | none =>
    rw [literalExponents_of_plain hascii hlength (hnumeral ▸ hfield), hafter]
    rfl
  | some field =>
    obtain ⟨hplainNumeral, rfl⟩ := hplain (by simp [hfield])
    have hread := isRead_numeral (c :: rest)
    have hsplit := List.take_append_drop (numeralLength (c :: rest)) (c :: rest)
    rw [hnumeral, hafter] at hread hsplit
    rw [← hsplit] at hascii ⊢
    exact literalExponents_of_exponent hread hascii hplainNumeral hfield

/-- The guard finds exactly the exponents of the literals, if each of them that has one is plain and stands in no
    word. -/
theorem literalExponents_cut {s : List Char} (hs : IsUnquoted s) (hascii : HasAsciiDigits s) (inside : Bool)
    (hplain : ∀ before numeral word after, cut s = before ++ (numeral, some (.numeral word)) :: after →
      exponentField? numeral ≠ none →
      IsPlainNumeral numeral ∧ insideAfter inside (before.flatMap Prod.fst) = false) :
    literalExponents inside 0 s = (cut s).filterMap pieceField? := by
  fun_induction cut s generalizing inside with
  | case1 => rfl
  | case2 c rest t n htoken ih =>
    have hsub {d : Char} (hd : d ∈ rest.drop (n - 1)) : d ∈ c :: rest := List.mem_cons_of_mem c (List.mem_of_mem_drop hd)
    have hothers := ih (fun d hd => hs d (hsub hd)) (fun d hd => hascii d (hsub hd))
      (insideAfter inside (c :: rest.take (n - 1))) fun before numeral word after heq hfield => by
        have hmore := hplain ((c :: rest.take (n - 1), some t) :: before) numeral word after (by rw [heq]; rfl) hfield
        rwa [List.flatMap_cons, insideAfter_append] at hmore
    cases hnumeral : t.numeral? with
    | none =>
      have hfield : pieceField? (c :: rest.take (n - 1), some t) = none := by simp [pieceField?, hnumeral]
      rw [literalExponents_lexeme hs hascii htoken hnumeral, hothers, List.filterMap_cons_none hfield]
    | some word =>
      obtain ⟨hlength, hn⟩ := length_of_numeral hs htoken hnumeral
      have htake : (c :: rest).take (numeralLength (c :: rest)) = c :: rest.take (n - 1) := by
        rw [← hn, ← List.take_succ_cons, Nat.sub_add_cancel (by omega)]
      have hdrop : (c :: rest).drop (numeralLength (c :: rest)) = rest.drop (n - 1) := by
        rw [← hn, ← List.drop_succ_cons (a := c) (i := n - 1), Nat.sub_add_cancel (by omega)]
      have hlast : insideAfter inside (c :: rest.take (n - 1)) = true := by
        rw [← htake]
        exact insideAfter_numeral (isRead_numeral (c :: rest)) (by rw [htake]; exact List.cons_ne_nil _ _) inside
      have hpiece : pieceField? (c :: rest.take (n - 1), some t) = exponentField? (c :: rest.take (n - 1)) := by
        simp only [pieceField?, Option.bind_some, hnumeral]
      have hfound := literalExponents_of_numeral hascii hlength htake hdrop inside fun hfield =>
        hplain [] (c :: rest.take (n - 1)) word (cut (rest.drop (n - 1)))
          (by rw [Token.eq_of_numeral? hnumeral]; rfl) hfield
      rw [hlast] at hothers
      rw [hfound, hothers, List.filterMap_cons, hpiece]
      cases exponentField? (c :: rest.take (n - 1)) <;> rfl
  | case3 c rest hnone ih =>
    have hdigit : isDigit c = false := by
      rw [← Bool.not_eq_true]
      intro hdigit
      have hasciiDigit := hascii c List.mem_cons_self hdigit
      have hquotation : quotationStart? (c :: rest) = none :=
        quotationStart?_eq_none fun d hd => ⟨(hs d hd).1, (hs d hd).2.1⟩
      have hlexeme := lexemeAt_of_isInk (isInk_of_isAsciiWord (isAsciiWord_of_isAsciiDigit hasciiDigit)) hquotation
      rw [if_pos (numeralLength_of_digit hasciiDigit rest)] at hlexeme
      exact hnone _ _ hlexeme
    have hothers := ih (fun d hd => hs d (List.mem_cons_of_mem c hd)) (fun d hd => hascii d (List.mem_cons_of_mem c hd))
      (insideAfter inside [c]) fun before numeral word after heq hfield => by
        have hmore := hplain (([c], none) :: before) numeral word after (by rw [heq]; rfl) hfield
        rwa [List.flatMap_cons, insideAfter_append] at hmore
    have hword : ∀ d ∈ [c], isDigit d = false := by simpa using hdigit
    have hstep := literalExponents_of_not_digits hword inside rest
    rw [List.filterMap_cons_none rfl, ← hothers]
    exact hstep

end Reckoner.Expression
