import Mathlib.Tactic.IntervalCases
import Reckoner.Proofs.Expression.Calls
import Reckoner.Proofs.Expression.Grouping

/-!
# Operands in brackets

Where an operand stands in front of an operator, brackets around it change nothing about what is read, unless the
operator is the sign of a power and the operand has a sign in front.  The tokens behind the operand are read in the same
way, whatever they are, because the number of nested calls that are left does not matter.
-/

namespace Reckoner.Expression

open Reckoner.Text

/-! ### Readers on two token lists -/

section Alike

variable {s t : List Token} {reader : Nat → List Token → Reading} {extra : Nat}

/-- With enough nested calls for its tokens, a reader takes the same from two token lists. -/
def Alike (reader : Nat → List Token → Reading) (extra : Nat) (s t : List Token) : Prop :=
  ∀ n m, 24 * s.length + extra ≤ n → 24 * t.length + extra ≤ m → reader n s = reader m t

/-- What is left of either list is shorter than both. -/
theorem Alike.length_lt (h : Alike reader extra s t) (hreader : ∀ {n s}, ∀ r ∈ reader n s, r.2.length < s.length)
    {n m : Nat} (hn : 24 * s.length + extra ≤ n) (hm : 24 * t.length + extra ≤ m) :
    ∀ r ∈ reader m t, r.2.length < min s.length t.length := by
  intro r hr
  have hs : r ∈ reader n s := by rwa [h n m hn hm]
  exact Nat.lt_min.mpr ⟨hreader r hs, hreader r hr⟩

theorem Alike.power (h : Alike readPrimary 2 s t) : Alike readPower 3 s t := by
  intro n m hn hm
  obtain ⟨n, rfl⟩ : ∃ k, n = k + 1 := ⟨n - 1, by omega⟩
  obtain ⟨m, rfl⟩ : ∃ k, m = k + 1 := ⟨m - 1, by omega⟩
  have hrest := h.length_lt (readersConsume _).primary (n := n) (m := m) (by omega) (by omega)
  rw [readPower, readPower, h n m (by omega) (by omega)]
  refine bind_congr_of_mem hrest ?_
  rintro ⟨base, rest⟩ hlength
  dsimp only at hlength ⊢
  split
  · rename_i rest
    rw [List.length_cons] at hlength
    rw [(readersAgree n m).signed (by omega)]
  · rfl

theorem Alike.signed (h : Alike readPower 3 s t) (hs : unaryOperator? s = none) (ht : unaryOperator? t = none) :
    Alike readSigned 4 s t := by
  intro n m hn hm
  obtain ⟨n, rfl⟩ : ∃ k, n = k + 1 := ⟨n - 1, by omega⟩
  obtain ⟨m, rfl⟩ : ∃ k, m = k + 1 := ⟨m - 1, by omega⟩
  rw [readSigned, readSigned, hs, ht]
  exact h n m (by omega) (by omega)

theorem Alike.tightest (h : Alike readSigned 4 s t) : Alike (readBinary · 5) 5 s t := by
  intro n m hn hm
  obtain ⟨n, rfl⟩ : ∃ k, n = k + 1 := ⟨n - 1, by omega⟩
  obtain ⟨m, rfl⟩ : ∃ k, m = k + 1 := ⟨m - 1, by omega⟩
  change readBinary (n + 1) 5 s = readBinary (m + 1) 5 t
  rw [readBinary, readBinary, if_pos rfl, if_pos rfl]
  exact h n m (by omega) (by omega)

theorem Alike.binary {level : Nat} (hlevel : level < 5) (h : Alike (readBinary · (level + 1)) (9 - level) s t) :
    Alike (readBinary · level) (10 - level) s t := by
  intro n m hn hm
  obtain ⟨n, rfl⟩ : ∃ k, n = k + 1 := ⟨n - 1, by omega⟩
  obtain ⟨m, rfl⟩ : ∃ k, m = k + 1 := ⟨m - 1, by omega⟩
  have hrest := h.length_lt (readersConsume _).binary (n := n) (m := m) (by omega) (by omega)
  have hfirst : readBinary n (level + 1) s = readBinary m (level + 1) t := h n m (by omega) (by omega)
  change readBinary (n + 1) level s = readBinary (m + 1) level t
  rw [readBinary, readBinary, if_neg (by omega), if_neg (by omega), hfirst]
  refine bind_congr_of_mem hrest ?_
  rintro ⟨first, rest⟩ hlength
  dsimp only at hlength ⊢
  exact (readersAgree n m).binaryRest hlevel (by omega)

theorem Alike.comparison (h : Alike (readBinary · 0) 10 s t) : Alike readComparison 11 s t := by
  intro n m hn hm
  obtain ⟨n, rfl⟩ : ∃ k, n = k + 1 := ⟨n - 1, by omega⟩
  obtain ⟨m, rfl⟩ : ∃ k, m = k + 1 := ⟨m - 1, by omega⟩
  have hrest := h.length_lt (readersConsume _).binary (n := n) (m := m) (by omega) (by omega)
  have hfirst : readBinary n 0 s = readBinary m 0 t := h n m (by omega) (by omega)
  rw [readComparison, readComparison, hfirst]
  refine bind_congr_of_mem hrest ?_
  rintro ⟨first, rest⟩ hlength
  dsimp only at hlength ⊢
  rw [(readersAgree n m).comparands (by omega)]

theorem Alike.negation (h : Alike readComparison 11 s t) (hs : ∀ more, s ≠ .name "not" :: more)
    (ht : ∀ more, t ≠ .name "not" :: more) : Alike readNegation 12 s t := by
  intro n m hn hm
  obtain ⟨n, rfl⟩ : ∃ k, n = k + 1 := ⟨n - 1, by omega⟩
  obtain ⟨m, rfl⟩ : ∃ k, m = k + 1 := ⟨m - 1, by omega⟩
  rw [readNegation, readNegation]
  · exact h n m (by omega) (by omega)
  · exact ht
  · exact hs

theorem Alike.conjunction (h : Alike readNegation 12 s t) : Alike (readJunction · true) 13 s t := by
  intro n m hn hm
  obtain ⟨n, rfl⟩ : ∃ k, n = k + 1 := ⟨n - 1, by omega⟩
  obtain ⟨m, rfl⟩ : ∃ k, m = k + 1 := ⟨m - 1, by omega⟩
  have hrest := h.length_lt (readersConsume _).negation (n := n) (m := m) (by omega) (by omega)
  change readJunction (n + 1) true s = readJunction (m + 1) true t
  rw [readJunction, readJunction, if_pos rfl, if_pos rfl, h n m (by omega) (by omega)]
  refine bind_congr_of_mem hrest ?_
  rintro ⟨first, rest⟩ hlength
  dsimp only at hlength ⊢
  rw [(readersAgree n m).operands (by omega)]

theorem Alike.disjunction (h : Alike (readJunction · true) 13 s t) : Alike (readJunction · false) 14 s t := by
  intro n m hn hm
  obtain ⟨n, rfl⟩ : ∃ k, n = k + 1 := ⟨n - 1, by omega⟩
  obtain ⟨m, rfl⟩ : ∃ k, m = k + 1 := ⟨m - 1, by omega⟩
  have hrest := h.length_lt (readersConsume _).junction (n := n) (m := m) (by omega) (by omega)
  have hfirst : readJunction n true s = readJunction m true t := h n m (by omega) (by omega)
  change readJunction (n + 1) false s = readJunction (m + 1) false t
  rw [readJunction, readJunction, if_neg (by decide), if_neg (by decide), hfirst]
  refine bind_congr_of_mem hrest ?_
  rintro ⟨first, rest⟩ hlength
  dsimp only at hlength ⊢
  rw [(readersAgree n m).operands (by omega)]

theorem Alike.conditional (h : Alike (readJunction · false) 14 s t) : Alike readConditional 15 s t := by
  intro n m hn hm
  obtain ⟨n, rfl⟩ : ∃ k, n = k + 1 := ⟨n - 1, by omega⟩
  obtain ⟨m, rfl⟩ : ∃ k, m = k + 1 := ⟨m - 1, by omega⟩
  have hrest := h.length_lt (readersConsume _).junction (n := n) (m := m) (by omega) (by omega)
  have hfirst : readJunction n false s = readJunction m false t := h n m (by omega) (by omega)
  have hreaders := readersAgree n m
  rw [readConditional, readConditional, hfirst]
  refine bind_congr_of_mem hrest ?_
  rintro ⟨first, rest⟩ hlength
  dsimp only at hlength ⊢
  split
  · rename_i rest
    rw [List.length_cons] at hlength
    rw [hreaders.junction (by simp; omega)]
    refine bind_congr_of_mem (readersConsume m).junction ?_
    rintro ⟨test, after⟩ hafter
    dsimp only at hafter ⊢
    split
    · rename_i after
      rw [List.length_cons] at hafter
      rw [hreaders.conditional (by omega)]
    · rfl
  · rfl

theorem Alike.list (h : Alike readConditional 15 s t) : Alike readList 17 s t := by
  intro n m hn hm
  obtain ⟨n, rfl⟩ : ∃ k, n = k + 2 := ⟨n - 2, by omega⟩
  obtain ⟨m, rfl⟩ : ∃ k, m = k + 2 := ⟨m - 2, by omega⟩
  have hrest := h.length_lt (readersConsume _).conditional (n := n) (m := m) (by omega) (by omega)
  have hitems : readItems (n + 1) s = readItems (m + 1) t := by
    rw [readItems, readItems, h n m (by omega) (by omega)]
    refine bind_congr_of_mem hrest ?_
    rintro ⟨first, rest⟩ hlength
    dsimp only at hlength ⊢
    exact (readersAgree n m).moreItems (by omega)
  rw [readList, readList, hitems]

/-- Lists that begin with the same product begin with the same formula. -/
theorem Alike.list_of_product (h : Alike (readBinary · 4) 6 s t) (hs : ∀ more, s ≠ .name "not" :: more)
    (ht : ∀ more, t ≠ .name "not" :: more) : Alike readList 17 s t := by
  have hsum : Alike (readBinary · 0) 10 s t :=
    ((((h.binary (by decide)).binary (by decide)).binary (by decide)).binary (by decide))
  exact ((((hsum.comparison.negation hs ht).conjunction).disjunction).conditional).list

end Alike

/-! ### Tokens that no operand begins with -/

section Refused

variable {s : List Token}

theorem readSigned_eq_none (h : ∀ n, readAtom n s = none) (hs : unaryOperator? s = none) (n : Nat) :
    readSigned n s = none := by
  have hprimary (n : Nat) : readPrimary n s = none := by
    cases n with
    | zero => rfl
    | succ n => rw [readPrimary, h n]; rfl
  have hpower (n : Nat) : readPower n s = none := by
    cases n with
    | zero => rfl
    | succ n => rw [readPower, hprimary n]; rfl
  cases n with
  | zero => rfl
  | succ n => rw [readSigned, hs]; exact hpower n

theorem readProduct_eq_none (h : ∀ n, readSigned n s = none) (n : Nat) : readBinary n 4 s = none := by
  have hfactor (n : Nat) : readBinary n 5 s = none := by
    cases n with
    | zero => rfl
    | succ n => rw [readBinary, if_pos rfl, h n]
  cases n with
  | zero => rfl
  | succ n => rw [readBinary, if_neg (by decide), hfactor n]; rfl

theorem readBinary_eq_none (h : ∀ n, readBinary n 4 s = none) {level : Nat} (hlevel : level ≤ 4) (n : Nat) :
    readBinary n level s = none := by
  induction n generalizing level with
  | zero => rfl
  | succ n ih =>
    by_cases heq : level = 4
    · rw [heq]
      exact h (n + 1)
    · rw [readBinary, if_neg (by omega), ih (by omega)]
      rfl

theorem readConditional_eq_none (h : ∀ n, readBinary n 4 s = none) (hs : ∀ more, s ≠ .name "not" :: more) (n : Nat) :
    readConditional n s = none := by
  have hcomparison (n : Nat) : readComparison n s = none := by
    cases n with
    | zero => rfl
    | succ n => rw [readComparison, readBinary_eq_none h (Nat.zero_le 4) n]; rfl
  have hnegation (n : Nat) : readNegation n s = none := by
    cases n with
    | zero => rfl
    | succ n =>
      rw [readNegation]
      · exact hcomparison n
      · exact hs
  have hconjunction (n : Nat) : readJunction n true s = none := by
    cases n with
    | zero => rfl
    | succ n => rw [readJunction, if_pos rfl, hnegation n]; rfl
  have hdisjunction (n : Nat) : readJunction n false s = none := by
    cases n with
    | zero => rfl
    | succ n => rw [readJunction, if_neg (by decide), hconjunction n]; rfl
  cases n with
  | zero => rfl
  | succ n => rw [readConditional, hdisjunction n]; rfl

theorem readList_eq_none (h : ∀ n, readConditional n s = none) (n : Nat) : readList n s = none := by
  have hitems (n : Nat) : readItems n s = none := by
    cases n with
    | zero => rfl
    | succ n => rw [readItems, h n]; rfl
  cases n with
  | zero => rfl
  | succ n => rw [readList, hitems n]; rfl

end Refused

/-! ### Operands -/

/-- An operator follows that neither goes on with the operand in front nor is the sign of a power. -/
def Separates (rest : List Token) : Prop :=
  ∃ text more, rest = .operator text :: more ∧ text ∉ ["(", "[", ".", "**"]

theorem Separates.endsPrimary {rest : List Token} (h : Separates rest) : EndsPrimary rest := by
  obtain ⟨text, more, rfl, htext⟩ := h
  simp only [List.mem_cons, List.not_mem_nil, or_false, not_or] at htext
  simp [EndsPrimary, htext]

theorem Separates.ne_power {rest : List Token} (h : Separates rest) (more : List Token) :
    rest ≠ .operator "**" :: more := by
  obtain ⟨text, other, rfl, htext⟩ := h
  simp only [List.mem_cons, List.not_mem_nil, or_false, not_or] at htext
  simp [htext]

theorem separates_closing (rest : List Token) : Separates (.operator ")" :: rest) := ⟨")", rest, rfl, by decide⟩

/-- Tokens that are read as the first factors of a product, whatever separates them from the others, or that cannot be
    read at all. -/
structure IsFactor (front : List Token) (f? : Option Formula) : Prop where
  ne_not : ∀ rest more, front ++ rest ≠ .name "not" :: more
  ne_closing : ∀ rest more, front ++ rest ≠ .operator ")" :: more
  ne_binding : ∀ rest word more, front ++ rest ≠ .name word :: .operator ":=" :: more
  takes : ∀ f ∈ f?, ∀ rest, Separates rest → ∀ n k, 24 * (front ++ rest).length + 6 ≤ n → 24 * rest.length + 1 ≤ k →
    readBinary n 4 (front ++ rest) = readBinaryRest k 4 f rest
  refuses : f? = none → ∀ rest, Separates rest → ∀ n, readBinary n 4 (front ++ rest) = none

section Brackets

variable {front rest : List Token} {f? : Option Formula}

/-- What is read in brackets. -/
theorem IsFactor.takes_list {f : Formula} (h : IsFactor front (some f)) (rest : List Token) :
    Takes readList (24 * (front ++ .operator ")" :: rest).length + 17) (front ++ .operator ")" :: rest) f
      (.operator ")" :: rest) := by
  have hproduct : Takes (readBinary · 4) (24 * (front ++ .operator ")" :: rest).length + 6)
      (front ++ .operator ")" :: rest) f (.operator ")" :: rest) := by
    intro n hn
    have hstep := h.takes f rfl _ (separates_closing rest) n (24 * (.operator ")" :: rest : List Token).length + 1) hn
      (Nat.le_refl _)
    exact hstep.trans (readBinaryRest_of_stops (stops_closing 1 rest) (.inr rfl) _ f)
  have hsum := hproduct.binary (by decide) fun n => readBinaryRest_of_stops (stops_closing 0 rest) (.inr rfl) n f
  exact (hsum.conditional_of_sum (stops_closing 0 rest) (h.ne_not _)).list (stops_closing 0 rest)

theorem IsFactor.takes_bracket {f : Formula} (h : IsFactor front (some f)) (rest : List Token) :
    Takes readAtom (24 * (front ++ .operator ")" :: rest).length + 18)
      (.operator "(" :: (front ++ .operator ")" :: rest)) f rest :=
  Expression.takes_bracket (h.takes_list rest) (h.ne_closing _) (h.ne_binding _)

theorem IsFactor.refuses_bracket (h : IsFactor front none) (rest : List Token) (n : Nat) :
    readAtom n (.operator "(" :: (front ++ .operator ")" :: rest)) = none := by
  cases n with
  | zero => rfl
  | succ n =>
    have hproduct := h.refuses rfl _ (separates_closing rest)
    have hlist := readList_eq_none (readConditional_eq_none hproduct (h.ne_not _)) n
    rw [readAtom, hlist]
    · rfl
    · exact fun more heq => h.ne_closing _ more heq
    · exact fun word more heq => h.ne_binding _ word more heq

/-- In front of what separates factors, a product may stand in brackets. -/
theorem IsFactor.alike_bracket (h : IsFactor front f?) (hrest : Separates rest) :
    Alike (readBinary · 4) 6 (front ++ rest) (.operator "(" :: (front ++ .operator ")" :: rest)) := by
  intro n m hn hm
  have hlength : (front ++ .operator ")" :: rest).length = (front ++ rest).length + 1 := by simp; omega
  rw [List.length_cons, hlength] at hm
  change readBinary n 4 (front ++ rest) = readBinary m 4 (.operator "(" :: (front ++ .operator ")" :: rest))
  cases f? with
  | none =>
    rw [h.refuses rfl rest hrest n, readProduct_eq_none (readSigned_eq_none (h.refuses_bracket rest) rfl) m]
  | some f =>
    have hatom := h.takes_bracket rest
    rw [hlength] at hatom
    have hfactor := (((takes_primary hatom hrest.endsPrimary).power hrest.ne_power).signed rfl).tightest
    obtain ⟨m, rfl⟩ : ∃ k, m = k + 1 := ⟨m - 1, by omega⟩
    have hbracket : readBinary m 5 (.operator "(" :: (front ++ .operator ")" :: rest)) = some (f, rest) :=
      hfactor m (by omega)
    have hshort : rest.length ≤ (front ++ rest).length := by simp
    rw [readBinary, if_neg (by decide), hbracket, h.takes f rfl rest hrest n m hn (by omega)]
    rfl

end Brackets

/-! ### Literals with a sign -/

/-- A minus sign in front, or nothing. -/
def signTokens (negative : Bool) : List Token := if negative then [.operator "-"] else []

def signFormula (negative : Bool) (f : Formula) : Formula := if negative then .unary .minus f else f

/-- The formula that the argument of a literal is read as, if it can be read. -/
def Maker.argument? (maker : Maker) (text : String) : Option Formula :=
  match maker with
  | .whole => (wholeValue? text.toList).map .numeral
  | _ => some (.quotation text)

section Literals

variable {s rest : List Token} {f : Formula} {bound : Nat} {word : String} (negative : Bool) (maker : Maker)
  (text : String)

theorem argumentToken_cases : argumentToken maker text = .numeral text ∨ argumentToken maker text = .quotation text := by
  cases maker
  · exact .inl rfl
  all_goals exact .inr rfl

theorem readAtom_argument (operator : String) (rest : List Token) (n : Nat) :
    readAtom (n + 1) (argumentToken maker text :: .operator operator :: rest) =
      (maker.argument? text).map fun f => (f, .operator operator :: rest) := by
  cases maker
  · cases hvalue : wholeValue? text.toList <;> simp [argumentToken, Maker.argument?, readAtom, hvalue]
  all_goals simp [argumentToken, Maker.argument?, readAtom, joinQuotations]

theorem Takes.sign (h : Takes readPower bound s f rest) (hs : unaryOperator? s = none) :
    Takes readSigned (bound + 2) (signTokens negative ++ s) (signFormula negative f) rest := by
  cases negative with
  | false => exact (h.signed hs).mono (Nat.le_succ _)
  | true =>
    intro n hn
    obtain ⟨n, rfl⟩ : ∃ k, n = k + 1 := ⟨n - 1, by omega⟩
    have hoperand : readSigned n s = some (f, rest) := h.signed hs n (by omega)
    simp [signTokens, signFormula, readSigned, unaryOperator?, hoperand]

theorem refuses_sign (h : ∀ n, readPower n s = none) (hs : unaryOperator? s = none) (n : Nat) :
    readSigned n (signTokens negative ++ s) = none := by
  have hoperand (n : Nat) : readSigned n s = none := by
    cases n with
    | zero => rfl
    | succ n => rw [readSigned, hs]; exact h n
  cases negative with
  | false => exact hoperand n
  | true =>
    cases n with
    | zero => rfl
    | succ n => simp [signTokens, readSigned, unaryOperator?, hoperand]

/-- Where a factor is taken, or where none begins, the tokens begin with a product or with none. -/
theorem isFactor_of_signed {front : List Token} {f? : Option Formula} (hnot : ∀ rest more, front ++ rest ≠ .name "not" :: more)
    (hclosing : ∀ rest more, front ++ rest ≠ .operator ")" :: more)
    (hbinding : ∀ rest word more, front ++ rest ≠ .name word :: .operator ":=" :: more)
    (htakes : ∀ f ∈ f?, ∀ rest, Separates rest →
      Takes readSigned (24 * (front ++ rest).length + 4) (front ++ rest) f rest)
    (hrefuses : f? = none → ∀ rest, Separates rest → ∀ n, readSigned n (front ++ rest) = none) : IsFactor front f? where
  ne_not := hnot
  ne_closing := hclosing
  ne_binding := hbinding
  takes f hf rest hrest n k hn hk := by
    obtain ⟨n, rfl⟩ : ∃ m, n = m + 1 := ⟨n - 1, by omega⟩
    have hfactor : readBinary n 5 (front ++ rest) = some (f, rest) := (htakes f hf rest hrest).tightest n (by omega)
    have hshort : rest.length ≤ (front ++ rest).length := by simp
    rw [readBinary, if_neg (by decide), hfactor]
    exact (readersAgree n k).binaryRest (by decide) (by omega)
  refuses hf rest hrest := readProduct_eq_none (hrefuses hf rest hrest)

/-- An argument alone is an operand, or cannot be read. -/
theorem isFactor_argument : IsFactor [argumentToken maker text] (maker.argument? text) := by
  have hcases := argumentToken_cases maker text
  have hunary (rest : List Token) : unaryOperator? (argumentToken maker text :: rest) = none := by
    rcases hcases with h | h <;> rw [h] <;> rfl
  refine isFactor_of_signed ?_ ?_ ?_ ?_ ?_
  · intro rest more
    rcases hcases with h | h <;> simp [h]
  · intro rest more
    rcases hcases with h | h <;> simp [h]
  · intro rest word more
    rcases hcases with h | h <;> simp [h]
  · intro f hf rest hrest
    have hatom : Takes readAtom 1 ([argumentToken maker text] ++ rest) f rest := by
      intro n hn
      obtain ⟨n, rfl⟩ : ∃ k, n = k + 1 := ⟨n - 1, by omega⟩
      obtain ⟨operator, more, rfl, -⟩ := hrest
      rw [List.singleton_append, readAtom_argument, Option.mem_def.mp hf]
      rfl
    have hoperand := ((takes_primary hatom hrest.endsPrimary).power hrest.ne_power).signed (hunary rest)
    exact hoperand.mono (by omega)
  · intro hf rest hrest
    have hatom (n : Nat) : readAtom n ([argumentToken maker text] ++ rest) = none := by
      cases n with
      | zero => rfl
      | succ n =>
        obtain ⟨operator, more, rfl, -⟩ := hrest
        rw [List.singleton_append, readAtom_argument, hf]
        rfl
    exact readSigned_eq_none hatom (hunary rest)

variable {word : String} (hword : isKeyword word = false)
include hword

theorem takes_literalCall {rest : List Token} (hrest : EndsPrimary rest) {f : Formula} (hf : maker.argument? text = some f) :
    Takes readPrimary 20 (.name word :: .operator "(" :: argumentToken maker text :: .operator ")" :: rest)
      (.call (.name word) [""] [f]) rest := by
  have hargument : Takes readAtom 1 (argumentToken maker text :: .operator ")" :: rest) f (.operator ")" :: rest) := by
    intro n hn
    obtain ⟨n, rfl⟩ : ∃ k, n = k + 1 := ⟨n - 1, by omega⟩
    rw [readAtom_argument, hf]
    rfl
  refine takes_call hword hargument ?_ ?_ hrest
  · intro operator
    rcases argumentToken_cases maker text with h | h <;> simp [h]
  · intro word
    rcases argumentToken_cases maker text with h | h <;> simp [h]

theorem refuses_literalCall (rest : List Token) (hf : maker.argument? text = none) (n : Nat) :
    readPrimary n (.name word :: .operator "(" :: argumentToken maker text :: .operator ")" :: rest) = none := by
  have hfactor := isFactor_argument maker text
  have hconditional : ∀ n, readConditional n (argumentToken maker text :: .operator ")" :: rest) = none :=
    readConditional_eq_none (hfactor.refuses hf _ (separates_closing rest)) (hfactor.ne_not _)
  have harguments (n : Nat) : readArguments n false (argumentToken maker text :: .operator ")" :: rest) = none := by
    cases n with
    | zero => rfl
    | succ n => rcases argumentToken_cases maker text with h | h <;> simp_all [readArguments]
  cases n with
  | zero => rfl
  | succ n =>
    cases n with
    | zero => rfl
    | succ n =>
      have hname := takes_name hword (.operator "(" :: argumentToken maker text :: .operator ")" :: rest) (n + 1)
        (by omega)
      rw [readPrimary, hname]
      simp [readTrailers, harguments]

/-- A literal that is made by a function is an operand. -/
theorem isFactor_call : IsFactor
    (signTokens negative ++ [.name word, .operator "(", argumentToken maker text, .operator ")"])
    ((maker.argument? text).map fun f => signFormula negative (.call (.name word) [""] [f])) := by
  have hnot : word ≠ "not" := by
    rintro rfl
    exact absurd hword (by decide)
  refine isFactor_of_signed ?_ ?_ ?_ ?_ ?_
  · cases negative <;> simp [signTokens, hnot]
  · cases negative <;> simp [signTokens]
  · cases negative <;> simp [signTokens]
  · intro f hf rest hrest
    obtain ⟨argument, hargument, rfl⟩ := Option.map_eq_some_iff.mp hf
    have hcall := takes_literalCall maker text hword hrest.endsPrimary hargument
    rw [List.append_assoc]
    refine ((hcall.power hrest.ne_power).sign negative rfl).mono ?_
    simp only [List.length_append, List.length_cons]
    omega
  · intro hf rest hrest n
    have hcall := refuses_literalCall maker text hword rest (Option.map_eq_none_iff.mp hf)
    have hpower (n : Nat) : readPower n (.name word :: .operator "(" :: argumentToken maker text :: .operator ")" ::
        rest) = none := by
      cases n with
      | zero => rfl
      | succ n => rw [readPower, hcall]; rfl
    rw [List.append_assoc]
    exact refuses_sign negative hpower rfl n

/-- The first factor of a product is a name with the sign in front of it. -/
theorem takes_firstFactor (rest : List Token) : Takes (readBinary · 5) 6
    (signTokens negative ++ .name word :: .operator "*" :: rest) (signFormula negative (.name word))
    (.operator "*" :: rest) := by
  have hstar : EndsPrimary (.operator "*" :: rest) := by simp [EndsPrimary]
  exact (((takes_primary (takes_name hword _) hstar).power (by simp)).sign negative rfl).tightest

theorem takes_product {argument : Formula} (hargument : maker.argument? text = some argument) {rest : List Token}
    (hrest : Separates rest) {n k : Nat} (hn : 24 * ((signTokens negative).length + (rest.length + 5)) + 6 ≤ n)
    (hk : 24 * rest.length + 1 ≤ k) :
    readBinary n 4 (signTokens negative ++
      .name word :: .operator "*" :: .operator "(" :: argumentToken maker text :: .operator ")" :: rest) =
        readBinaryRest k 4 (.binary .mul (signFormula negative (.name word)) argument) rest := by
  have hfactor := isFactor_argument maker text
  rw [hargument] at hfactor
  have hbracket := (((takes_primary (hfactor.takes_bracket rest) hrest.endsPrimary).power hrest.ne_power).signed
    rfl).tightest
  obtain ⟨n, rfl⟩ : ∃ m, n = m + 2 := ⟨n - 2, by omega⟩
  have hfirst : readBinary (n + 1) 5 _ = some _ :=
    takes_firstFactor negative hword (.operator "(" :: argumentToken maker text :: .operator ")" :: rest) (n + 1)
      (by omega)
  have hsecond : readBinary n 5 (.operator "(" :: argumentToken maker text :: .operator ")" :: rest) =
      some (argument, rest) :=
    hbracket n (by simp only [List.length_append, List.length_cons, List.length_nil]; omega)
  rw [readBinary, if_neg (by decide), hfirst]
  simp only [Option.bind_eq_bind, Option.bind_some]
  rw [readBinaryRest]
  simp only [binaryOperator?, hsecond, Option.bind_eq_bind, Option.bind_some]
  exact (readersAgree n k).binaryRest (by decide) (by omega)

theorem refuses_product (hargument : maker.argument? text = none) (rest : List Token) (n : Nat) :
    readBinary n 4 (signTokens negative ++
      .name word :: .operator "*" :: .operator "(" :: argumentToken maker text :: .operator ")" :: rest) = none := by
  have hfactor := isFactor_argument maker text
  rw [hargument] at hfactor
  have hbracket (n : Nat) :
      readBinary n 5 (.operator "(" :: argumentToken maker text :: .operator ")" :: rest) = none := by
    cases n with
    | zero => rfl
    | succ n => rw [readBinary, if_pos rfl]; exact readSigned_eq_none (hfactor.refuses_bracket rest) rfl n
  have hmore (n : Nat) (left : Formula) : readBinaryRest n 4 left (.operator "*" :: .operator "(" ::
      argumentToken maker text :: .operator ")" :: rest) = none := by
    cases n with
    | zero => rfl
    | succ n => simp [readBinaryRest, binaryOperator?, hbracket]
  cases n with
  | zero => rfl
  | succ n =>
    rw [readBinary, if_neg (by decide)]
    by_cases hn : 6 ≤ n
    · have hfirst : readBinary n 5 (signTokens negative ++ .name word :: .operator "*" :: .operator "(" ::
          argumentToken maker text :: .operator ")" :: rest) = some _ := takes_firstFactor negative hword _ n hn
      rw [hfirst]
      exact hmore n _
    · have hword := wordFormula?_of_not_keyword hword
      interval_cases n <;> cases negative <;>
        simp [signTokens, readBinary, readSigned, readPower, readPrimary, readAtom, readTrailers, unaryOperator?,
          hword, hmore]

/-- A literal whose maker is no function is a product, with the sign in front of the first factor. -/
theorem isFactor_product : IsFactor
    (signTokens negative ++ [.name word, .operator "*", .operator "(", argumentToken maker text, .operator ")"])
    ((maker.argument? text).map fun f => .binary .mul (signFormula negative (.name word)) f) := by
  have hnot : word ≠ "not" := by
    rintro rfl
    exact absurd hword (by decide)
  constructor
  · cases negative <;> simp [signTokens, hnot]
  · cases negative <;> simp [signTokens]
  · cases negative <;> simp [signTokens]
  · intro f hf rest hrest n k hn hk
    obtain ⟨argument, hargument, rfl⟩ := Option.map_eq_some_iff.mp hf
    simp only [List.length_append, List.length_cons, List.length_nil] at hn
    rw [List.append_assoc]
    exact takes_product negative maker text hword hargument hrest (by omega) hk
  · intro hf rest hrest n
    rw [List.append_assoc]
    exact refuses_product negative maker text hword (Option.map_eq_none_iff.mp hf) rest n

/-- Alone, a literal that is made by a function may stand in brackets in front of the sign of a power as well. -/
theorem alike_literalCall {rest : List Token} (hrest : EndsPrimary rest) : Alike (readBinary · 4) 6
    (.name word :: .operator "(" :: argumentToken maker text :: .operator ")" :: rest)
    (.operator "(" :: .name word :: .operator "(" :: argumentToken maker text :: .operator ")" :: .operator ")" ::
      rest) := by
  have hfactor := isFactor_call false maker text hword
  have hprimary : Alike readPrimary 2
      (.name word :: .operator "(" :: argumentToken maker text :: .operator ")" :: rest)
      (.operator "(" :: .name word :: .operator "(" :: argumentToken maker text :: .operator ")" :: .operator ")" ::
        rest) := by
    intro n m hn hm
    simp only [List.length_cons] at hn hm
    cases hargument : maker.argument? text with
    | none =>
      rw [hargument] at hfactor
      have hatom (n : Nat) : readAtom n (.operator "(" :: .name word :: .operator "(" :: argumentToken maker text ::
          .operator ")" :: .operator ")" :: rest) = none :=
        hfactor.refuses_bracket rest n
      rw [refuses_literalCall maker text hword rest hargument n]
      cases m with
      | zero => rfl
      | succ m => rw [readPrimary, hatom]; rfl
    | some f =>
      rw [hargument] at hfactor
      have hbracket := takes_primary (hfactor.takes_bracket rest) hrest
      rw [takes_literalCall maker text hword hrest hargument n (by omega)]
      refine (hbracket m ?_).symm
      simp only [signTokens, List.length_append, List.length_cons, List.length_nil]
      simp
      omega
  exact Alike.binary (by decide) (hprimary.power.signed rfl rfl).tightest

end Literals

/-! ### Joined operators and depth of brackets -/

theorem cutOperators_bracket {text : String} (h : text ∈ ["(", ")"]) (s : List Char) :
    cutOperators (text.toList ++ s) = (cutOperators s).map (.operator text :: ·) := by
  have hsign : text ∈ "**" :: typedOperators := by
    have hall : ∀ text ∈ ["(", ")"], text ∈ "**" :: typedOperators := by decide
    exact hall text h
  have hstops : StopsAt (Token.operator text).goesOn s := by
    have hall : ∀ text ∈ ["(", ")"], ∀ c, (Token.operator text).goesOn c = false := by simp [Token.goesOn]
    exact fun c _ => hall text h c
  have hoperator := operatorAt?_append hsign hstops
  cases hchars : text.toList with
  | nil => exact absurd hchars (toList_ne_nil hsign)
  | cons c more =>
    rw [hchars, List.cons_append] at hoperator
    rw [List.cons_append, cutOperators, hoperator]
    simp only [List.length_cons, Nat.add_sub_cancel, List.drop_left]
    rw [← hchars, String.ofList_toList]

/-- A token either goes on with the joined operators in front of it, or has them cut. -/
theorem joinOperators_cases (t : Token) (rest : List Token) :
    (∃ more, ∀ pending, joinOperators pending false (t :: rest) = joinOperators (pending ++ more) false rest) ∨
      ∃ (front : List Token → List Token) (behind : Option (List Token)), ∀ pending,
        joinOperators pending false (t :: rest) = do return (← cutOperators pending) ++ front (← behind) := by
  cases t with
  | operator text =>
    by_cases hblank : text = " "
    · subst hblank
      exact .inr ⟨id, _, fun pending => rfl⟩
    · exact .inl ⟨text.toList, fun pending => by simp [joinOperators]⟩
  | numeral text =>
    by_cases hempty : text = ""
    · subst hempty
      exact .inr ⟨id, _, fun pending => rfl⟩
    · exact .inr ⟨(.numeral text :: ·), joinOperators [] false rest, fun pending => by simp [joinOperators, hempty]⟩
  | lineEnd visible =>
    cases visible with
    | true => exact .inr ⟨(.lineEnd true :: ·), _, fun pending => rfl⟩
    | false => exact .inl ⟨[], fun pending => by simp [joinOperators]⟩
  | finish => exact .inl ⟨[], fun pending => by simp [joinOperators]⟩
  | indentation =>
    refine .inr ⟨id, none, fun pending => ?_⟩
    cases cutOperators pending <;> simp [joinOperators]
  | comment => exact .inr ⟨id, _, fun pending => rfl⟩
  | lineBreak => exact .inr ⟨id, _, fun pending => rfl⟩
  | name word => exact .inr ⟨(.name word :: ·), _, fun pending => rfl⟩
  | quotation text => exact .inr ⟨(.quotation text :: ·), _, fun pending => rfl⟩
  | literal maker text => exact .inr ⟨(.literal maker text :: ·), _, fun pending => rfl⟩
  | stray text => exact .inr ⟨(.stray text :: ·), _, fun pending => rfl⟩

/-- No operator is joined to a bracket in front of it. -/
theorem joinOperators_bracket {text : String} (h : text ∈ ["(", ")"]) (pending : List Char) (tokens : List Token) :
    joinOperators (text.toList ++ pending) false tokens =
      (joinOperators pending false tokens).map (.operator text :: ·) := by
  induction tokens generalizing pending with
  | nil => exact cutOperators_bracket h pending
  | cons t rest ih =>
    rcases joinOperators_cases t rest with ⟨more, hmore⟩ | ⟨front, behind, hcut⟩
    · rw [hmore, hmore, List.append_assoc, ih]
    · rw [hcut, hcut, cutOperators_bracket h]
      cases cutOperators pending <;> cases behind <;> rfl

theorem joinOperators_cons_bracket {text : String} (h : text ∈ ["(", ")"]) (tokens : List Token) :
    joinOperators [] false (.operator text :: tokens) =
      (joinOperators [] false tokens).map (.operator text :: ·) := by
  have hblank : text ≠ " " := by
    rintro rfl
    exact absurd h (by decide)
  have hjoin := joinOperators_bracket h [] tokens
  rw [List.append_nil] at hjoin
  simpa [joinOperators, hblank] using hjoin

theorem exists_cut {c : Char} {s : List Char} {tokens : List Token} (h : cutOperators (c :: s) = some tokens) :
    ∃ text more, tokens = .operator text :: more ∧ text.toList.head? = some c := by
  have hhead : ∀ op ∈ operators, op ≠ [] := by decide +kernel
  rw [cutOperators] at h
  split at h
  · cases h
  · rename_i text htext
    obtain ⟨more, -, rfl⟩ := Option.map_eq_some_iff.mp h
    refine ⟨_, more, rfl, ?_⟩
    have hbegins := List.find?_some htext
    have hne := hhead text (List.mem_of_find?_eq_some htext)
    cases text with
    | nil => exact absurd rfl hne
    | cons d rest =>
      rw [List.isPrefixOf_iff_prefix, List.cons_prefix_cons] at hbegins
      simp [hbegins.1]

/-- The first operator of joined ones begins with their first character. -/
theorem exists_joined {c : Char} {pending : List Char} {tokens joined : List Token}
    (h : joinOperators (c :: pending) false tokens = some joined) :
    ∃ text more, joined = .operator text :: more ∧ text.toList.head? = some c := by
  induction tokens generalizing pending with
  | nil => exact exists_cut h
  | cons t rest ih =>
    rcases joinOperators_cases t rest with ⟨more, hmore⟩ | ⟨front, behind, hcut⟩
    · rw [hmore] at h
      exact ih h
    · rw [hcut] at h
      obtain ⟨cut, hcut, hrest⟩ := Option.bind_eq_some_iff.mp h
      obtain ⟨others, -, hjoined⟩ := Option.bind_eq_some_iff.mp hrest
      obtain ⟨text, more, rfl, hhead⟩ := exists_cut hcut
      obtain rfl := Option.some.inj hjoined
      exact ⟨text, _, rfl, hhead⟩

theorem exists_joined_operator {c : Char} {operator : String} (hhead : operator.toList.head? = some c) (hc : c ≠ ' ')
    {tokens joined : List Token} (h : joinOperators [] false (.operator operator :: tokens) = some joined) :
    ∃ text more, joined = .operator text :: more ∧ text.toList.head? = some c := by
  obtain ⟨pending, hpending⟩ : ∃ pending, operator.toList = c :: pending :=
    ⟨operator.toList.tail, (List.cons_head?_tail hhead).symm⟩
  have hblank : operator ≠ " " := by
    rintro rfl
    exact hc (Option.some.inj hhead).symm
  exact @exists_joined c pending tokens _ (by simpa [joinOperators, hblank, hpending] using h)

theorem bracketDepth_max (s : List Token) (depth deepest other : Nat) :
    bracketDepth depth (max deepest other) s = max deepest (bracketDepth depth other s) := by
  induction s generalizing depth other with
  | nil => rfl
  | cons t rest ih =>
    cases t with
    | operator text => simp only [bracketDepth, Nat.max_assoc, ih]; split <;> [rfl; split <;> rfl]
    | _ => exact ih depth other

/-! ### Programs -/

section Programs

variable {s t : List Token}

/-- Tokens that begin with an operator, or with a name that is no keyword. -/
def BeginsFormula (s : List Token) : Prop :=
  ∃ first more, s = first :: more ∧
    ((∃ text, first = .operator text) ∨ ∃ word, first = .name word ∧ isKeyword word = false)

theorem BeginsFormula.ne_keyword (h : BeginsFormula s) {word : String} (hword : isKeyword word) (more : List Token) :
    s ≠ .name word :: more := by
  obtain ⟨first, other, rfl, ⟨text, rfl⟩ | ⟨word', rfl, hword'⟩⟩ := h
  · simp
  · rintro heq
    obtain ⟨rfl, -⟩ : word' = word ∧ _ := by simpa using heq
    rw [hword] at hword'
    cases hword'

theorem BeginsFormula.dropWhile_eq (h : BeginsFormula s) {p : Token → Bool} (hoperator : ∀ text, p (.operator text) = false)
    (hname : ∀ word, p (.name word) = false) : s.dropWhile p = s := by
  obtain ⟨first, other, rfl, ⟨text, rfl⟩ | ⟨word, rfl, -⟩⟩ := h
  · rw [List.dropWhile_cons_of_neg (by simp [hoperator])]
  · rw [List.dropWhile_cons_of_neg (by simp [hname])]

/-- Statements that begin with the same product are the same. -/
theorem Alike.statement (h : Alike (readBinary · 4) 6 s t) (hs : BeginsFormula s) (ht : BeginsFormula t) {n m : Nat}
    (hn : 24 * s.length + 17 ≤ n) (hm : 24 * t.length + 17 ≤ m) : readStatement n s = readStatement m t := by
  have hlist := h.list_of_product (hs.ne_keyword (by decide)) (ht.ne_keyword (by decide))
  have hrest := hlist.length_lt (readersConsume _).list hn hm
  unfold readStatement
  split
  case h_8 =>
    split
    case h_8 =>
      rw [hlist n m hn hm]
      refine bind_congr_of_mem hrest fun ⟨f, rest⟩ hlength => ?_
      dsimp only at hlength
      have hassigned : readAssigned n (rest.length + 1) f rest = readAssigned m (rest.length + 1) f rest :=
        readAssigned_agrees (by omega)
      simp only [hassigned]
    -- the other statements begin with a keyword
    all_goals exact absurd rfl (ht.ne_keyword (by decide) _)
  all_goals exact absurd rfl (hs.ne_keyword (by decide) _)

/-- Programs that begin with the same product are the same, if both or neither have their brackets nested too deeply. -/
theorem Alike.program (h : Alike (readBinary · 4) 6 s t) (hs : BeginsFormula s) (ht : BeginsFormula t)
    {tokens others : List Token} (htokens : joinOperators [] false tokens = some s)
    (hothers : joinOperators [] false others = some t)
    (hdepth : bracketLimit < bracketDepth 0 0 s ↔ bracketLimit < bracketDepth 0 0 t) :
    Program.read? tokens = Program.read? others := by
  have hstatement : readStatement (readingFuel s) s = readStatement (readingFuel t) t :=
    h.statement hs ht (by unfold readingFuel; omega) (by unfold readingFuel; omega)
  have hempty {s : List Token} (hs : BeginsFormula s) : s.isEmpty = false := by
    obtain ⟨first, more, rfl, -⟩ := hs
    rfl
  have hrest : ∀ r ∈ readStatement (readingFuel t) t, r.2.2.length ≤ min s.length t.length := by
    intro r hr
    have hr' : r ∈ readStatement (readingFuel s) s := by rwa [hstatement]
    exact Nat.le_min.mpr ⟨readStatement_consumes r hr', readStatement_consumes r hr⟩
  have hreadable {rest : List Token} (hlength : rest.length ≤ min s.length t.length) (k : Nat) :
      restReadable (readingFuel s) k rest = restReadable (readingFuel t) k rest :=
    restReadable_agrees (by unfold readingFuel; omega)
  rw [Program.read?, Program.read?, htokens, hothers]
  simp only [Option.bind_eq_bind, Option.bind_some]
  by_cases hlimit : bracketLimit < bracketDepth 0 0 s
  · rw [if_pos hlimit, if_pos (hdepth.mp hlimit), Option.bind_none, Option.bind_none]
  · rw [if_neg hlimit, if_neg (hdepth.not.mp hlimit), hs.dropWhile_eq (fun _ => rfl) (fun _ => rfl),
      ht.dropWhile_eq (fun _ => rfl) (fun _ => rfl), hempty hs, hempty ht, hstatement]
    refine bind_congr_of_mem hrest ?_
    rintro ⟨isExpression, value, rest⟩ hlength
    dsimp only at hlength ⊢
    split
    · rfl
    · rw [List.length_cons] at hlength
      rw [hreadable (by omega)]
    · rw [List.length_cons] at hlength
      rw [hreadable (by omega)]
    · rfl

end Programs

/-! ### Literals in front of an operator -/

/-- A literal with nothing left out: a call of its maker, or a product if the maker is no function. -/
def literalTokens (isFunction negative : Bool) (word : String) (maker : Maker) (text : String) : List Token :=
  signTokens negative ++ .name word :: (if isFunction then [] else [.operator "*"]) ++
    [.operator "(", argumentToken maker text, .operator ")"]

section Literals

variable (isFunction negative : Bool) {word : String} (maker : Maker) {text : String} (htext : text ≠ "")

theorem bracketDepth_literalTokens (rest : List Token) (depth deepest : Nat) :
    bracketDepth depth deepest (literalTokens isFunction negative word maker text ++ rest) =
      bracketDepth depth (max deepest (depth + 1)) rest := by
  cases isFunction <;> cases negative <;> rcases argumentToken_cases maker text with h | h <;>
    simp [literalTokens, signTokens, h, bracketDepth]

theorem alike_literalTokens (hword : isKeyword word = false) {joined : List Token} (hrest : EndsPrimary joined)
    (hbegins : ∃ operator more, joined = .operator operator :: more)
    (hpower : ∀ more, joined = .operator "**" :: more → negative = false ∧ isFunction = true) :
    Alike (readBinary · 4) 6 (literalTokens isFunction negative word maker text ++ joined)
      (.operator "(" :: (literalTokens isFunction negative word maker text ++ .operator ")" :: joined)) := by
  obtain ⟨operator, more, rfl⟩ := hbegins
  by_cases hraised : operator = "**"
  · subst hraised
    obtain ⟨rfl, rfl⟩ := hpower more rfl
    exact alike_literalCall maker text hword hrest
  · have hseparates : Separates (.operator operator :: more) := by
      refine ⟨operator, more, rfl, ?_⟩
      have hends := hrest _ rfl
      simp only [List.mem_cons, Token.operator.injEq, List.not_mem_nil, or_false, not_or] at hends ⊢
      exact ⟨hends.1, hends.2.1, hends.2.2, hraised⟩
    cases isFunction with
    | true =>
      have hfactor := (isFactor_call negative maker text hword).alike_bracket hseparates
      simpa [literalTokens] using hfactor
    | false =>
      have hfactor := (isFactor_product negative maker text hword).alike_bracket hseparates
      simpa [literalTokens] using hfactor

include htext

/-- The tokens of a literal stay as they are, whatever follows its closing bracket. -/
theorem joinOperators_literalTokens (tokens : List Token) :
    joinOperators [] false (literalTokens isFunction negative word maker text ++ tokens) =
      (joinOperators [] false tokens).map (literalTokens isFunction negative word maker text ++ ·) := by
  have hnil : cutOperators [] = some [] := by rw [cutOperators]
  have hminus : cutOperators ['-'] = some [.operator "-"] := by
    simpa using @cutOperators_flatMap ["-"] (by decide) (by simp)
  have hopening : cutOperators ['('] = some [.operator "("] := by
    simpa using @cutOperators_flatMap ["("] (by decide) (by simp)
  have hproduct : cutOperators ['*', '('] = some [.operator "*", .operator "("] := by
    simpa using @cutOperators_flatMap ["*", "("] (by decide) (by simp [Token.Parts, StopsAt, Token.goesOn])
  have hclosing : joinOperators [')'] false tokens = (joinOperators [] false tokens).map (.operator ")" :: ·) :=
    joinOperators_bracket (by decide : ")" ∈ ["(", ")"]) [] tokens
  rcases argumentToken_cases maker text with h | h <;> cases isFunction <;> cases negative <;>
    simp [literalTokens, signTokens, h, joinOperators, hnil, hminus, hopening, hproduct, hclosing, htext] <;>
    cases joinOperators [] false tokens <;> rfl

theorem joinOperators_bracketed (tokens : List Token) :
    joinOperators [] false
        (.operator "(" :: (literalTokens isFunction negative word maker text ++ .operator ")" :: tokens)) =
      (joinOperators [] false tokens).map fun joined =>
        .operator "(" :: (literalTokens isFunction negative word maker text ++ .operator ")" :: joined) := by
  rw [joinOperators_cons_bracket (by decide), joinOperators_literalTokens _ _ _ htext,
    joinOperators_cons_bracket (by decide), Option.map_map, Option.map_map]
  rfl

/-- In front of an operator, a literal may stand in brackets, unless the operator is the sign of a power and the literal
    has a sign itself or is made by no function. -/
theorem read?_bracketed (hword : isKeyword word = false) {operator : String} {tokens : List Token}
    (hoperator : ∃ c ∈ operator.toList.head?, c ∈ ['+', '-', '*', '/'])
    (hpower : ∀ more, joinOperators [] false (.operator operator :: tokens) = some (.operator "**" :: more) →
      negative = false ∧ isFunction = true) :
    Program.read? (literalTokens isFunction negative word maker text ++ .operator operator :: tokens) =
      Program.read? (.operator "(" :: (literalTokens isFunction negative word maker text ++ .operator ")" ::
        .operator operator :: tokens)) := by
  have hplain := @joinOperators_literalTokens isFunction negative word maker text htext (.operator operator :: tokens)
  have hbracket := @joinOperators_bracketed isFunction negative word maker text htext (.operator operator :: tokens)
  cases hjoined : joinOperators [] false (.operator operator :: tokens) with
  | none =>
    rw [hjoined] at hplain hbracket
    rw [Program.read?, Program.read?, hplain, hbracket]
    rfl
  | some joined =>
    rw [hjoined] at hplain hbracket
    obtain ⟨c, hc, hsign⟩ := hoperator
    have hblank : c ≠ ' ' := by
      rintro rfl
      exact absurd hsign (by decide)
    obtain ⟨first, more, rfl, hfirst⟩ := exists_joined_operator hc hblank hjoined
    have hends : EndsPrimary (.operator first :: more) := by
      have hall : ∀ text ∈ ["(", "[", "."], ∀ c ∈ text.toList.head?, c ∉ ['+', '-', '*', '/'] := by decide
      intro t ht hmem
      obtain rfl : .operator first = t := by simpa using ht
      refine hall first ?_ c hfirst hsign
      simpa using hmem
    refine (alike_literalTokens isFunction negative maker hword hends ⟨first, more, rfl⟩ fun more heq => ?_).program
      ?_ ?_ hplain hbracket ?_
    · exact hpower more (by rw [hjoined, heq])
    · cases negative
      · exact ⟨_, _, rfl, .inr ⟨word, rfl, hword⟩⟩
      · exact ⟨_, _, rfl, .inl ⟨_, rfl⟩⟩
    · exact ⟨_, _, rfl, .inl ⟨_, rfl⟩⟩
    · have hopening (s : List Token) : bracketDepth 0 0 (.operator "(" :: s) = bracketDepth 1 1 s := by
        simp [bracketDepth]
      have hclosing (s : List Token) : bracketDepth 1 2 (.operator ")" :: s) = bracketDepth 0 2 s := by
        simp [bracketDepth]
      have hdepth (deepest : Nat) (s : List Token) : bracketDepth 0 deepest s = max deepest (bracketDepth 0 0 s) := by
        simpa using bracketDepth_max s 0 deepest 0
      rw [bracketDepth_literalTokens, hopening, bracketDepth_literalTokens]
      simp only [Nat.zero_add, Nat.reduceAdd, Nat.max_def, Nat.reduceLeDiff, if_true]
      rw [hclosing, hdepth 1, hdepth 2]
      unfold bracketLimit
      omega

end Literals

end Reckoner.Expression
