import Reckoner.Expression.Grammar
import Reckoner.Proofs.Expression.Completion
import Reckoner.Proofs.Expression.Scanning

/-!
# Reading a writing

The complete tokens of a grouped writing are read as the formula of the expression that is written.  Each reader of the
grammar takes exactly the tokens of a writing that holds together tightly enough for it, if what stands behind them is
too loose for that reader to go on.
-/

namespace Reckoner.Expression

open Reckoner.Text

/-! ### Joined operators -/

/-- The tokens of complete writings. -/
inductive IsComplete : Token → Prop
  | name (word : String) : IsComplete (.name word)
  | numeral (text : String) (h : text ≠ "") : IsComplete (.numeral text)
  | quotation (text : String) : IsComplete (.quotation text)
  | operator (text : String) (h : text ∈ "**" :: typedOperators) : IsComplete (.operator text)

/-- Two neighbours make no longer operator. -/
def Token.Parts (a b : Token) : Prop :=
  ∀ x y, a = operator x → b = operator y → StopsAt (operator x).goesOn y.toList

theorem isComplete_of_mem_completed {w : Writing} : ∀ t ∈ w.completed, IsComplete t := by
  refine w.forall_mem_spell ?_ (fun word _ => .name word) (.operator _ (by decide)) (.operator _ (by decide))
    (.operator _ (by decide)) ?_
  · intro l _ t ht
    simp only [Literal.completed, List.mem_cons, List.not_mem_nil, or_false] at ht
    rcases ht with rfl | rfl | rfl | rfl
    · exact .name _
    · exact .operator _ (by decide)
    · cases l with
      | whole n =>
        refine .numeral _ fun hempty => digitsOfNat_ne_nil n ?_
        simpa [Literal.text] using congrArg String.toList hempty
      | decimal front fraction => exact .quotation _
    · exact .operator _ (by decide)
  · intro op
    cases op <;> exact .operator _ (by decide)

theorem isSpelling_completed : IsSpelling Literal.completed ArithmeticOperator.completedSign where
  begins l := ⟨_, _, rfl, rfl⟩
  ends l := ⟨[_, _, _], _, rfl, rfl⟩
  signs op := by cases op <;> rfl

theorem isChain_parts (w : Writing) : w.completed.IsChain Token.Parts := by
  refine Writing.isChain_spell isSpelling_completed ?_ ?_ ?_ w
  · intro l
    cases l <;> simp [Literal.completed, Token.Parts, argumentToken, Literal.maker]
  · rintro a b ha hb x y rfl rfl
    have hy : y = "(" ∨ y = "-" := by simpa [Token.beginsOperand] using hb
    rcases hy with rfl | rfl <;> simp [StopsAt, Token.goesOn]
  · rintro a b ha hb x y rfl rfl
    obtain rfl : x = ")" := by simpa [Token.endsOperand] using ha
    simp [StopsAt, Token.goesOn]

theorem toList_ne_nil {text : String} (h : text ∈ "**" :: typedOperators) : text.toList ≠ [] := by
  have hall : ∀ text ∈ "**" :: typedOperators, text.toList ≠ [] := by decide
  exact hall text h

/-- Joined operators that make no longer ones are cut where they were joined. -/
theorem cutOperators_flatMap {texts : List String} (htexts : ∀ text ∈ texts, text ∈ "**" :: typedOperators)
    (hchain : (texts.map Token.operator).IsChain Token.Parts) :
    cutOperators (texts.flatMap String.toList) = some (texts.map .operator) := by
  induction texts with
  | nil => simp [cutOperators]
  | cons text rest ih =>
    have htext := htexts text List.mem_cons_self
    have hrest := ih (fun other hother => htexts other (List.mem_cons_of_mem text hother)) hchain.tail
    have hstops : StopsAt (Token.operator text).goesOn (rest.flatMap String.toList) := by
      cases rest with
      | nil => exact stopsAt_nil
      | cons next more =>
        have hnext : next.toList ≠ [] := toList_ne_nil (htexts next (by simp))
        rw [List.map_cons, List.map_cons, List.isChain_cons_cons] at hchain
        have hparts := hchain.1 text next rfl rfl
        intro c hc
        apply hparts c
        rwa [List.flatMap_cons, List.head?_append_of_ne_nil _ hnext] at hc
    have hoperator := operatorAt?_append htext hstops
    rw [List.flatMap_cons, List.map_cons]
    cases hchars : text.toList with
    | nil => exact absurd hchars (toList_ne_nil htext)
    | cons c more =>
      rw [hchars] at hoperator
      rw [List.cons_append] at hoperator ⊢
      rw [cutOperators, hoperator]
      simp only [List.length_cons, Nat.add_sub_cancel, List.drop_left, hrest, Option.map_some]
      rw [← hchars, String.ofList_toList]

/-- The tokens of a writing, behind operators that have been joined already. -/
theorem joinOperators_pending (texts : List String) {ts : List Token}
    (htexts : ∀ text ∈ texts, text ∈ "**" :: typedOperators) (hts : ∀ t ∈ ts, IsComplete t)
    (hchain : (texts.map Token.operator ++ ts).IsChain Token.Parts) :
    joinOperators (texts.flatMap String.toList) false (ts ++ closingTokens) = some (texts.map .operator ++ ts) := by
  induction ts generalizing texts with
  | nil =>
    rw [List.append_nil] at hchain ⊢
    have hcut := cutOperators_flatMap htexts hchain
    simpa [closingTokens, joinOperators] using hcut
  | cons t rest ih =>
    have hrest : ∀ u ∈ rest, IsComplete u := fun u hu => hts u (List.mem_cons_of_mem t hu)
    obtain ⟨hbefore, hbehind, _⟩ := List.isChain_append.mp hchain
    have hcut := cutOperators_flatMap htexts hbefore
    have hjoin : joinOperators [] false (rest ++ closingTokens) = some rest :=
      ih [] (by simp) hrest hbehind.tail
    cases hts t List.mem_cons_self with
    | name word => simp [joinOperators, hcut, hjoin]
    | numeral text h => simp [joinOperators, hcut, hjoin, h]
    | quotation text => simp [joinOperators, hcut, hjoin]
    | operator text h =>
      have hblank : text ≠ " " := by
        rintro rfl
        exact absurd h (by decide)
      have hmore := ih (texts ++ [text]) (by
        intro other hother
        rcases List.mem_append.mp hother with hother | hother
        · exact htexts other hother
        · obtain rfl : other = text := by simpa using hother
          exact h) hrest (by simpa using hchain)
      rw [List.flatMap_append] at hmore
      simpa [joinOperators, hblank] using hmore

/-- The complete tokens of a writing stay as they are. -/
theorem joinOperators_completed (w : Writing) :
    joinOperators [] false (w.completed ++ closingTokens) = some w.completed :=
  joinOperators_pending [] (by simp) isComplete_of_mem_completed (isChain_parts w)

/-! ### Depth of brackets -/

theorem bracketDepth_completed (w : Writing) {depth deepest : Nat} (h : depth ≤ deepest) (rest : List Token) :
    bracketDepth depth deepest (w.completed ++ rest) = bracketDepth depth (max deepest (depth + w.brackets)) rest := by
  unfold Writing.completed
  induction w generalizing depth deepest rest with
  | literal l =>
    cases l <;>
      simp [Writing.spell, Literal.completed, Literal.maker, argumentToken, bracketDepth, Writing.brackets]
  | name word => simp [Writing.spell, bracketDepth, Writing.brackets, h]
  | negation operand ih => simp [Writing.spell, bracketDepth, Writing.brackets, ih h]
  | operation op left right ihl ihr =>
    have hsign (deepest : Nat) (rest : List Token) :
        bracketDepth depth deepest (.operator op.completedSign :: rest) = bracketDepth depth deepest rest := by
      cases op <;> simp [bracketDepth, ArithmeticOperator.completedSign, ArithmeticOperator.sign]
    rw [Writing.spell, List.append_assoc, List.cons_append, ihl h, hsign, ihr (by omega), Writing.brackets]
    congr 1
    omega
  | bracket inside ih =>
    have hopen (rest : List Token) :
        bracketDepth depth deepest (.operator "(" :: rest) =
          bracketDepth (depth + 1) (max deepest (depth + 1)) rest := by
      simp [bracketDepth]
    have hclose (deepest : Nat) (rest : List Token) :
        bracketDepth (depth + 1) deepest (.operator ")" :: rest) = bracketDepth depth deepest rest := by
      simp [bracketDepth]
    rw [Writing.spell, List.cons_append, List.cons_append, List.append_assoc, hopen, ih (by omega), List.cons_append,
      List.nil_append, hclose, Writing.brackets]
    congr 1
    omega

/-! ### Where a reader stops -/

/-- What may stand behind a writing of the given strength: nothing, a closing bracket, or a looser operator. -/
def Stops (strength : Nat) (rest : List Token) : Prop :=
  ∀ t ∈ rest.head?, t = .operator ")" ∨
    ∃ op : ArithmeticOperator, op.strength < strength ∧ t = .operator op.completedSign

theorem stops_nil (strength : Nat) : Stops strength [] := by
  intro t ht
  cases ht

theorem stops_closing (strength : Nat) (rest : List Token) : Stops strength (.operator ")" :: rest) := by
  intro t ht
  obtain rfl : .operator ")" = t := by simpa using ht
  exact .inl rfl

theorem stops_operator {strength : Nat} {op : ArithmeticOperator} (h : op.strength < strength) (rest : List Token) :
    Stops strength (.operator op.completedSign :: rest) := by
  intro t ht
  obtain rfl : .operator op.completedSign = t := by simpa using ht
  exact .inr ⟨op, h, rfl⟩

theorem Stops.mono {strength other : Nat} {rest : List Token} (h : Stops strength rest) (hle : strength ≤ other) :
    Stops other rest := by
  intro t ht
  rcases h t ht with rfl | ⟨op, hop, rfl⟩
  · exact .inl rfl
  · exact .inr ⟨op, Nat.lt_of_lt_of_le hop hle, rfl⟩

theorem Stops.cases {strength : Nat} {rest : List Token} (h : Stops strength rest) :
    rest = [] ∨ (∃ more, rest = .operator ")" :: more) ∨
      ∃ op more, op.strength < strength ∧ rest = .operator (ArithmeticOperator.completedSign op) :: more := by
  cases rest with
  | nil => exact .inl rfl
  | cons t more =>
    rcases h t (by simp) with rfl | ⟨op, hop, rfl⟩
    · exact .inr (.inl ⟨more, rfl⟩)
    · exact .inr (.inr ⟨op, more, hop, rfl⟩)

section Stopping

variable {strength : Nat} {rest : List Token}

/-- Neither a call nor a subscript nor a member goes on with an atom. -/
def EndsPrimary (rest : List Token) : Prop :=
  ∀ t ∈ rest.head?, t ∉ [.operator "(", .operator "[", .operator "."]

theorem Stops.endsPrimary (h : Stops strength rest) : EndsPrimary rest := by
  rcases h.cases with rfl | ⟨more, rfl⟩ | ⟨op, more, _, rfl⟩
  · simp [EndsPrimary]
  · simp [EndsPrimary]
  · cases op <;> simp [EndsPrimary, ArithmeticOperator.completedSign, ArithmeticOperator.sign]

theorem readTrailers_of_endsPrimary (h : EndsPrimary rest) (n : Nat) (f : Formula) :
    readTrailers (n + 1) f rest = some (f, rest) := by
  unfold readTrailers
  dsimp only
  split
  · exact absurd (by simp) (h _ rfl)
  · exact absurd (by simp) (h _ rfl)
  · exact absurd (by simp) (h _ rfl)
  · rfl

/-- The sign of a power is no looser than a power. -/
theorem Stops.ne_power (h : Stops 3 rest) (more : List Token) : rest ≠ .operator "**" :: more := by
  rcases h.cases with rfl | ⟨other, rfl⟩ | ⟨op, other, hop, rfl⟩
  · simp
  · simp
  · cases op <;> simp_all [ArithmeticOperator.completedSign, ArithmeticOperator.sign, ArithmeticOperator.strength]

/-- The sign of a looser operator is no operator of a level. -/
theorem binaryOperator?_completedSign {level : Nat} {op : ArithmeticOperator}
    (h : level < 3 ∨ op.strength + 3 < level) :
    binaryOperator? level op.completedSign = none := by
  unfold binaryOperator?
  split
  case h_12 => rfl
  all_goals
    rename_i heq
    cases op <;>
      simp_all [ArithmeticOperator.completedSign, ArithmeticOperator.sign, ArithmeticOperator.strength]

theorem readBinaryRest_of_stops {level : Nat} (h : Stops strength rest) (hlevel : level < 3 ∨ level = strength + 3)
    (n : Nat) (f : Formula) : readBinaryRest (n + 1) level f rest = some (f, rest) := by
  have hclosing : binaryOperator? level ")" = none := by simp [binaryOperator?]
  have hsign {op : ArithmeticOperator} (hop : op.strength < strength) :
      binaryOperator? level op.completedSign = none := by
    refine binaryOperator?_completedSign ?_
    omega
  rcases h.cases with rfl | ⟨more, rfl⟩ | ⟨op, more, hop, rfl⟩
  · simp [readBinaryRest]
  · simp [readBinaryRest, hclosing]
  · simp [readBinaryRest, hsign hop]

theorem comparator?_of_stops (h : Stops strength rest) : comparator? rest = none := by
  rcases h.cases with rfl | ⟨more, rfl⟩ | ⟨op, more, _, rfl⟩
  · rfl
  · rfl
  · cases op <;> rfl

theorem readOperands_of_stops (h : Stops strength rest) (n : Nat) (isConjunction : Bool) :
    readOperands (n + 1) isConjunction rest = some ([], rest) := by
  rcases h.cases with rfl | ⟨more, rfl⟩ | ⟨op, more, _, rfl⟩
  · rfl
  · rfl
  · rfl

theorem readMoreItems_of_stops (h : Stops strength rest) (n : Nat) (f : Formula) :
    readMoreItems (n + 1) f rest = some ([f], false, rest) := by
  rcases h.cases with rfl | ⟨more, rfl⟩ | ⟨op, more, _, rfl⟩
  · rfl
  · rfl
  · cases op <;> rfl

end Stopping

/-! ### From one reader to the next -/

/-- With enough calls to make, a reader takes a formula from the front of some tokens. -/
def Takes (reader : Nat → List Token → Reading) (bound : Nat) (s : List Token) (f : Formula) (rest : List Token) :
    Prop :=
  ∀ n, bound ≤ n → reader n s = some (f, rest)

namespace Takes

variable {reader : Nat → List Token → Reading} {bound strength level : Nat} {s rest : List Token} {f : Formula}

theorem mono (h : Takes reader bound s f rest) {other : Nat} (hle : bound ≤ other) : Takes reader other s f rest :=
  fun n hn => h n (Nat.le_trans hle hn)

theorem pos (h : Takes reader bound s f rest) (hreader : reader 0 s = none) : 0 < bound := by
  rcases Nat.eq_zero_or_pos bound with rfl | hpos
  · rw [h 0 (Nat.le_refl 0)] at hreader
    cases hreader
  · exact hpos

theorem power (h : Takes readPrimary bound s f rest) (hrest : ∀ more, rest ≠ .operator "**" :: more) :
    Takes readPower (bound + 1) s f rest := by
  intro n hn
  obtain ⟨m, rfl⟩ : ∃ m, n = m + 1 := ⟨n - 1, by omega⟩
  rw [readPower, h m (by omega)]
  simp only [Option.bind_eq_bind, Option.bind_some]
  rfl

theorem signed (h : Takes readPower bound s f rest) (hs : unaryOperator? s = none) :
    Takes readSigned (bound + 1) s f rest := by
  intro n hn
  obtain ⟨m, rfl⟩ : ∃ m, n = m + 1 := ⟨n - 1, by omega⟩
  simp [readSigned, hs, h m (by omega)]

theorem tightest (h : Takes readSigned bound s f rest) : Takes (readBinary · 5) (bound + 1) s f rest := by
  intro n hn
  obtain ⟨m, rfl⟩ : ∃ m, n = m + 1 := ⟨n - 1, by omega⟩
  simp [readBinary, h m (by omega)]

/-- A single operand is taken at every looser level at which nothing goes on. -/
theorem binary (h : Takes (readBinary · (level + 1)) bound s f rest) (hlevel : level < 5)
    (hrest : ∀ n, readBinaryRest (n + 1) level f rest = some (f, rest)) :
    Takes (readBinary · level) (bound + 1) s f rest := by
  intro n hn
  have hpos := h.pos rfl
  obtain ⟨m, rfl⟩ : ∃ m, n = m + 2 := ⟨n - 2, by omega⟩
  have hfirst : readBinary (m + 1) (level + 1) s = some (f, rest) := h (m + 1) (by omega)
  have hne : level ≠ 5 := by omega
  change readBinary (m + 2) level s = some (f, rest)
  rw [readBinary, if_neg hne, hfirst]
  exact hrest m

theorem comparison (h : Takes (readBinary · 0) bound s f rest) (hrest : Stops strength rest) :
    Takes readComparison (bound + 1) s f rest := by
  intro n hn
  have hpos := h.pos rfl
  obtain ⟨m, rfl⟩ : ∃ m, n = m + 2 := ⟨n - 2, by omega⟩
  have hfirst : readBinary (m + 1) 0 s = some (f, rest) := h (m + 1) (by omega)
  simp [readComparison, hfirst, readComparands, comparator?_of_stops hrest]

theorem negation (h : Takes readComparison bound s f rest) (hs : ∀ more, s ≠ .name "not" :: more) :
    Takes readNegation (bound + 1) s f rest := by
  intro n hn
  obtain ⟨m, rfl⟩ : ∃ m, n = m + 1 := ⟨n - 1, by omega⟩
  rw [readNegation]
  · exact h m (by omega)
  · exact hs

theorem conjunction (h : Takes readNegation bound s f rest) (hrest : Stops strength rest) :
    Takes (readJunction · true) (bound + 1) s f rest := by
  intro n hn
  have hpos := h.pos rfl
  obtain ⟨m, rfl⟩ : ∃ m, n = m + 2 := ⟨n - 2, by omega⟩
  have hfirst := h (m + 1) (by omega)
  simp [readJunction, hfirst, readOperands_of_stops hrest]

theorem disjunction (h : Takes (readJunction · true) bound s f rest) (hrest : Stops strength rest) :
    Takes (readJunction · false) (bound + 1) s f rest := by
  intro n hn
  have hpos := h.pos rfl
  obtain ⟨m, rfl⟩ : ∃ m, n = m + 2 := ⟨n - 2, by omega⟩
  have hfirst : readJunction (m + 1) true s = some (f, rest) := h (m + 1) (by omega)
  change readJunction (m + 2) false s = some (f, rest)
  rw [readJunction]
  simp [hfirst, readOperands_of_stops hrest]

theorem conditional (h : Takes (readJunction · false) bound s f rest) (hrest : Stops strength rest) :
    Takes readConditional (bound + 1) s f rest := by
  intro n hn
  obtain ⟨m, rfl⟩ : ∃ m, n = m + 1 := ⟨n - 1, by omega⟩
  have hfirst : readJunction m false s = some (f, rest) := h m (by omega)
  rcases hrest.cases with rfl | ⟨more, rfl⟩ | ⟨op, more, _, rfl⟩ <;> simp [readConditional, hfirst]

theorem list (h : Takes readConditional bound s f rest) (hrest : Stops strength rest) :
    Takes readList (bound + 2) s f rest := by
  intro n hn
  have hpos := h.pos rfl
  obtain ⟨m, rfl⟩ : ∃ m, n = m + 3 := ⟨n - 3, by omega⟩
  simp [readList, readItems, h (m + 1) (by omega), readMoreItems_of_stops hrest]

/-- What is taken as a sum is taken as a condition. -/
theorem conditional_of_sum (h : Takes (readBinary · 3) bound s f rest) (hrest : Stops strength rest)
    (hs : ∀ more, s ≠ .name "not" :: more) : Takes readConditional (bound + 8) s f rest := by
  have hlevel {level : Nat} (hlevel : level < 3) (n : Nat) : readBinaryRest (n + 1) level f rest = some (f, rest) :=
    readBinaryRest_of_stops hrest (.inl hlevel) n f
  have hloosest : Takes (readBinary · 0) (bound + 3) s f rest :=
    ((h.binary (by decide) (hlevel (by decide))).binary (by decide) (hlevel (by decide))).binary (by decide)
      (hlevel (by decide))
  exact ((((hloosest.comparison hrest).negation hs).conjunction hrest).disjunction hrest).conditional hrest

end Takes

end Reckoner.Expression
