import Reckoner.Proofs.Expression.Reading

/-!
# Formulas of grouped writings

A grouped writing is read as the formula of its expression, with the operands that the strengths of the operators give
it.  Sums and products are read from the left with the formula so far as the left operand, so the writing of such an
operator hands over to the reader of further operands with exactly the formula of its left part.
-/

namespace Reckoner.Expression

open Reckoner.Text

/-! ### Formulas of expressions -/

def ArithmeticOperator.binary : ArithmeticOperator → BinaryOperator
  | add => .add
  | sub => .sub
  | mul => .mul
  | div => .div
  | power => .power

/-- The number or the text that a literal is made of. -/
def Literal.argument : Literal → Formula
  | whole n => .numeral n
  | decimal front fraction => .quotation (String.ofList (decimal front fraction).text)

def Arithmetic.formula : Arithmetic → Formula
  | literal l => .call (.name l.exactWord) [""] [l.argument]
  | name word => .name word
  | negation operand => .unary .minus (formula operand)
  | operation op left right => .binary op.binary (formula left) (formula right)

/-! ### Words and brackets -/

section Atoms

variable {rest : List Token}

theorem wordFormula?_of_not_keyword {word : String} (h : isKeyword word = false) :
    wordFormula? word = some (.name word) := by
  unfold wordFormula?
  split
  · exact absurd h (by decide)
  · exact absurd h (by decide)
  · exact absurd h (by decide)
  · simp [h]

/-- Something that is read as an atom stands alone in front of what no trailer begins. -/
theorem takes_primary {bound : Nat} {s : List Token} {f : Formula} (h : Takes readAtom bound s f rest)
    (hrest : EndsPrimary rest) : Takes readPrimary (bound + 1) s f rest := by
  intro n hn
  have hpos := h.pos rfl
  obtain ⟨m, rfl⟩ : ∃ m, n = m + 2 := ⟨n - 2, by omega⟩
  simp [readPrimary, h (m + 1) (by omega), readTrailers_of_endsPrimary hrest]

theorem takes_name {word : String} (h : isKeyword word = false) (rest : List Token) :
    Takes readAtom 1 (.name word :: rest) (.name word) rest := by
  intro n hn
  obtain ⟨m, rfl⟩ : ∃ m, n = m + 1 := ⟨n - 1, by omega⟩
  simp [readAtom, wordFormula?_of_not_keyword h]

theorem takes_bracket {bound : Nat} {s : List Token} {f : Formula}
    (h : Takes readList bound s f (.operator ")" :: rest)) (hclosing : ∀ more, s ≠ .operator ")" :: more)
    (hbinding : ∀ word more, s ≠ .name word :: .operator ":=" :: more) :
    Takes readAtom (bound + 1) (.operator "(" :: s) f rest := by
  intro n hn
  obtain ⟨m, rfl⟩ : ∃ m, n = m + 1 := ⟨n - 1, by omega⟩
  rw [readAtom]
  · simp [h m (by omega)]
  · intro more heq
    exact hclosing more heq
  · intro word more heq
    exact hbinding word more heq

theorem takes_argument {l : Literal} (hl : l.IsReadable) :
    Takes readAtom 1 (argumentToken l.maker (String.ofList l.text) :: .operator ")" :: rest) l.argument
      (.operator ")" :: rest) := by
  intro n hn
  obtain ⟨m, rfl⟩ : ∃ m, n = m + 1 := ⟨n - 1, by omega⟩
  cases l with
  | whole n =>
    have hvalue : wholeValue? (digitsOfNat n) = some n := wholeValue?_digitsOfNat hl
    simp [Literal.maker, argumentToken, Literal.text, Literal.argument, readAtom, hvalue]
  | decimal front fraction => simp [Literal.maker, argumentToken, Literal.argument, readAtom, joinQuotations]

theorem readArguments_single {bound : Nat} {t : Token} {s : List Token} {f : Formula}
    (h : Takes readConditional bound (t :: s) f (.operator ")" :: rest)) (ht : ∀ text, t ≠ .operator text)
    (hname : ∀ word, t ≠ .name word) {n : Nat} (hn : bound + 1 ≤ n) :
    readArguments n false (t :: s) = some ([""], [f], rest) := by
  obtain ⟨m, rfl⟩ : ∃ m, n = m + 1 := ⟨n - 1, by omega⟩
  rw [readArguments]
  · simp [h m (by omega)]
  · intro more heq
    exact ht _ (List.cons.inj heq).1
  · intro more heq
    exact ht _ (List.cons.inj heq).1
  · intro more heq
    exact ht _ (List.cons.inj heq).1
  · intro word more heq
    exact hname _ (List.cons.inj heq).1

/-- A function applied to one argument, which is neither a name nor an operator. -/
theorem takes_call {word : String} {t : Token} {f : Formula} (hword : isKeyword word = false)
    (hargument : Takes readAtom 1 (t :: .operator ")" :: rest) f (.operator ")" :: rest))
    (hoperator : ∀ text, t ≠ .operator text) (hname : ∀ word, t ≠ .name word)
    (hrest : EndsPrimary rest) :
    Takes readPrimary 20 (.name word :: .operator "(" :: t :: .operator ")" :: rest) (.call (.name word) [""] [f])
      rest := by
  intro n hn
  obtain ⟨m, rfl⟩ : ∃ m, n = m + 3 := ⟨n - 3, by omega⟩
  have hunary : unaryOperator? (t :: .operator ")" :: rest) = none := by
    cases t with
    | operator text => exact absurd rfl (hoperator text)
    | _ => rfl
  have hclosing {level : Nat} (hlevel : level = 4 ∨ level = 3) (n : Nat) :
      readBinaryRest (n + 1) level f (.operator ")" :: rest) = some (f, .operator ")" :: rest) := by
    rcases hlevel with rfl | rfl
    · exact readBinaryRest_of_stops (stops_closing 1 rest) (.inr rfl) n _
    · exact readBinaryRest_of_stops (stops_closing 0 rest) (.inr rfl) n _
  have hprimary := takes_primary hargument (stops_closing 0 rest).endsPrimary
  have hproduct := ((hprimary.power (stops_closing 3 rest).ne_power).signed hunary).tightest.binary (by decide)
    (hclosing (.inl rfl))
  have hsum := hproduct.binary
    (by decide) (hclosing (.inr rfl))
  have hconditional := hsum.conditional_of_sum (stops_closing 0 rest) fun more heq =>
    hname _ (List.cons.inj heq).1
  have hatom := takes_name hword (.operator "(" :: t :: .operator ")" :: rest) (m + 2) (by omega)
  have harguments := readArguments_single hconditional hoperator hname (n := m + 1) (by omega)
  have htrailers := readTrailers_of_endsPrimary hrest m (.call (.name word) [""] [f])
  simp only [readPrimary, hatom, Option.bind_eq_bind, Option.bind_some]
  rw [readTrailers]
  simp [harguments, htrailers]

theorem takes_literal {l : Literal} (hl : l.IsReadable) {strength : Nat} (hrest : Stops strength rest) :
    Takes readPrimary 20 (l.completed ++ rest) (Arithmetic.literal l).formula rest := by
  have hoperator (text : String) : argumentToken l.maker (String.ofList l.text) ≠ .operator text := by
    cases l <;> simp [Literal.maker, argumentToken]
  have hname (word : String) : argumentToken l.maker (String.ofList l.text) ≠ .name word := by
    cases l <;> simp [Literal.maker, argumentToken]
  have hword : isKeyword l.exactWord = false := by cases l <;> rfl
  exact takes_call hword (takes_argument hl) hoperator hname hrest.endsPrimary

end Atoms

/-! ### Whole programs -/

section Programs

variable {s : List Token} {f : Formula}

/-- Tokens that begin with no keyword are a statement if they are read as a list. -/
theorem readStatement_of_readList {n : Nat} (hlist : readList n s = some (f, []))
    (hkeyword : ∀ word more, isKeyword word → s ≠ .name word :: more) :
    readStatement n s = some (true, some f, []) := by
  unfold readStatement
  split
  case h_8 => simp [hlist]
  -- the other statements begin with a keyword
  all_goals exact absurd rfl (hkeyword _ _ (by decide))

/-- Tokens in which no operators were torn apart are an expression if they are read as a list. -/
theorem read?_of_readList (hjoined : joinOperators [] false (s ++ closingTokens) = some s)
    (hdepth : bracketDepth 0 0 s ≤ bracketLimit) (hlist : readList (readingFuel s) s = some (f, [])) (hne : s ≠ [])
    (hkeyword : ∀ word more, isKeyword word → s ≠ .name word :: more)
    (hend : ∀ visible more, s ≠ .lineEnd visible :: more) :
    Program.read? (s ++ closingTokens) = some (.expression f) := by
  have hstart {p : Token → Bool} (hp : ∀ t ∈ s.head?, p t = false) : s.dropWhile p = s := by
    cases s with
    | nil => rfl
    | cons t more => rw [List.dropWhile_cons_of_neg (by simp [hp t (by simp)])]
  have hempty : s.isEmpty = false := by simpa using hne
  have hlimit : ¬ bracketLimit < bracketDepth 0 0 s := by omega
  rw [Program.read?, hjoined]
  simp only [Option.bind_eq_bind, Option.bind_some, hlimit, if_false]
  rw [hstart]
  · simp only [hempty, Bool.false_eq_true, if_false, readStatement_of_readList hlist hkeyword, Option.bind_some]
    rfl
  · intro t ht
    cases s with
    | nil => cases ht
    | cons first more =>
      obtain rfl : first = t := by simpa using ht
      cases first with
      | lineEnd visible => exact absurd rfl (hend visible more)
      | _ => rfl

end Programs

/-! ### Grouped writings -/

namespace Writing

/-- How many operators of one strength follow each other down the left operands. -/
def spine (strength : Nat) : Writing → Nat
  | operation op left _ => if op.strength = strength then spine strength left + 1 else 0
  | _ => 0

/-- Calls that suffice to read a writing. -/
def cost (w : Writing) : Nat := 20 * w.completed.length

theorem length_completed_operation (op : ArithmeticOperator) (left right : Writing) :
    (operation op left right).completed.length = left.completed.length + right.completed.length + 1 := by
  simp only [completed, spell, List.length_append, List.length_cons]
  omega

theorem length_completed_bracket (inside : Writing) :
    (bracket inside).completed.length = inside.completed.length + 2 := by
  simp [completed, spell]

theorem length_completed_negation (operand : Writing) :
    (negation operand).completed.length = operand.completed.length + 1 := by
  simp [completed, spell]

theorem spine_le_length (strength : Nat) (w : Writing) : w.spine strength ≤ w.completed.length := by
  induction w with
  | operation op left right ihl _ =>
    rw [spine, length_completed_operation]
    split <;> omega
  | _ => simp [spine]

theorem spine_eq_zero {strength : Nat} {w : Writing} (h : strength < w.strength) : w.spine strength = 0 := by
  cases w with
  | operation op left right =>
    rw [spine, if_neg]
    rw [Writing.strength] at h
    omega
  | _ => rfl

/-- No sign begins a writing that holds together as tightly as a power. -/
theorem unaryOperator?_completed {w : Writing} (hw : w.IsGrouped) (h : 3 ≤ w.strength) (rest : List Token) :
    unaryOperator? (w.completed ++ rest) = none := by
  unfold completed
  induction w generalizing rest with
  | literal l => rfl
  | name word => rfl
  | negation operand => simp [strength] at h
  | operation op left right ihl _ =>
    have hleft : 3 ≤ left.strength := by
      have hstrength := hw.1
      cases op <;> simp_all [strength, ArithmeticOperator.strength, ArithmeticOperator.leftStrength]
      omega
    rw [spell, List.append_assoc]
    exact ihl hw.2.2.1 hleft _
  | bracket inside => rfl

/-- A writing and a closing bracket look like neither an empty list nor a binding. -/
theorem completed_ne (w : Writing) (rest : List Token) :
    (∀ more, w.completed ++ .operator ")" :: rest ≠ .operator ")" :: more) ∧
      (∀ word more, w.completed ++ .operator ")" :: rest ≠ .name word :: .operator ":=" :: more) := by
  obtain ⟨t, more, hw, ht⟩ : ∃ t more, w.completed = t :: more ∧ t.beginsOperand := w.spell_begins isSpelling_completed
  constructor
  · intro others heq
    rw [hw, List.cons_append] at heq
    obtain ⟨rfl, -⟩ := List.cons.inj heq
    cases ht
  · intro word others heq
    rw [hw, List.cons_append] at heq
    have hsecond := (List.cons.inj heq).2
    cases more with
    | nil => simp at hsecond
    | cons u more =>
      obtain ⟨rfl, -⟩ := List.cons.inj hsecond
      have hcomplete := isComplete_of_mem_completed (w := w) (.operator ":=") (by simp [hw])
      cases hcomplete with
      | operator text h => exact absurd h (by decide)

theorem completed_ne_keyword {w : Writing} (hnames : ∀ word ∈ w.tree.names, isKeyword word = false) {word : String}
    (hword : isKeyword word) (rest more : List Token) : w.completed ++ rest ≠ .name word :: more := by
  unfold completed
  induction w generalizing rest with
  | literal l =>
    cases l <;> rintro heq <;> simp only [spell, Literal.completed, Literal.exactWord, List.cons_append,
      List.cons.injEq, Token.name.injEq] at heq <;> rw [← heq.1] at hword <;> exact absurd hword (by decide)
  | name other =>
    intro heq
    simp only [spell, List.cons_append, List.cons.injEq, Token.name.injEq] at heq
    rw [← heq.1, hnames other (by simp [tree, Arithmetic.names])] at hword
    cases hword
  | negation operand => simp [spell]
  | operation op left right ihl _ =>
    rw [spell, List.append_assoc]
    exact ihl (fun name hname => hnames name (List.mem_append_left _ hname)) _
  | bracket inside => simp [spell]

/-- How a writing is read at the strengths that it reaches.  At the strength of products and of sums, the reader hands
    over to the reader of further operands. -/
structure Reads (w : Writing) : Prop where
  primary (h : 4 ≤ w.strength) {rest : List Token} (hrest : Stops 4 rest) :
    Takes readPrimary w.cost (w.completed ++ rest) w.tree.formula rest
  signed (h : 2 ≤ w.strength) {rest : List Token} (hrest : Stops 3 rest) :
    Takes readSigned (w.cost + 2) (w.completed ++ rest) w.tree.formula rest
  product (h : 1 ≤ w.strength) {rest : List Token} (hrest : Stops 2 rest) {n : Nat} (hn : w.cost + 3 ≤ n + w.spine 1) :
    readBinary (n + w.spine 1 + 1) 4 (w.completed ++ rest) = readBinaryRest n 4 w.tree.formula rest
  sum {rest : List Token} (hrest : Stops 1 rest) {n : Nat} (hn : w.cost + 5 ≤ n + w.spine 0) :
    readBinary (n + w.spine 0 + 1) 3 (w.completed ++ rest) = readBinaryRest n 3 w.tree.formula rest

namespace Reads

variable {w : Writing}

theorem takesProduct (hw : Reads w) (h : 1 ≤ w.strength) {rest : List Token} (hrest : Stops 1 rest) :
    Takes (readBinary · 4) (w.cost + 5) (w.completed ++ rest) w.tree.formula rest := by
  intro n hn
  have hspine := w.spine_le_length 1
  have hcost : w.cost = 20 * w.completed.length := rfl
  obtain ⟨m, rfl⟩ : ∃ m, n = m + 1 + w.spine 1 + 1 := ⟨n - 2 - w.spine 1, by omega⟩
  change readBinary (m + 1 + w.spine 1 + 1) 4 (w.completed ++ rest) = _
  rw [hw.product h (hrest.mono (by decide)) (by omega)]
  exact readBinaryRest_of_stops hrest (.inr rfl) m _

theorem takesSum (hw : Reads w) {rest : List Token} (hrest : Stops 0 rest) :
    Takes (readBinary · 3) (w.cost + 7) (w.completed ++ rest) w.tree.formula rest := by
  intro n hn
  have hspine := w.spine_le_length 0
  have hcost : w.cost = 20 * w.completed.length := rfl
  obtain ⟨m, rfl⟩ : ∃ m, n = m + 1 + w.spine 0 + 1 := ⟨n - 2 - w.spine 0, by omega⟩
  change readBinary (m + 1 + w.spine 0 + 1) 3 (w.completed ++ rest) = _
  rw [hw.sum (hrest.mono (by decide)) (by omega)]
  exact readBinaryRest_of_stops hrest (.inr rfl) m _

/-- A writing that is tighter than a sum and is read as a product is read as a sum of one operand. -/
theorem of_product (h : 1 ≤ w.strength)
    (hprimary : 4 ≤ w.strength → ∀ {rest : List Token}, Stops 4 rest →
      Takes readPrimary w.cost (w.completed ++ rest) w.tree.formula rest)
    (hsigned : 2 ≤ w.strength → ∀ {rest : List Token}, Stops 3 rest →
      Takes readSigned (w.cost + 2) (w.completed ++ rest) w.tree.formula rest)
    (hproduct : ∀ {rest : List Token}, Stops 2 rest → ∀ {n : Nat}, w.cost + 3 ≤ n + w.spine 1 →
      readBinary (n + w.spine 1 + 1) 4 (w.completed ++ rest) = readBinaryRest n 4 w.tree.formula rest) :
    Reads w where
  primary := hprimary
  signed := hsigned
  product _ := hproduct
  sum {rest} hrest {n} hn := by
    have hspine := w.spine_le_length 1
    have hcost : w.cost = 20 * w.completed.length := rfl
    have hnone : w.spine 0 = 0 := spine_eq_zero h
    obtain ⟨m, rfl⟩ : ∃ m, n = m + 1 + w.spine 1 + 1 := ⟨n - 2 - w.spine 1, by omega⟩
    have hoperand : readBinary (m + 1 + w.spine 1 + 1) 4 (w.completed ++ rest) = some (w.tree.formula, rest) := by
      rw [hproduct (hrest.mono (by decide)) (by omega)]
      exact readBinaryRest_of_stops hrest (.inr rfl) m _
    rw [hnone, readBinary, if_neg (by decide), Nat.add_zero, hoperand]
    rfl

/-- A writing that is tighter than a product and is read behind a sign is read as a product of one operand. -/
theorem of_signed (h : 2 ≤ w.strength)
    (hprimary : 4 ≤ w.strength → ∀ {rest : List Token}, Stops 4 rest →
      Takes readPrimary w.cost (w.completed ++ rest) w.tree.formula rest)
    (hsigned : ∀ {rest : List Token}, Stops 3 rest →
      Takes readSigned (w.cost + 2) (w.completed ++ rest) w.tree.formula rest) : Reads w := by
  apply of_product (by omega) hprimary (fun _ => hsigned)
  intro rest hrest n hn
  have hnone : w.spine 1 = 0 := spine_eq_zero h
  have hoperand : readBinary n 5 (w.completed ++ rest) = some (w.tree.formula, rest) :=
    (hsigned (hrest.mono (by decide))).tightest n (by omega)
  rw [hnone, readBinary, if_neg (by decide), Nat.add_zero, hoperand]
  rfl

/-- A writing that is read as an operand of a power is read at every strength. -/
theorem of_primary (hgrouped : w.IsGrouped) (h : 4 ≤ w.strength)
    (hprimary : ∀ {rest : List Token}, Stops 4 rest →
      Takes readPrimary w.cost (w.completed ++ rest) w.tree.formula rest) : Reads w := by
  apply of_signed (by omega) (fun _ => hprimary)
  intro rest hrest
  exact ((hprimary (hrest.mono (by decide))).power hrest.ne_power).signed (unaryOperator?_completed hgrouped (by omega) rest)

end Reads

/-! ### One case for every kind of writing -/

theorem reads_literal {l : Literal} (hl : l.IsReadable) : Reads (literal l) := by
  refine Reads.of_primary trivial (Nat.le_refl 4) ?_
  intro rest hrest
  exact (takes_literal hl hrest).mono (by simp [cost, completed, spell, Literal.completed])

theorem reads_name {word : String} (hword : isKeyword word = false) : Reads (name word) := by
  refine Reads.of_primary trivial (Nat.le_refl 4) ?_
  intro rest hrest
  exact (takes_primary (takes_name hword rest) hrest.endsPrimary).mono (by simp [cost, completed, spell])

theorem reads_bracket {inside : Writing} (hgrouped : inside.IsGrouped)
    (hnames : ∀ word ∈ inside.tree.names, isKeyword word = false) (ih : Reads inside) : Reads (bracket inside) := by
  refine Reads.of_primary hgrouped (Nat.le_refl 4) ?_
  intro rest hrest
  have hcost : (bracket inside).cost = inside.cost + 40 := by
    rw [cost, cost, length_completed_bracket]
    omega
  have hcompleted : (bracket inside).completed ++ rest =
      .operator "(" :: (inside.completed ++ .operator ")" :: rest) := by
    simp [completed, spell]
  obtain ⟨hclosing, hbinding⟩ := inside.completed_ne rest
  have hsum := ih.takesSum (stops_closing 0 rest)
  have hconditional := hsum.conditional_of_sum (stops_closing 0 rest) (completed_ne_keyword hnames (by decide) _)
  have hlist := hconditional.list (stops_closing 0 rest)
  rw [hcompleted]
  exact (takes_primary (takes_bracket hlist hclosing hbinding) hrest.endsPrimary).mono (by omega)

theorem reads_negation {operand : Writing} (hgrouped : (negation operand).IsGrouped) (ih : Reads operand) :
    Reads (negation operand) := by
  refine Reads.of_signed (Nat.le_refl 2) (fun h => absurd h (by simp [strength])) ?_
  intro rest hrest n hn
  have hcost : (negation operand).cost = operand.cost + 20 := by
    rw [cost, cost, length_completed_negation]
    omega
  obtain ⟨m, rfl⟩ : ∃ m, n = m + 1 := ⟨n - 1, by omega⟩
  have hoperand := ih.signed hgrouped.1 hrest m (by omega)
  have hcompleted : (negation operand).completed ++ rest = .operator "-" :: (operand.completed ++ rest) := rfl
  simp [hcompleted, readSigned, unaryOperator?, hoperand, tree, Arithmetic.formula]

section Operations

variable {op : ArithmeticOperator} {left right : Writing}

theorem cost_operation : (operation op left right).cost = left.cost + right.cost + 20 := by
  rw [cost, cost, cost, length_completed_operation]
  omega

theorem completed_operation (rest : List Token) : (operation op left right).completed ++ rest =
    left.completed ++ .operator op.completedSign :: (right.completed ++ rest) := by
  simp [completed, spell]

theorem reads_power (hgrouped : (operation .power left right).IsGrouped) (ihl : Reads left) (ihr : Reads right) :
    Reads (operation .power left right) := by
  obtain ⟨hleft, hright, _, _⟩ := id hgrouped
  have hstrength : (operation .power left right).strength = 3 := rfl
  refine Reads.of_signed (by omega) (fun h => absurd h (by omega)) ?_
  intro rest hrest
  have hpower : Takes readPower ((operation .power left right).cost + 1)
      ((operation .power left right).completed ++ rest) (operation .power left right).tree.formula rest := by
    intro n hn
    rw [cost_operation] at hn
    obtain ⟨m, rfl⟩ : ∃ m, n = m + 1 := ⟨n - 1, by omega⟩
    have hstops : Stops 4 (.operator ArithmeticOperator.power.completedSign :: (right.completed ++ rest)) :=
      stops_operator (by decide) _
    have hbase := ihl.primary hleft hstops m (by omega)
    have hexponent := ihr.signed hright hrest m (by omega)
    rw [completed_operation, readPower, hbase]
    simp [ArithmeticOperator.completedSign, hexponent, tree, Arithmetic.formula, ArithmeticOperator.binary]
  exact hpower.signed (unaryOperator?_completed hgrouped (by omega) rest)

theorem reads_product (hop : op.strength = 1) (hgrouped : (operation op left right).IsGrouped) (ihl : Reads left)
    (ihr : Reads right) : Reads (operation op left right) := by
  have hstrength : (operation op left right).strength = 1 := hop
  have hbinary : binaryOperator? 4 op.completedSign = some op.binary := by cases op <;> first | rfl | cases hop
  have hplaces : op.leftStrength = 1 ∧ op.rightStrength = 2 := by cases op <;> first | exact ⟨rfl, rfl⟩ | cases hop
  obtain ⟨hleft, hright, _, _⟩ := hgrouped
  refine Reads.of_product (by omega) (fun h => absurd h (by omega)) (fun h => absurd h (by omega)) ?_
  intro rest hrest n hn
  have hspine : (operation op left right).spine 1 = left.spine 1 + 1 := by rw [spine, if_pos hop]
  have hshort := left.spine_le_length 1
  have hcost : left.cost = 20 * left.completed.length := rfl
  rw [hspine, cost_operation] at hn
  have hstops : Stops 2 (.operator op.completedSign :: (right.completed ++ rest)) :=
    stops_operator (hop.trans_lt (by decide)) _
  have hfirst := ihl.product (by omega) hstops (n := n + 1) (by omega)
  have hsecond : readBinary n 5 (right.completed ++ rest) = some (right.tree.formula, rest) :=
    (ihr.signed (by omega) (hrest.mono (by decide))).tightest n (by omega)
  have hcalls : n + (operation op left right).spine 1 + 1 = n + 1 + left.spine 1 + 1 := by omega
  rw [hcalls, completed_operation, hfirst, readBinaryRest]
  simp [hbinary, hsecond, tree, Arithmetic.formula]

theorem reads_sum (hop : op.strength = 0) (hgrouped : (operation op left right).IsGrouped) (ihl : Reads left)
    (ihr : Reads right) : Reads (operation op left right) := by
  have hstrength : (operation op left right).strength = 0 := hop
  have hbinary : binaryOperator? 3 op.completedSign = some op.binary := by cases op <;> first | rfl | cases hop
  have hplace : op.rightStrength = 1 := by cases op <;> first | rfl | cases hop
  obtain ⟨_, hright, _, _⟩ := hgrouped
  refine ⟨fun h => absurd h (by omega), fun h => absurd h (by omega), fun h => absurd h (by omega), ?_⟩
  intro rest hrest n hn
  have hspine : (operation op left right).spine 0 = left.spine 0 + 1 := by rw [spine, if_pos hop]
  have hshort := left.spine_le_length 0
  have hcost : left.cost = 20 * left.completed.length := rfl
  rw [hspine, cost_operation] at hn
  have hstops : Stops 1 (.operator op.completedSign :: (right.completed ++ rest)) :=
    stops_operator (hop.trans_lt (by decide)) _
  have hfirst := ihl.sum hstops (n := n + 1) (by omega)
  have hsecond : readBinary n 4 (right.completed ++ rest) = some (right.tree.formula, rest) :=
    ihr.takesProduct (by omega) hrest n (by omega)
  have hcalls : n + (operation op left right).spine 0 + 1 = n + 1 + left.spine 0 + 1 := by omega
  rw [hcalls, completed_operation, hfirst, readBinaryRest]
  simp [hbinary, hsecond, tree, Arithmetic.formula]

end Operations

/-- A grouped writing is read at every strength that it reaches. -/
theorem reads {w : Writing} (hgrouped : w.IsGrouped) (hliterals : ∀ l ∈ w.tree.literals, l.IsReadable)
    (hnames : ∀ word ∈ w.tree.names, isKeyword word = false) : Reads w := by
  induction w with
  | literal l => exact reads_literal (hliterals l (by simp [tree, Arithmetic.literals]))
  | name word => exact reads_name (hnames word (by simp [tree, Arithmetic.names]))
  | negation operand ih => exact reads_negation hgrouped (ih hgrouped.2 hliterals hnames)
  | operation op left right ihl ihr =>
    simp only [tree, Arithmetic.literals, Arithmetic.names, List.mem_append] at hliterals hnames
    have hleft := ihl hgrouped.2.2.1 (fun l hl => hliterals l (.inl hl)) (fun word hword => hnames word (.inl hword))
    have hright := ihr hgrouped.2.2.2 (fun l hl => hliterals l (.inr hl)) (fun word hword => hnames word (.inr hword))
    cases op with
    | add => exact reads_sum rfl hgrouped hleft hright
    | sub => exact reads_sum rfl hgrouped hleft hright
    | mul => exact reads_product rfl hgrouped hleft hright
    | div => exact reads_product rfl hgrouped hleft hright
    | power => exact reads_power hgrouped hleft hright
  | bracket inside ih => exact reads_bracket hgrouped hnames (ih hgrouped hliterals hnames)

/-! ### Programs of writings -/

theorem bracketDepth_eq_brackets (w : Writing) : bracketDepth 0 0 w.completed = w.brackets := by
  have hdepth := bracketDepth_completed w (Nat.le_refl 0) []
  rw [List.append_nil] at hdepth
  rw [hdepth]
  simp [bracketDepth]

theorem read?_of_brackets {w : Writing} (h : bracketLimit < w.brackets) :
    Program.read? (w.completed ++ closingTokens) = none := by
  rw [Program.read?, joinOperators_completed]
  simp [bracketDepth_eq_brackets, h]

theorem completed_ne_name {w : Writing} (hw : w.tree.IsReadable) {word : String} (hword : isKeyword word)
    (more : List Token) : w.completed ≠ .name word :: more := by
  have hne := completed_ne_keyword (fun word hword => (hw.names word hword).2.1) hword [] more
  rwa [List.append_nil] at hne

theorem readList_completed {w : Writing} (hgrouped : w.IsGrouped) (hw : w.tree.IsReadable) :
    readList (readingFuel w.completed) w.completed = some (w.tree.formula, []) := by
  have hreads := reads hgrouped hw.literals fun word hword => (hw.names word hword).2.1
  have hsum := hreads.takesSum (stops_nil 0)
  rw [List.append_nil] at hsum
  have hconditional := hsum.conditional_of_sum (stops_nil 0) (completed_ne_name hw (by decide))
  apply hconditional.list (stops_nil 0)
  rw [cost, readingFuel]
  omega

/-- The complete tokens of a grouped writing are read as its formula. -/
theorem read?_completed {w : Writing} (hgrouped : w.IsGrouped) (hw : w.tree.IsReadable)
    (hbrackets : w.brackets ≤ bracketLimit) :
    Program.read? (w.completed ++ closingTokens) = some (.expression w.tree.formula) := by
  obtain ⟨t, more, hcompleted, ht⟩ : ∃ t more, w.completed = t :: more ∧ t.beginsOperand :=
    w.spell_begins isSpelling_completed
  refine read?_of_readList (joinOperators_completed w) (by rwa [bracketDepth_eq_brackets])
    (readList_completed hgrouped hw) (by simp [hcompleted]) (fun _ more h => completed_ne_name hw h more) ?_
  intro visible others heq
  rw [hcompleted] at heq
  obtain ⟨rfl, -⟩ := List.cons.inj heq
  cases ht

end Writing

end Reckoner.Expression
