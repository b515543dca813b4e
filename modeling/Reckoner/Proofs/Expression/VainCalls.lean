import Reckoner.Proofs.Expression.Mentions
import Reckoner.Proofs.Expression.QuotedNames

/-!
# Calls in vain

A word that is called with a name that has no value makes a call that can only fail.  Where parentheses have come
between the word and the name, the call is one of what the parentheses hold, which is no function either.  So whatever
is read from the tokens of arithmetic with such a name contains a call in vain.
-/

namespace Reckoner.Expression

/-! ### Joined operators -/

section Joined

variable {s front : List Token}

theorem StartsQuoted.append (hfront : ∀ t ∈ front, t.isBracket) (h : StartsQuoted s) : StartsQuoted (front ++ s) := by
  induction front with
  | nil => exact h
  | cons t front ih =>
    obtain ⟨ht, hfront⟩ := List.forall_mem_cons.mp hfront
    exact .bracket ht (ih hfront)

theorem Quotes.append (front : List Token) (h : Quotes s) : Quotes (front ++ s) := by
  induction front with
  | nil => exact h
  | cons t front ih => exact .later t ih

/-- Joined text is cut into operators again. -/
theorem cutOperators_operators (s : List Char) : ∀ tokens ∈ cutOperators s, ∀ t ∈ tokens,
    ∃ text : String, t = .operator text ∧ text.toList ∈ operators ∧ ∀ c ∈ text.toList, c ∈ s := by
  fun_induction cutOperators s with
  | case1 => exact forall_mem_some (List.forall_mem_nil _)
  | case2 => exact forall_mem_none
  | case3 c rest text htext ih =>
    refine Option.forall_mem_map.mpr fun tokens htokens => List.forall_mem_cons.mpr ⟨?_, fun t ht => ?_⟩
    · have hfind : operators.find? (·.isPrefixOf (c :: rest)) = some text := htext
      have hprefix : text <+: c :: rest := List.isPrefixOf_iff_prefix.mp (by simpa using List.find?_some hfind)
      refine ⟨_, rfl, ?_, ?_⟩
      · rw [String.toList_ofList]
        exact List.mem_of_find?_eq_some hfind
      · rw [String.toList_ofList]
        exact fun c hc => hprefix.subset hc
    · obtain ⟨other, heq, hmem, hsub⟩ := ih tokens htokens t ht
      exact ⟨other, heq, hmem, fun c hc => List.mem_cons_of_mem _ (List.mem_of_mem_drop (hsub c hc))⟩

theorem cutOperators_isTame {s : List Char} (h : ∀ c ∈ s, c ∈ signCharacters) :
    ∀ tokens ∈ cutOperators s, ∀ t ∈ tokens, t.IsTame := by
  intro tokens htokens t ht
  obtain ⟨text, rfl, -, hsub⟩ := cutOperators_operators s tokens htokens t ht
  exact fun c hc => h c (hsub c hc)

theorem cutOperators_isBracket {s : List Char} (h : ∀ c ∈ s, c ∈ ['(', ')']) :
    ∀ tokens ∈ cutOperators s, ∀ t ∈ tokens, t.isBracket := by
  have hbrackets : ∀ op ∈ operators, (∀ c ∈ op, c ∈ ['(', ')']) → op = "(".toList ∨ op = ")".toList := by decide
  intro tokens htokens t ht
  obtain ⟨text, rfl, hmem, hsub⟩ := cutOperators_operators s tokens htokens t ht
  rcases hbrackets _ hmem fun c hc => h c (hsub c hc) with heq | heq
  · rw [String.toList_inj.mp heq]
    rfl
  · rw [String.toList_inj.mp heq]
    rfl

/-- What is kept when the operators among tokens are joined to a text. -/
structure JoinsTo (pending : List Char) (tokens joined : List Token) : Prop where
  tame : ∀ t ∈ joined, t.IsTame
  startsQuoted : (∀ c ∈ pending, c ∈ ['(', ')']) → StartsQuoted tokens → StartsQuoted joined
  quotes : Quotes tokens → Quotes joined

namespace JoinsTo

variable {t : Token} {text : String} {joined : List Token} {pending : List Char}

theorem cons (ht : t.IsTame) (h : JoinsTo [] s joined) : JoinsTo [] (t :: s) (t :: joined) where
  tame := List.forall_mem_cons.mpr ⟨ht, h.tame⟩
  startsQuoted hpending hs := by
    cases hs with
    | quotation text => exact .quotation text _
    | bracket hbracket hs => exact .bracket hbracket (h.startsQuoted hpending hs)
  quotes hs := by
    cases hs with
    | here hword hs => exact .here hword (h.startsQuoted (List.forall_mem_nil _) hs)
    | later _ hs => exact .later _ (h.quotes hs)

/-- Joined text stands in front of what follows as operators. -/
theorem append (hpending : ∀ c ∈ pending, c ∈ signCharacters) (hfront : front ∈ cutOperators pending)
    (h : JoinsTo [] s joined) : JoinsTo pending s (front ++ joined) where
  tame := List.forall_mem_append.mpr ⟨cutOperators_isTame hpending front hfront, h.tame⟩
  startsQuoted hbracket hs :=
    (h.startsQuoted (List.forall_mem_nil _) hs).append (cutOperators_isBracket hbracket front hfront)
  quotes hs := (h.quotes hs).append front

/-- A token that is neither a parenthesis nor a word is left out. -/
theorem skip (hbracket : t.isBracket = false) (hquotation : ∀ text, t ≠ .quotation text)
    (hname : ∀ word, t ≠ .name word) (h : JoinsTo pending s joined) : JoinsTo pending (t :: s) joined where
  tame := h.tame
  startsQuoted _ hs := by
    cases hs with
    | quotation text => exact absurd rfl (hquotation text)
    | bracket ht => simp [hbracket] at ht
  quotes hs := by
    cases hs with
    | here => exact absurd rfl (hname _)
    | later _ hs => exact h.quotes hs

/-- The text of an operator is joined to the text before it. -/
theorem operator (h : JoinsTo (pending ++ text.toList) s joined) : JoinsTo pending (.operator text :: s) joined where
  tame := h.tame
  startsQuoted hpending hs := by
    obtain ⟨htext, hs⟩ := startsQuoted_operator hs
    refine h.startsQuoted (List.forall_mem_append.mpr ⟨hpending, ?_⟩) hs
    rcases htext with rfl | rfl <;> decide
  quotes hs := h.quotes (quotes_operator.mp hs)

end JoinsTo

theorem joinOperators_joinsTo {pending : List Char} {tokens : List Token} (hpending : ∀ c ∈ pending, c ∈ signCharacters)
    (h : ∀ t ∈ tokens, t.IsMild) : ∀ joined ∈ joinOperators pending false tokens, JoinsTo pending tokens joined := by
  induction tokens generalizing pending with
  | nil =>
    intro joined hjoined
    exact ⟨cutOperators_isTame hpending joined hjoined, fun _ h => (not_startsQuoted_nil h).elim,
      fun h => (not_quotes_nil h).elim⟩
  | cons t rest ih =>
    obtain ⟨ht, hrest⟩ := List.forall_mem_cons.mp h
    have hrestJoins := ih (List.forall_mem_nil (· ∈ signCharacters)) hrest
    -- A token that is no operator parts the joined text from what follows.
    have hparted {t : Token} (ht : t.IsTame) (hjoin : joinOperators pending false (t :: rest) =
        do return (← cutOperators pending) ++ t :: (← joinOperators [] false rest)) :
        ∀ joined ∈ joinOperators pending false (t :: rest), JoinsTo pending (t :: rest) joined := by
      rw [hjoin]
      refine forall_mem_bind (Q := (· ∈ cutOperators pending)) (fun _ => id) fun front hfront => ?_
      refine forall_mem_bind hrestJoins fun joined hjoined => forall_mem_some ?_
      exact .append hpending hfront (.cons ht hjoined)
    cases t with
    | name word => exact hparted ht (by simp only [joinOperators])
    | quotation text => exact hparted ht (by simp only [joinOperators])
    | literal maker argument => exact hparted ht (by simp only [joinOperators])
    | numeral text =>
      by_cases hempty : text = ""
      · subst hempty
        rw [joinOperators]
        refine forall_mem_bind (Q := (· ∈ cutOperators pending)) (fun _ => id) fun front hfront => ?_
        refine forall_mem_bind hrestJoins fun joined hjoined => forall_mem_some ?_
        exact .append hpending hfront (.skip rfl (by simp) (by simp) hjoined)
      · exact hparted ht (by rw [joinOperators] <;> simp [hempty])
    | operator text =>
      have hgap : text ≠ " " := by
        rintro rfl
        exact absurd (ht ' ' (by decide)) (by decide)
      rw [joinOperators.eq_6 _ _ _ hgap]
      exact fun joined hjoined =>
        .operator (ih (List.forall_mem_append.mpr ⟨hpending, ht⟩) hrest joined hjoined)
    | lineEnd visible =>
      obtain rfl : visible = false := ht
      rw [joinOperators]
      exact fun joined hjoined => .skip rfl (by simp) (by simp) (ih hpending hrest joined hjoined)
    | finish =>
      rw [joinOperators]
      exact fun joined hjoined => .skip rfl (by simp) (by simp) (ih hpending hrest joined hjoined)
    | _ => exact ht.elim

end Joined

/-! ### Formulas -/

namespace Formula

/-- Whether the value of a formula cannot be called, whatever the arguments are. -/
def isVain : Formula → Bool
  | .name word => nameMakers.contains word
  | .unary _ _ => true
  | .binary _ _ _ => true
  | .comparison _ signs others => signs.length = others.length && !signs.isEmpty
  | .call _ _ _ => true
  | .tuple _ => true
  | _ => false

mutual

/-- Whether somewhere in a formula of arithmetic a value is called that cannot be called. -/
def callsInVain : Formula → Bool
  | .unary _ operand => operand.callsInVain
  | .binary _ left right => left.callsInVain || right.callsInVain
  | .comparison first signs others => signs.length = others.length && (first.callsInVain || anyCallsInVain others)
  | .call f _ arguments => f.isVain || f.callsInVain || anyCallsInVain arguments
  | .tuple items => anyCallsInVain items
  | _ => false

def anyCallsInVain : List Formula → Bool
  | [] => false
  | f :: rest => f.callsInVain || anyCallsInVain rest

end

section CallsInVain

variable {f left right : Formula} {rest others arguments : List Formula}

theorem isVain_name {word : String} : (name word).isVain ↔ word ∈ nameMakers := by simp [isVain]

theorem isVain_comparison {signs : List Comparator} :
    (comparison f signs others).isVain ↔ signs.length = others.length ∧ signs ≠ [] := by
  simp [isVain]

theorem callsInVain_binary {op : BinaryOperator} :
    (binary op left right).callsInVain ↔ left.callsInVain ∨ right.callsInVain := by
  simp [callsInVain]

theorem callsInVain_comparison {signs : List Comparator} : (comparison f signs others).callsInVain ↔
    signs.length = others.length ∧ (f.callsInVain ∨ anyCallsInVain others) := by
  simp [callsInVain]

theorem callsInVain_call {labels : List String} :
    (call f labels arguments).callsInVain ↔ f.isVain ∨ f.callsInVain ∨ anyCallsInVain arguments := by
  simp [callsInVain, or_assoc]

theorem anyCallsInVain_cons : anyCallsInVain (f :: rest) ↔ f.callsInVain ∨ anyCallsInVain rest := by
  simp [anyCallsInVain]

theorem anyCallsInVain_head (h : f.callsInVain) : anyCallsInVain (f :: rest) := anyCallsInVain_cons.mpr (.inl h)

theorem anyCallsInVain_tail (h : anyCallsInVain rest) : anyCallsInVain (f :: rest) := anyCallsInVain_cons.mpr (.inr h)

/-- Only names and tuples of names are assigned to in arithmetic, and nothing is called in them. -/
theorem callsInVain_of_isTarget (h : f.isTarget) : f.callsInVain = false := by
  cases f with
  | tuple items =>
    rw [callsInVain]
    simp only [isTarget] at h
    induction items with
    | nil => rfl
    | cons f rest ih =>
      rw [List.all_cons, Bool.and_eq_true] at h
      rw [anyCallsInVain, ih h.2, Bool.or_false]
      cases f <;> simp_all [callsInVain]
  | name | subscript | member | list => simp [callsInVain]
  | _ => cases h

theorem callsInVain_of_isPlace (h : f.isPlace) : f.callsInVain = false := by
  cases f with
  | name | subscript | member => simp [callsInVain]
  | _ => cases h

end CallsInVain

/-- A formula that was read and the tokens behind it still hold a call in vain, or will when they are read on. -/
def Holds (f : Formula) (rest : List Token) : Prop :=
  f.callsInVain ∨ Quotes rest ∨ f.isVain ∧ StartsQuoted rest

end Formula

/-! ### What readers take -/

section Readers

open Formula

/-- What is left is tame, and it still holds what the tokens that were read held. -/
structure TakesFormula (C : Prop) (r : Formula × List Token) : Prop where
  tame : ∀ t ∈ r.2, t.IsTame
  holds : C → r.1.Holds r.2

/-- The same of formulas between commas, which become a tuple if there is a comma. -/
structure TakesItems (C : Prop) (r : List Formula × Bool × List Token) : Prop where
  tame : ∀ t ∈ r.2.2, t.IsTame
  holds : C → anyCallsInVain r.1 ∨ Quotes r.2.2 ∨ (r.2.1 = false → ∀ f ∈ r.1, f.isVain) ∧ StartsQuoted r.2.2

/-- The same of arguments up to the parenthesis that closes them. -/
structure TakesArguments (C : Prop) (r : List String × List Formula × List Token) : Prop where
  tame : ∀ t ∈ r.2.2, t.IsTame
  holds : C → anyCallsInVain r.2.1 ∨ Quotes r.2.2 ∨ StartsQuoted r.2.2

/-- The same of the further operands of a comparison.  There are none where no sign stands. -/
structure TakesComparands (s : List Token) (r : List Comparator × List Formula × List Token) : Prop where
  tame : ∀ t ∈ r.2.2, t.IsTame
  lengths : r.1.length = r.2.1.length
  stops : r.1 = [] → r.2.2 = s
  starts : r.1 ≠ [] → ¬ StartsQuoted s
  holds : Quotes s → r.1 ≠ [] → anyCallsInVain r.2.1 ∨ Quotes r.2.2 ∨ StartsQuoted r.2.2

/-- What the readers that may make some number of nested calls take from tame tokens. -/
structure ReadersTake (n : Nat) : Prop where
  conditional : ∀ {s}, (∀ t ∈ s, t.IsTame) → ∀ r ∈ readConditional n s, TakesFormula (Quotes s) r
  junction : ∀ {isConjunction s}, (∀ t ∈ s, t.IsTame) → ∀ r ∈ readJunction n isConjunction s, TakesFormula (Quotes s) r
  operands : ∀ {isConjunction s}, (∀ t ∈ s, t.IsTame) → ∀ r ∈ readOperands n isConjunction s, r = ([], s)
  negation : ∀ {s}, (∀ t ∈ s, t.IsTame) → ∀ r ∈ readNegation n s, TakesFormula (Quotes s) r
  comparison : ∀ {s}, (∀ t ∈ s, t.IsTame) → ∀ r ∈ readComparison n s, TakesFormula (Quotes s) r
  comparands : ∀ {s}, (∀ t ∈ s, t.IsTame) → ∀ r ∈ readComparands n s, TakesComparands s r
  binary : ∀ {level s}, (∀ t ∈ s, t.IsTame) → ∀ r ∈ readBinary n level s, TakesFormula (Quotes s) r
  binaryRest : ∀ {C level left s}, TakesFormula C (left, s) → ∀ r ∈ readBinaryRest n level left s, TakesFormula C r
  signed : ∀ {s}, (∀ t ∈ s, t.IsTame) → ∀ r ∈ readSigned n s, TakesFormula (Quotes s) r
  power : ∀ {s}, (∀ t ∈ s, t.IsTame) → ∀ r ∈ readPower n s, TakesFormula (Quotes s) r
  primary : ∀ {s}, (∀ t ∈ s, t.IsTame) → ∀ r ∈ readPrimary n s, TakesFormula (Quotes s) r
  trailers : ∀ {C f s}, TakesFormula C (f, s) → ∀ r ∈ readTrailers n f s, TakesFormula C r
  atom : ∀ {s}, (∀ t ∈ s, t.IsTame) → ∀ r ∈ readAtom n s, TakesFormula (Quotes s) r
  items : ∀ {s}, (∀ t ∈ s, t.IsTame) → ∀ r ∈ readItems n s, TakesItems (Quotes s) r
  moreItems : ∀ {C first s}, TakesFormula C (first, s) → ∀ r ∈ readMoreItems n first s, TakesItems C r
  list : ∀ {s}, (∀ t ∈ s, t.IsTame) → ∀ r ∈ readList n s, TakesFormula (Quotes s) r
  arguments : ∀ {named s}, (∀ t ∈ s, t.IsTame) → ∀ r ∈ readArguments n named s, TakesArguments (Quotes s) r

variable {f g : Formula} {s rest : List Token} {text word : String}

theorem not_isTame_operator (h : text.toList.all signCharacters.contains = false) :
    ¬ (Token.operator text).IsTame := by
  intro htame
  have hall : text.toList.all signCharacters.contains = true :=
    List.all_eq_true.mpr fun c hc => List.contains_iff_mem.mpr (htame c hc)
  rw [hall] at h
  cases h

theorem not_isTame_name (h : isKeyword word) : ¬ (Token.name word).IsTame := fun htame => by
  rw [show isKeyword word = false from htame] at h
  cases h

/-- A formula around another one that is no function. -/
theorem Formula.Holds.wrap (h : f.Holds rest) (hcalls : f.callsInVain → g.callsInVain) (hvain : g.isVain) :
    g.Holds rest :=
  h.imp hcalls (.imp id fun h => ⟨hvain, h.2⟩)

theorem Formula.Holds.tail (h : f.Holds (.operator text :: rest)) : f.Holds rest :=
  h.imp id (.imp quotes_operator.mp fun h => ⟨h.1, (startsQuoted_operator h.2).2⟩)

/-- Behind an operator that is no parenthesis nothing can be called that stands before it. -/
theorem Formula.Holds.next (h : f.Holds (.operator text :: rest)) (hopening : text ≠ "(") (hclosing : text ≠ ")") :
    f.callsInVain ∨ Quotes rest := by
  rcases h with hcalls | hquotes | ⟨-, hstarts⟩
  · exact .inl hcalls
  · exact .inr (quotes_operator.mp hquotes)
  · exact absurd (startsQuoted_operator hstarts).1 (by simp [hopening, hclosing])

theorem comparator?_operator (hs : ∀ t ∈ s, t.IsTame) {sign : Comparator} (h : comparator? s = some (sign, rest)) :
    ∃ text, s = .operator text :: rest ∧ text ≠ "(" ∧ text ≠ ")" := by
  unfold comparator? at h
  split at h
  case h_7 | h_8 | h_9 | h_10 => exact absurd (hs _ List.mem_cons_self) (not_isTame_name (by decide))
  case h_11 => cases h
  all_goals
    cases h
    exact ⟨_, rfl, by decide, by decide⟩

theorem unaryOperator?_operator {op : UnaryOperator} (h : unaryOperator? s = some (op, rest)) :
    ∃ text, s = .operator text :: rest := by
  unfold unaryOperator? at h
  split at h
  case h_4 => cases h
  all_goals
    cases h
    exact ⟨_, rfl⟩

theorem binaryOperator?_ne {level : Nat} {op : BinaryOperator} (h : binaryOperator? level text = some op) :
    text ≠ "(" ∧ text ≠ ")" := by
  unfold binaryOperator? at h
  split at h
  case h_12 => cases h
  all_goals exact ⟨by decide, by decide⟩

theorem wordFormula?_name (hword : isKeyword word = false) : ∀ f ∈ wordFormula? word, f = .name word := by
  unfold wordFormula?
  split
  case h_4 =>
    rw [if_neg (by simp [hword])]
    exact forall_mem_some rfl
  all_goals exact absurd hword (by decide)

theorem joinQuotations_takes (hs : ∀ t ∈ s, t.IsTame) :
    (∀ t ∈ (joinQuotations text s).2, t.IsTame) ∧ (Quotes s → Quotes (joinQuotations text s).2) := by
  fun_induction joinQuotations text s with
  | case1 text more rest ih =>
    obtain ⟨htame, hquotes⟩ := ih (List.forall_mem_of_forall_mem_cons hs)
    refine ⟨htame, fun h => ?_⟩
    cases h with
    | later _ h => exact hquotes h
  | case2 => exact ⟨hs, id⟩

/-- The words between the operands of conjunctions are keywords. -/
theorem readOperands_takes (hs : ∀ t ∈ s, t.IsTame) {n : Nat} {isConjunction : Bool} :
    ∀ r ∈ readOperands (n + 1) isConjunction s, r = ([], s) := by
  unfold readOperands
  dsimp only
  split
  · rename_i word rest
    have hword : isKeyword word = false := hs _ List.mem_cons_self
    have hne : word ≠ if isConjunction then "and" else "or" := by
      rintro rfl
      revert hword
      cases isConjunction <;> decide
    rw [if_neg hne]
    exact forall_mem_some rfl
  · exact forall_mem_some rfl

section Step

variable {n : Nat} (ih : ReadersTake n)
include ih

section Tokens

variable (hs : ∀ t ∈ s, t.IsTame)
include hs

theorem readConditional_takes : ∀ r ∈ readConditional (n + 1) s, TakesFormula (Quotes s) r := by
  rw [readConditional]
  refine forall_mem_bind (ih.junction hs) ?_
  rintro ⟨first, rest⟩ hfirst
  dsimp only
  split
  · exact absurd (hfirst.tame _ List.mem_cons_self) (not_isTame_name (by decide))
  · exact forall_mem_some hfirst

theorem readJunction_takes {isConjunction : Bool} :
    ∀ r ∈ readJunction (n + 1) isConjunction s, TakesFormula (Quotes s) r := by
  rw [readJunction]
  split
  case' isTrue => refine forall_mem_bind (ih.negation hs) ?_
  case' isFalse => refine forall_mem_bind (ih.junction hs) ?_
  all_goals
    rintro ⟨first, rest⟩ hfirst
    refine forall_mem_bind (ih.operands hfirst.tame) ?_
    rintro _ rfl
    exact forall_mem_some hfirst

theorem readNegation_takes : ∀ r ∈ readNegation (n + 1) s, TakesFormula (Quotes s) r := by
  unfold readNegation
  split
  · contradiction
  · exact absurd (hs _ List.mem_cons_self) (not_isTame_name (by decide))
  · rename_i hn _
    cases hn
    exact ih.comparison hs

theorem readComparison_takes : ∀ r ∈ readComparison (n + 1) s, TakesFormula (Quotes s) r := by
  rw [readComparison]
  refine forall_mem_bind (ih.binary hs) ?_
  rintro ⟨first, rest⟩ hfirst
  refine forall_mem_bind (ih.comparands hfirst.tame) ?_
  rintro ⟨signs, others, rest'⟩ hothers
  refine forall_mem_some ?_
  cases signs with
  | nil =>
    obtain rfl : rest' = rest := hothers.stops rfl
    exact hfirst
  | cons sign signs =>
    have hlengths := hothers.lengths
    refine ⟨hothers.tame, fun hquotes => ?_⟩
    rcases hfirst.holds hquotes with hcalls | hquotes | ⟨-, hstarts⟩
    · exact .inl (callsInVain_comparison.mpr ⟨hlengths, .inl hcalls⟩)
    · rcases hothers.holds hquotes (List.cons_ne_nil _ _) with hcalls | hquotes | hstarts
      · exact .inl (callsInVain_comparison.mpr ⟨hlengths, .inr hcalls⟩)
      · exact .inr (.inl hquotes)
      · exact .inr (.inr ⟨isVain_comparison.mpr ⟨hlengths, List.cons_ne_nil _ _⟩, hstarts⟩)
    · exact absurd hstarts (hothers.starts (List.cons_ne_nil _ _))

theorem readComparands_takes : ∀ r ∈ readComparands (n + 1) s, TakesComparands s r := by
  rw [readComparands]
  split
  · exact forall_mem_some ⟨hs, rfl, fun _ => rfl, fun h => (h rfl).elim, fun _ h => (h rfl).elim⟩
  · rename_i sign rest hsign
    obtain ⟨text, rfl, hopening, hclosing⟩ := comparator?_operator hs hsign
    refine forall_mem_bind (ih.binary (List.forall_mem_of_forall_mem_cons hs)) ?_
    rintro ⟨next, rest'⟩ hnext
    refine forall_mem_bind (ih.comparands hnext.tame) ?_
    rintro ⟨signs, others, rest''⟩ hothers
    refine forall_mem_some
      ⟨hothers.tame, congrArg (· + 1) hothers.lengths, fun h => absurd h (List.cons_ne_nil _ _), fun _ hstarts => ?_,
        fun hquotes _ => ?_⟩
    · exact absurd (startsQuoted_operator hstarts).1 (by simp [hopening, hclosing])
    · -- Without a further sign the tokens behind the operand are all that is left.
      by_cases hsigns : signs = []
      · obtain rfl : rest'' = rest' := hothers.stops hsigns
        exact (hnext.holds (quotes_operator.mp hquotes)).imp anyCallsInVain_head (.imp id And.right)
      · rcases hnext.holds (quotes_operator.mp hquotes) with hcalls | hquotes | ⟨-, hstarts⟩
        · exact .inl (anyCallsInVain_head hcalls)
        · exact (hothers.holds hquotes hsigns).imp anyCallsInVain_tail id
        · exact absurd hstarts (hothers.starts hsigns)

theorem readBinary_takes {level : Nat} : ∀ r ∈ readBinary (n + 1) level s, TakesFormula (Quotes s) r := by
  rw [readBinary]
  split
  · exact ih.signed hs
  · refine forall_mem_bind (ih.binary hs) ?_
    rintro ⟨first, rest⟩ hfirst
    exact ih.binaryRest hfirst

theorem readSigned_takes : ∀ r ∈ readSigned (n + 1) s, TakesFormula (Quotes s) r := by
  rw [readSigned]
  split
  · rename_i op rest hop
    obtain ⟨text, rfl⟩ := unaryOperator?_operator hop
    refine forall_mem_bind (ih.signed (List.forall_mem_of_forall_mem_cons hs)) ?_
    rintro ⟨operand, rest'⟩ hoperand
    exact forall_mem_some ⟨hoperand.tame, fun hquotes => (hoperand.holds (quotes_operator.mp hquotes)).wrap id rfl⟩
  · exact ih.power hs

theorem readPower_takes : ∀ r ∈ readPower (n + 1) s, TakesFormula (Quotes s) r := by
  rw [readPower]
  refine forall_mem_bind (ih.primary hs) ?_
  rintro ⟨base, rest⟩ hbase
  dsimp only
  split
  · rename_i rest
    refine forall_mem_bind (ih.signed (List.forall_mem_of_forall_mem_cons hbase.tame)) ?_
    rintro ⟨exponent, rest'⟩ hexponent
    refine forall_mem_some ⟨hexponent.tame, fun hquotes => ?_⟩
    rcases (hbase.holds hquotes).next (by decide) (by decide) with hcalls | hquotes
    · exact .inl (callsInVain_binary.mpr (.inl hcalls))
    · exact (hexponent.holds hquotes).wrap (fun h => callsInVain_binary.mpr (.inr h)) rfl
  · exact forall_mem_some hbase

theorem readPrimary_takes : ∀ r ∈ readPrimary (n + 1) s, TakesFormula (Quotes s) r := by
  rw [readPrimary]
  refine forall_mem_bind (ih.atom hs) ?_
  rintro ⟨atom, rest⟩ hatom
  exact ih.trailers hatom

theorem readAtom_takes : ∀ r ∈ readAtom (n + 1) s, TakesFormula (Quotes s) r := by
  unfold readAtom
  dsimp only
  have htail := fun {t rest} (h : ∀ u ∈ t :: rest, Token.IsTame u) => List.forall_mem_of_forall_mem_cons h
  have hhead : ∀ t rest, s = t :: rest → t.IsTame := by
    rintro t rest rfl
    exact hs t List.mem_cons_self
  split
  · rename_i word rest
    have hword : isKeyword word = false := hhead _ _ rfl
    refine Option.forall_mem_map.mpr fun f hf => ?_
    obtain rfl := wordFormula?_name hword f hf
    refine ⟨htail hs, fun hquotes => ?_⟩
    cases hquotes with
    | here hmaker hstarts => exact .inr (.inr ⟨isVain_name.mpr hmaker, hstarts⟩)
    | later _ hquotes => exact .inr (.inl hquotes)
  · refine Option.forall_mem_map.mpr fun value _ => ⟨htail hs, fun hquotes => ?_⟩
    cases hquotes with
    | later _ hquotes => exact .inr (.inl hquotes)
  · obtain ⟨htame, hjoined⟩ := joinQuotations_takes (htail hs)
    refine forall_mem_some ⟨htame, fun hquotes => ?_⟩
    cases hquotes with
    | later _ hquotes => exact .inr (.inl (hjoined hquotes))
  · exact absurd (hhead _ _ rfl) (not_isTame_operator (by decide))
  · exact forall_mem_some
      ⟨htail (htail hs), fun hquotes => .inr (.inl (quotes_operator.mp (quotes_operator.mp hquotes)))⟩
  · exact absurd (htail (htail hs) _ List.mem_cons_self) (not_isTame_operator (by decide))
  · refine forall_mem_bind (ih.list (htail hs)) ?_
    rintro ⟨f, rest⟩ hf
    dsimp only
    split
    · exact forall_mem_some ⟨htail hf.tame, fun hquotes => (hf.holds (quotes_operator.mp hquotes)).tail⟩
    · exact forall_mem_none
  · exact absurd (hhead _ _ rfl) (not_isTame_operator (by decide))
  · exact absurd (hhead _ _ rfl) (not_isTame_operator (by decide))
  · exact absurd (hhead _ _ rfl) (not_isTame_operator (by decide))
  · exact absurd (hhead _ _ rfl) (not_isTame_operator (by decide))
  · exact forall_mem_none

theorem readItems_takes : ∀ r ∈ readItems (n + 1) s, TakesItems (Quotes s) r := by
  rw [readItems]
  refine forall_mem_bind (ih.conditional hs) ?_
  rintro ⟨first, rest⟩ hfirst
  exact ih.moreItems hfirst

theorem readList_takes : ∀ r ∈ readList (n + 1) s, TakesFormula (Quotes s) r := by
  rw [readList]
  refine forall_mem_bind (ih.items hs) ?_
  rintro ⟨items, comma, rest⟩ hitems
  dsimp only
  split
  · rename_i f
    refine forall_mem_some ⟨hitems.tame, fun hquotes => ?_⟩
    rcases hitems.holds hquotes with hcalls | hquotes | ⟨hvain, hstarts⟩
    · exact .inl ((anyCallsInVain_cons.mp hcalls).resolve_right Bool.false_ne_true)
    · exact .inr (.inl hquotes)
    · exact .inr (.inr ⟨hvain rfl f List.mem_cons_self, hstarts⟩)
  · exact forall_mem_some
      ⟨hitems.tame, fun hquotes => (hitems.holds hquotes).imp id (.imp id fun h => ⟨rfl, h.2⟩)⟩

theorem readArguments_takes {named : Bool} : ∀ r ∈ readArguments (n + 1) named s, TakesArguments (Quotes s) r := by
  unfold readArguments
  dsimp -zeta only
  extract_lets finish
  have htail := fun {t rest} (h : ∀ u ∈ t :: rest, Token.IsTame u) => List.forall_mem_of_forall_mem_cons h
  have hfinish : ∀ label f rest, TakesFormula (Quotes s) (f, rest) →
      ∀ r ∈ finish label f rest, TakesArguments (Quotes s) r := by
    intro label f rest hf
    dsimp only [finish]
    split
    · exact forall_mem_some ⟨htail hf.tame, fun hquotes =>
        (hf.holds hquotes).tail.imp anyCallsInVain_head (.imp id And.right)⟩
    · refine forall_mem_bind (ih.arguments (htail hf.tame)) ?_
      rintro ⟨labels, others, rest⟩ hothers
      refine forall_mem_some ⟨hothers.tame, fun hquotes => ?_⟩
      rcases (hf.holds hquotes).next (by decide) (by decide) with hcalls | hquotes
      · exact .inl (anyCallsInVain_head hcalls)
      · exact (hothers.holds hquotes).imp anyCallsInVain_tail id
    · exact forall_mem_none
  clear_value finish
  -- Whatever stands in front of an argument, the tokens behind it hold what all of them held.
  have hargument {rest : List Token} (hrest : ∀ t ∈ rest, t.IsTame) (hquotes : Quotes s → Quotes rest) :
      ∀ r ∈ readConditional n rest, TakesFormula (Quotes s) r :=
    fun r hr => ⟨(ih.conditional hrest r hr).tame, fun h => (ih.conditional hrest r hr).holds (hquotes h)⟩
  split
  · exact forall_mem_some ⟨htail hs, fun hquotes => .inr (.inl (quotes_operator.mp hquotes))⟩
  · exact forall_mem_bind (hargument (htail hs) quotes_operator.mp) fun r hr => hfinish _ _ _ hr
  · exact forall_mem_bind (hargument (htail hs) quotes_operator.mp) fun r hr => hfinish _ _ _ hr
  · split
    · refine forall_mem_bind (hargument (htail (htail hs)) fun hquotes => ?_) fun r hr => hfinish _ _ _ hr
      cases hquotes with
      | here _ hstarts => exact absurd (startsQuoted_operator hstarts).1 (by decide)
      | later _ hquotes => exact quotes_operator.mp hquotes
    · exact forall_mem_none
  · refine forall_mem_bind (hargument hs id) ?_
    rintro ⟨f, rest⟩ hr
    dsimp only
    split
    · exact forall_mem_none
    · exact hfinish _ _ _ hr

end Tokens

variable {C : Prop}

theorem readBinaryRest_takes {level : Nat} (hleft : TakesFormula C (f, s)) :
    ∀ r ∈ readBinaryRest (n + 1) level f s, TakesFormula C r := by
  unfold readBinaryRest
  dsimp only
  split
  · split
    · rename_i op hop
      obtain ⟨hopening, hclosing⟩ := binaryOperator?_ne hop
      refine forall_mem_bind (ih.binary (List.forall_mem_of_forall_mem_cons hleft.tame)) ?_
      rintro ⟨right, rest⟩ hright
      refine ih.binaryRest ⟨hright.tame, fun h => ?_⟩
      rcases (hleft.holds h).next hopening hclosing with hcalls | hquotes
      · exact .inl (callsInVain_binary.mpr (.inl hcalls))
      · exact (hright.holds hquotes).wrap (fun h => callsInVain_binary.mpr (.inr h)) rfl
    · exact forall_mem_some hleft
  · exact forall_mem_some hleft

theorem readTrailers_takes (hf : TakesFormula C (f, s)) : ∀ r ∈ readTrailers (n + 1) f s, TakesFormula C r := by
  unfold readTrailers
  dsimp only
  split
  · refine forall_mem_bind (ih.arguments (List.forall_mem_of_forall_mem_cons hf.tame)) ?_
    rintro ⟨labels, arguments, rest⟩ harguments
    refine ih.trailers ⟨harguments.tame, fun h => ?_⟩
    rcases hf.holds h with hcalls | hquotes | ⟨hvain, -⟩
    · exact .inl (callsInVain_call.mpr (.inr (.inl hcalls)))
    · exact (harguments.holds (quotes_operator.mp hquotes)).imp
        (fun h => callsInVain_call.mpr (.inr (.inr h))) (.imp id fun h => ⟨rfl, h⟩)
    · exact .inl (callsInVain_call.mpr (.inl hvain))
  · exact absurd (hf.tame _ List.mem_cons_self) (not_isTame_operator (by decide))
  · exact absurd (hf.tame _ List.mem_cons_self) (not_isTame_operator (by decide))
  · exact forall_mem_some hf

theorem readMoreItems_takes (hfirst : TakesFormula C (f, s)) : ∀ r ∈ readMoreItems (n + 1) f s, TakesItems C r := by
  unfold readMoreItems
  dsimp only
  split
  · have hrest := List.forall_mem_of_forall_mem_cons hfirst.tame
    have hnext := fun h => (hfirst.holds h).next (by decide) (by decide)
    split
    · exact forall_mem_some ⟨hrest, fun h => (hnext h).imp anyCallsInVain_head .inl⟩
    · refine forall_mem_bind (ih.items hrest) ?_
      rintro ⟨others, comma, rest⟩ hothers
      refine forall_mem_some ⟨hothers.tame, fun h => ?_⟩
      rcases hnext h with hcalls | hquotes
      · exact .inl (anyCallsInVain_head hcalls)
      · exact (hothers.holds hquotes).imp anyCallsInVain_tail (.imp id fun h => ⟨nofun, h.2⟩)
  · refine forall_mem_some ⟨hfirst.tame, fun h => ?_⟩
    exact (hfirst.holds h).imp anyCallsInVain_head (.imp id fun h => ⟨fun _ => List.forall_mem_singleton.mpr h.1, h.2⟩)

end Step

theorem readersTake (n : Nat) : ReadersTake n := by
  induction n with
  | zero => constructor <;> intros <;> rename_i h <;> cases h
  | succ n ih =>
    exact {
      conditional := readConditional_takes ih
      junction := fun hs => readJunction_takes ih hs
      operands := fun hs => readOperands_takes hs
      negation := readNegation_takes ih
      comparison := readComparison_takes ih
      comparands := readComparands_takes ih
      binary := fun hs => readBinary_takes ih hs
      binaryRest := readBinaryRest_takes ih
      signed := readSigned_takes ih
      power := readPower_takes ih
      primary := readPrimary_takes ih
      trailers := readTrailers_takes ih
      atom := readAtom_takes ih
      items := readItems_takes ih
      moreItems := readMoreItems_takes ih
      list := readList_takes ih
      arguments := fun hs => readArguments_takes ih hs }

/-! ### Statements -/

theorem readAssigned_takes {n m : Nat} {C : Prop} (hf : TakesFormula C (f, s)) :
    ∀ r ∈ readAssigned n m f s, ∃ value, r.1 = some value ∧ TakesFormula C (value, r.2) := by
  have hreaders := readersTake n
  have hvalue {rest : List Token} (hrest : ∀ t ∈ rest, t.IsTame) (hquotes : C → Quotes rest) :
      ∀ r ∈ readList n rest, TakesFormula C r :=
    fun r hr => ⟨(hreaders.list hrest r hr).tame, fun h => (hreaders.list hrest r hr).holds (hquotes h)⟩
  induction m generalizing f s with
  | zero => exact forall_mem_none
  | succ m ih =>
    unfold readAssigned
    dsimp only
    split
    · split
      · exact forall_mem_none
      · rename_i htarget
        have htarget := callsInVain_of_isTarget (by simpa using htarget)
        refine forall_mem_bind (hvalue (List.forall_mem_of_forall_mem_cons hf.tame) fun h =>
          ((hf.holds h).next (by decide) (by decide)).resolve_left (Bool.eq_false_iff.mp htarget)) ?_
        rintro ⟨value, rest⟩ hvalue
        dsimp only
        split
        · exact ih hvalue
        · exact forall_mem_some ⟨value, rfl, hvalue⟩
    · exact absurd (hf.tame _ List.mem_cons_self) (not_isTame_operator (by decide))
    · split
      · exact forall_mem_none
      · rename_i text rest _ _ hupdate
        rw [Bool.not_eq_true, Bool.not_eq_false', Bool.and_eq_true] at hupdate
        have hbracket : text ≠ "(" ∧ text ≠ ")" := by
          constructor <;>
          · rintro rfl
            exact absurd hupdate.1 (by decide)
        have hplace := callsInVain_of_isPlace hupdate.2
        refine forall_mem_bind (hvalue (List.forall_mem_of_forall_mem_cons hf.tame) fun h =>
          ((hf.holds h).next hbracket.1 hbracket.2).resolve_left (Bool.eq_false_iff.mp hplace)) ?_
        rintro ⟨value, rest⟩ hvalue
        exact forall_mem_some ⟨value, rfl, hvalue⟩
    · exact forall_mem_none

theorem readStatement_takes {n : Nat} (hs : ∀ t ∈ s, t.IsTame) :
    ∀ r ∈ readStatement n s, ∃ value, r.2.1 = some value ∧ TakesFormula (Quotes s) (value, r.2.2) := by
  unfold readStatement
  split
  case h_8 =>
    refine forall_mem_bind ((readersTake n).list hs) ?_
    rintro ⟨f, rest⟩ hf
    dsimp only
    split
    · exact forall_mem_some ⟨f, rfl, hf⟩
    · exact forall_mem_some ⟨f, rfl, hf⟩
    · exact forall_mem_some ⟨f, rfl, hf⟩
    · refine forall_mem_bind (readAssigned_takes hf) ?_
      rintro ⟨value, rest⟩ hvalue
      exact forall_mem_some hvalue
  all_goals exact absurd (hs _ List.mem_cons_self) (not_isTame_name (by decide))

/-- Whatever is read from tokens with a name that has no value contains a call in vain. -/
theorem Program.read?_callsInVain {tokens : List Token} (h : ∀ t ∈ tokens, t.IsMild) (hquotes : Quotes tokens) :
    ∀ program ∈ Program.read? tokens,
      ∃ f, f.callsInVain ∧ (program = .expression f ∨ program = .statements (some f)) := by
  have hjoin := joinOperators_joinsTo (List.forall_mem_nil (· ∈ signCharacters)) h
  unfold Program.read?
  refine forall_mem_bind hjoin fun s hs => ?_
  have hquotes := hs.quotes hquotes
  have hend (visible : Bool) : Token.lineEnd visible ∉ s := hs.tame (.lineEnd visible)
  dsimp only
  generalize hdropped : List.dropWhile _ s = dropped
  obtain rfl : s = dropped := by
    rw [← hdropped]
    cases s with
    | nil => rfl
    | cons t rest =>
      refine (List.dropWhile_cons_of_neg ?_).symm
      cases t with
      | lineEnd visible => exact absurd List.mem_cons_self (hend visible)
      | _ => exact Bool.false_ne_true
  split
  · exact forall_mem_none
  · split
    · rename_i hempty
      rw [List.isEmpty_iff.mp hempty] at hquotes
      exact (not_quotes_nil hquotes).elim
    · refine forall_mem_bind (readStatement_takes hs.tame) ?_
      rintro ⟨isExpression, value, rest⟩ ⟨f, hvalue, htakes⟩
      dsimp only at hvalue htakes ⊢
      subst hvalue
      split
      · have hcalls : f.callsInVain := by
          rcases htakes.holds hquotes with hcalls | hquotes | ⟨-, hstarts⟩
          · exact hcalls
          · exact (not_quotes_nil hquotes).elim
          · exact (not_startsQuoted_nil hstarts).elim
        split
        · rename_i heq
          obtain rfl := Option.some.inj heq
          exact forall_mem_some ⟨_, hcalls, .inl rfl⟩
        · exact forall_mem_some ⟨f, hcalls, .inr rfl⟩
      · exact (htakes.tame _ List.mem_cons_self).elim
      · exact absurd (htakes.tame _ List.mem_cons_self) (not_isTame_operator (by decide))
      · exact forall_mem_none

end Readers

end Reckoner.Expression
