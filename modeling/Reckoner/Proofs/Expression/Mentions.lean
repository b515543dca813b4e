import Mathlib.Data.List.Basic
import Mathlib.Data.Option.Basic
import Reckoner.Expression.Grammar
import Reckoner.Proofs.Expression.Vocabulary

/-!
# The names in a formula

A formula that is read from tokens mentions no names but those among the tokens.  Every reader takes its formulas from
the tokens in front of it and leaves the others, so this is kept from one reader to the readers that call it.
-/

namespace Reckoner.Expression

mutual

/-- The names that a formula looks up are among some words. -/
@[simp] def Formula.Within (P : String → Prop) : Formula → Prop
  | .name word => P word
  | .numeral _ => True
  | .quotation _ => True
  | .constant _ => True
  | .unary _ operand => operand.Within P
  | .binary _ left right => left.Within P ∧ right.Within P
  | .comparison first _ others => first.Within P ∧ Formula.AllWithin P others
  | .junction _ operands => Formula.AllWithin P operands
  | .negation operand => operand.Within P
  | .conditional test yes no => test.Within P ∧ yes.Within P ∧ no.Within P
  | .call f _ arguments => f.Within P ∧ Formula.AllWithin P arguments
  | .subscript object index => object.Within P ∧ index.Within P
  | .member object _ => object.Within P
  | .binding _ value => value.Within P
  | .tuple items => Formula.AllWithin P items
  | .list items => Formula.AllWithin P items
  | .set items => Formula.AllWithin P items
  | .dictionary keys values => Formula.AllWithin P keys ∧ Formula.AllWithin P values

@[simp] def Formula.AllWithin (P : String → Prop) : List Formula → Prop
  | [] => True
  | f :: rest => f.Within P ∧ Formula.AllWithin P rest

end

section Optional

variable {α β : Type} {Q : α → Prop} {R : β → Prop}

theorem forall_mem_none : ∀ a ∈ (none : Option α), Q a := by
  rintro _ ⟨⟩

theorem forall_mem_some {a : α} (h : Q a) : ∀ b ∈ some a, Q b := by
  rintro _ ⟨⟩
  exact h

theorem forall_mem_bind {o : Option α} {f : α → Option β} (h : ∀ a ∈ o, Q a) (hf : ∀ a, Q a → ∀ b ∈ f a, R b) :
    ∀ b ∈ o >>= f, R b := by
  intro b hb
  obtain ⟨a, ha, hb⟩ := Option.mem_bind_iff.mp hb
  exact hf a (h a ha) b hb

end Optional

section Readers

variable {P : String → Prop}

/-! ### Tokens without gaps -/

theorem cutOperators_within (s : List Char) : ∀ tokens ∈ cutOperators s, ∀ t ∈ tokens, t.Within P := by
  fun_induction cutOperators s with
  | case1 => exact forall_mem_some (by simp)
  | case2 => exact forall_mem_none
  | case3 c rest text htext ih =>
    refine Option.forall_mem_map.mpr fun tokens htokens => ?_
    exact List.forall_mem_cons.mpr ⟨trivial, ih tokens htokens⟩

theorem joinOperators_within {pending : List Char} {hidden : Bool} {tokens : List Token}
    (htokens : ∀ t ∈ tokens, t.Within P) :
    ∀ joined ∈ joinOperators pending hidden tokens, ∀ t ∈ joined, t.Within P := by
  have hcut := cutOperators_within (P := P) pending
  fun_induction joinOperators pending hidden tokens with
  | case1 => exact hcut
  | case2 _ _ ih =>
    have hrest := ih (List.forall_mem_of_forall_mem_cons htokens) (cutOperators_within _)
    exact Option.forall_mem_map.mpr fun joined hjoined => List.forall_mem_cons.mpr ⟨trivial, hrest joined hjoined⟩
  | case3 _ _ ih | case4 _ _ _ _ _ ih | case9 _ _ ih | case10 _ _ ih =>
    exact ih (List.forall_mem_of_forall_mem_cons htokens) hcut
  | case6 _ _ _ _ ih => exact ih (List.forall_mem_of_forall_mem_cons htokens) (cutOperators_within _)
  | case5 _ _ ih | case7 _ _ ih | case8 _ _ ih | case11 _ _ ih =>
    have hrest := ih (List.forall_mem_of_forall_mem_cons htokens) (cutOperators_within _)
    refine forall_mem_bind hcut fun front hfront => ?_
    refine forall_mem_bind hrest fun joined hjoined => ?_
    exact forall_mem_some (List.forall_mem_append.mpr ⟨hfront, hjoined⟩)
  | case12 => exact forall_mem_none
  | case13 _ t _ _ _ _ _ _ _ _ _ ih =>
    obtain ⟨ht, hrest⟩ := List.forall_mem_cons.mp htokens
    refine forall_mem_bind hcut fun front hfront => ?_
    refine forall_mem_bind (ih hrest (cutOperators_within _)) fun joined hjoined => ?_
    exact forall_mem_some (List.forall_mem_append.mpr ⟨hfront, List.forall_mem_cons.mpr ⟨ht, hjoined⟩⟩)

/-! ### Formulas -/

/-- What the readers that may make some number of nested calls take from tokens, and what they leave. -/
structure ReadersWithin (P : String → Prop) (n : Nat) : Prop where
  conditional : ∀ {s}, (∀ t ∈ s, t.Within P) → ∀ r ∈ readConditional n s, r.1.Within P ∧ ∀ t ∈ r.2, t.Within P
  junction : ∀ {isConjunction s}, (∀ t ∈ s, t.Within P) →
    ∀ r ∈ readJunction n isConjunction s, r.1.Within P ∧ ∀ t ∈ r.2, t.Within P
  operands : ∀ {isConjunction s}, (∀ t ∈ s, t.Within P) →
    ∀ r ∈ readOperands n isConjunction s, Formula.AllWithin P r.1 ∧ ∀ t ∈ r.2, t.Within P
  negation : ∀ {s}, (∀ t ∈ s, t.Within P) → ∀ r ∈ readNegation n s, r.1.Within P ∧ ∀ t ∈ r.2, t.Within P
  comparison : ∀ {s}, (∀ t ∈ s, t.Within P) → ∀ r ∈ readComparison n s, r.1.Within P ∧ ∀ t ∈ r.2, t.Within P
  comparands : ∀ {s}, (∀ t ∈ s, t.Within P) →
    ∀ r ∈ readComparands n s, Formula.AllWithin P r.2.1 ∧ ∀ t ∈ r.2.2, t.Within P
  binary : ∀ {level s}, (∀ t ∈ s, t.Within P) → ∀ r ∈ readBinary n level s, r.1.Within P ∧ ∀ t ∈ r.2, t.Within P
  binaryRest : ∀ {level left s}, left.Within P → (∀ t ∈ s, t.Within P) →
    ∀ r ∈ readBinaryRest n level left s, r.1.Within P ∧ ∀ t ∈ r.2, t.Within P
  signed : ∀ {s}, (∀ t ∈ s, t.Within P) → ∀ r ∈ readSigned n s, r.1.Within P ∧ ∀ t ∈ r.2, t.Within P
  power : ∀ {s}, (∀ t ∈ s, t.Within P) → ∀ r ∈ readPower n s, r.1.Within P ∧ ∀ t ∈ r.2, t.Within P
  primary : ∀ {s}, (∀ t ∈ s, t.Within P) → ∀ r ∈ readPrimary n s, r.1.Within P ∧ ∀ t ∈ r.2, t.Within P
  trailers : ∀ {f s}, f.Within P → (∀ t ∈ s, t.Within P) →
    ∀ r ∈ readTrailers n f s, r.1.Within P ∧ ∀ t ∈ r.2, t.Within P
  atom : ∀ {s}, (∀ t ∈ s, t.Within P) → ∀ r ∈ readAtom n s, r.1.Within P ∧ ∀ t ∈ r.2, t.Within P
  items : ∀ {s}, (∀ t ∈ s, t.Within P) →
    ∀ r ∈ readItems n s, Formula.AllWithin P r.1 ∧ ∀ t ∈ r.2.2, t.Within P
  moreItems : ∀ {first s}, first.Within P → (∀ t ∈ s, t.Within P) →
    ∀ r ∈ readMoreItems n first s, Formula.AllWithin P r.1 ∧ ∀ t ∈ r.2.2, t.Within P
  list : ∀ {s}, (∀ t ∈ s, t.Within P) → ∀ r ∈ readList n s, r.1.Within P ∧ ∀ t ∈ r.2, t.Within P
  pairs : ∀ {s}, (∀ t ∈ s, t.Within P) →
    ∀ r ∈ readPairs n s, Formula.AllWithin P r.1 ∧ Formula.AllWithin P r.2.1 ∧ ∀ t ∈ r.2.2, t.Within P
  arguments : ∀ {named s}, (∀ t ∈ s, t.Within P) →
    ∀ r ∈ readArguments n named s, Formula.AllWithin P r.2.1 ∧ ∀ t ∈ r.2.2, t.Within P

theorem comparator?_within {s rest : List Token} {sign : Comparator} (hs : ∀ t ∈ s, t.Within P)
    (h : comparator? s = some (sign, rest)) : ∀ t ∈ rest, t.Within P := by
  unfold comparator? at h
  split at h <;> simp_all

theorem unaryOperator?_within {s rest : List Token} {op : UnaryOperator} (hs : ∀ t ∈ s, t.Within P)
    (h : unaryOperator? s = some (op, rest)) : ∀ t ∈ rest, t.Within P := by
  unfold unaryOperator? at h
  split at h <;> simp_all

theorem wordFormula?_within {word : String} (hword : P word) : ∀ f ∈ wordFormula? word, f.Within P := by
  unfold wordFormula?
  split
  · exact forall_mem_some trivial
  · exact forall_mem_some trivial
  · exact forall_mem_some trivial
  · split
    · exact forall_mem_none
    · exact forall_mem_some hword

theorem joinQuotations_within {text : String} {s : List Token} (hs : ∀ t ∈ s, t.Within P) :
    ∀ t ∈ (joinQuotations text s).2, t.Within P := by
  fun_induction joinQuotations text s with
  | case1 text more rest ih => exact ih (List.forall_mem_of_forall_mem_cons hs)
  | case2 => exact hs

section Step

variable {n : Nat} (ih : ReadersWithin P n) {s : List Token} (hs : ∀ t ∈ s, t.Within P)
include ih hs

theorem readConditional_within : ∀ r ∈ readConditional (n + 1) s, r.1.Within P ∧ ∀ t ∈ r.2, t.Within P := by
  rw [readConditional]
  refine forall_mem_bind (ih.junction hs) ?_
  rintro ⟨first, rest⟩ ⟨hfirst, hrest⟩
  dsimp only
  split
  · rename_i rest
    refine forall_mem_bind (ih.junction (List.forall_mem_of_forall_mem_cons hrest)) ?_
    rintro ⟨test, rest⟩ ⟨htest, hrest⟩
    dsimp only
    split
    · refine forall_mem_bind (ih.conditional (List.forall_mem_of_forall_mem_cons hrest)) ?_
      rintro ⟨other, rest⟩ ⟨hother, hrest⟩
      exact forall_mem_some ⟨⟨htest, hfirst, hother⟩, hrest⟩
    · exact forall_mem_none
  · exact forall_mem_some ⟨hfirst, hrest⟩

theorem readJunction_within {isConjunction : Bool} :
    ∀ r ∈ readJunction (n + 1) isConjunction s, r.1.Within P ∧ ∀ t ∈ r.2, t.Within P := by
  rw [readJunction]
  split
  case' isTrue => refine forall_mem_bind (ih.negation hs) ?_
  case' isFalse => refine forall_mem_bind (ih.junction hs) ?_
  all_goals
    rintro ⟨first, rest⟩ ⟨hfirst, hrest⟩
    refine forall_mem_bind (ih.operands hrest) ?_
    rintro ⟨others, rest⟩ ⟨hothers, hrest⟩
    refine forall_mem_some ⟨?_, hrest⟩
    dsimp only
    split
    · exact hfirst
    · exact ⟨hfirst, hothers⟩

theorem readOperands_within {isConjunction : Bool} :
    ∀ r ∈ readOperands (n + 1) isConjunction s, Formula.AllWithin P r.1 ∧ ∀ t ∈ r.2, t.Within P := by
  unfold readOperands
  dsimp only
  split
  · rename_i word rest
    have hrest := List.forall_mem_of_forall_mem_cons hs
    by_cases hword : word = if isConjunction then "and" else "or"
    · rw [if_pos hword]
      split
      case' isTrue => refine forall_mem_bind (ih.negation hrest) ?_
      case' isFalse => refine forall_mem_bind (ih.junction hrest) ?_
      all_goals
        rintro ⟨next, rest⟩ ⟨hnext, hrest⟩
        refine forall_mem_bind (ih.operands hrest) ?_
        rintro ⟨others, rest⟩ ⟨hothers, hrest⟩
        exact forall_mem_some ⟨⟨hnext, hothers⟩, hrest⟩
    · rw [if_neg hword]
      exact forall_mem_some ⟨trivial, hs⟩
  · exact forall_mem_some ⟨trivial, hs⟩

theorem readNegation_within : ∀ r ∈ readNegation (n + 1) s, r.1.Within P ∧ ∀ t ∈ r.2, t.Within P := by
  unfold readNegation
  split
  · contradiction
  · rename_i heq
    cases heq
    refine forall_mem_bind (ih.negation (List.forall_mem_of_forall_mem_cons hs)) ?_
    rintro ⟨operand, rest⟩ ⟨hoperand, hrest⟩
    exact forall_mem_some ⟨hoperand, hrest⟩
  · rename_i hn _
    cases hn
    exact ih.comparison hs

theorem readComparison_within : ∀ r ∈ readComparison (n + 1) s, r.1.Within P ∧ ∀ t ∈ r.2, t.Within P := by
  rw [readComparison]
  refine forall_mem_bind (ih.binary hs) ?_
  rintro ⟨first, rest⟩ ⟨hfirst, hrest⟩
  refine forall_mem_bind (ih.comparands hrest) ?_
  rintro ⟨signs, others, rest⟩ ⟨hothers, hrest⟩
  refine forall_mem_some ⟨?_, hrest⟩
  dsimp only
  split
  · exact hfirst
  · exact ⟨hfirst, hothers⟩

theorem readComparands_within :
    ∀ r ∈ readComparands (n + 1) s, Formula.AllWithin P r.2.1 ∧ ∀ t ∈ r.2.2, t.Within P := by
  rw [readComparands]
  split
  · exact forall_mem_some ⟨trivial, hs⟩
  · rename_i sign rest hsign
    refine forall_mem_bind (ih.binary (comparator?_within hs hsign)) ?_
    rintro ⟨next, rest⟩ ⟨hnext, hrest⟩
    refine forall_mem_bind (ih.comparands hrest) ?_
    rintro ⟨signs, others, rest⟩ ⟨hothers, hrest⟩
    exact forall_mem_some ⟨⟨hnext, hothers⟩, hrest⟩

theorem readBinary_within {level : Nat} :
    ∀ r ∈ readBinary (n + 1) level s, r.1.Within P ∧ ∀ t ∈ r.2, t.Within P := by
  rw [readBinary]
  split
  · exact ih.signed hs
  · refine forall_mem_bind (ih.binary hs) ?_
    rintro ⟨first, rest⟩ ⟨hfirst, hrest⟩
    exact ih.binaryRest hfirst hrest

theorem readBinaryRest_within {level : Nat} {left : Formula} (hleft : left.Within P) :
    ∀ r ∈ readBinaryRest (n + 1) level left s, r.1.Within P ∧ ∀ t ∈ r.2, t.Within P := by
  unfold readBinaryRest
  dsimp only
  split
  · split
    · refine forall_mem_bind (ih.binary (List.forall_mem_of_forall_mem_cons hs)) ?_
      rintro ⟨right, rest⟩ ⟨hright, hrest⟩
      exact ih.binaryRest ⟨hleft, hright⟩ hrest
    · exact forall_mem_some ⟨hleft, hs⟩
  · exact forall_mem_some ⟨hleft, hs⟩

theorem readSigned_within : ∀ r ∈ readSigned (n + 1) s, r.1.Within P ∧ ∀ t ∈ r.2, t.Within P := by
  rw [readSigned]
  split
  · rename_i op rest hop
    refine forall_mem_bind (ih.signed (unaryOperator?_within hs hop)) ?_
    rintro ⟨operand, rest⟩ ⟨hoperand, hrest⟩
    exact forall_mem_some ⟨hoperand, hrest⟩
  · exact ih.power hs

theorem readPower_within : ∀ r ∈ readPower (n + 1) s, r.1.Within P ∧ ∀ t ∈ r.2, t.Within P := by
  rw [readPower]
  refine forall_mem_bind (ih.primary hs) ?_
  rintro ⟨base, rest⟩ ⟨hbase, hrest⟩
  dsimp only
  split
  · refine forall_mem_bind (ih.signed (List.forall_mem_of_forall_mem_cons hrest)) ?_
    rintro ⟨exponent, rest⟩ ⟨hexponent, hrest⟩
    exact forall_mem_some ⟨⟨hbase, hexponent⟩, hrest⟩
  · exact forall_mem_some ⟨hbase, hrest⟩

theorem readPrimary_within : ∀ r ∈ readPrimary (n + 1) s, r.1.Within P ∧ ∀ t ∈ r.2, t.Within P := by
  rw [readPrimary]
  refine forall_mem_bind (ih.atom hs) ?_
  rintro ⟨atom, rest⟩ ⟨hatom, hrest⟩
  exact ih.trailers hatom hrest

theorem readTrailers_within {f : Formula} (hf : f.Within P) :
    ∀ r ∈ readTrailers (n + 1) f s, r.1.Within P ∧ ∀ t ∈ r.2, t.Within P := by
  unfold readTrailers
  dsimp only
  split
  · refine forall_mem_bind (ih.arguments (List.forall_mem_of_forall_mem_cons hs)) ?_
    rintro ⟨labels, arguments, rest⟩ ⟨harguments, hrest⟩
    exact ih.trailers ⟨hf, harguments⟩ hrest
  · refine forall_mem_bind (ih.list (List.forall_mem_of_forall_mem_cons hs)) ?_
    rintro ⟨index, rest⟩ ⟨hindex, hrest⟩
    dsimp only
    split
    · exact ih.trailers ⟨hf, hindex⟩ (List.forall_mem_of_forall_mem_cons hrest)
    · exact forall_mem_none
  · split
    · exact forall_mem_none
    · exact ih.trailers hf (List.forall_mem_of_forall_mem_cons (List.forall_mem_of_forall_mem_cons hs))
  · exact forall_mem_some ⟨hf, hs⟩

theorem readItems_within :
    ∀ r ∈ readItems (n + 1) s, Formula.AllWithin P r.1 ∧ ∀ t ∈ r.2.2, t.Within P := by
  rw [readItems]
  refine forall_mem_bind (ih.conditional hs) ?_
  rintro ⟨first, rest⟩ ⟨hfirst, hrest⟩
  exact ih.moreItems hfirst hrest

theorem readMoreItems_within {first : Formula} (hfirst : first.Within P) :
    ∀ r ∈ readMoreItems (n + 1) first s, Formula.AllWithin P r.1 ∧ ∀ t ∈ r.2.2, t.Within P := by
  unfold readMoreItems
  dsimp only
  split
  · have hrest := List.forall_mem_of_forall_mem_cons hs
    split
    · exact forall_mem_some ⟨⟨hfirst, trivial⟩, hrest⟩
    · refine forall_mem_bind (ih.items hrest) ?_
      rintro ⟨others, comma, rest⟩ ⟨hothers, hrest⟩
      exact forall_mem_some ⟨⟨hfirst, hothers⟩, hrest⟩
  · exact forall_mem_some ⟨⟨hfirst, trivial⟩, hs⟩

theorem readList_within : ∀ r ∈ readList (n + 1) s, r.1.Within P ∧ ∀ t ∈ r.2, t.Within P := by
  rw [readList]
  refine forall_mem_bind (ih.items hs) ?_
  rintro ⟨items, comma, rest⟩ ⟨hitems, hrest⟩
  dsimp only
  split
  · exact forall_mem_some ⟨hitems.1, hrest⟩
  · exact forall_mem_some ⟨hitems, hrest⟩

theorem readPairs_within :
    ∀ r ∈ readPairs (n + 1) s, Formula.AllWithin P r.1 ∧ Formula.AllWithin P r.2.1 ∧ ∀ t ∈ r.2.2, t.Within P := by
  unfold readPairs
  dsimp only
  split
  · exact forall_mem_some ⟨trivial, trivial, List.forall_mem_of_forall_mem_cons hs⟩
  · have hrest := List.forall_mem_of_forall_mem_cons (List.forall_mem_of_forall_mem_cons hs)
    exact forall_mem_some ⟨trivial, trivial, hrest⟩
  · refine forall_mem_bind (ih.conditional (List.forall_mem_of_forall_mem_cons hs)) ?_
    rintro ⟨key, rest⟩ ⟨hkey, hrest⟩
    dsimp only
    split
    · refine forall_mem_bind (ih.conditional (List.forall_mem_of_forall_mem_cons hrest)) ?_
      rintro ⟨value, rest⟩ ⟨hvalue, hrest⟩
      refine forall_mem_bind (ih.pairs hrest) ?_
      rintro ⟨keys, values, rest⟩ ⟨hkeys, hvalues, hrest⟩
      exact forall_mem_some ⟨⟨hkey, hkeys⟩, ⟨hvalue, hvalues⟩, hrest⟩
    · exact forall_mem_none
  · exact forall_mem_none

theorem readAtom_within : ∀ r ∈ readAtom (n + 1) s, r.1.Within P ∧ ∀ t ∈ r.2, t.Within P := by
  unfold readAtom
  dsimp only
  have htail := fun {t rest} (h : ∀ u ∈ t :: rest, Token.Within P u) => List.forall_mem_of_forall_mem_cons h
  split
  · obtain ⟨hword, hrest⟩ := List.forall_mem_cons.mp hs
    exact Option.forall_mem_map.mpr fun f hf => ⟨wordFormula?_within hword f hf, hrest⟩
  · exact Option.forall_mem_map.mpr fun value _ => ⟨trivial, htail hs⟩
  · exact forall_mem_some ⟨trivial, joinQuotations_within (htail hs)⟩
  · exact forall_mem_some ⟨trivial, htail hs⟩
  · exact forall_mem_some ⟨trivial, htail (htail hs)⟩
  · refine forall_mem_bind (ih.conditional (htail (htail (htail hs)))) ?_
    rintro ⟨value, rest⟩ ⟨hvalue, hrest⟩
    dsimp only
    split
    · exact forall_mem_some ⟨hvalue, htail hrest⟩
    · exact forall_mem_none
  · refine forall_mem_bind (ih.list (htail hs)) ?_
    rintro ⟨f, rest⟩ ⟨hf, hrest⟩
    dsimp only
    split
    · exact forall_mem_some ⟨hf, htail hrest⟩
    · exact forall_mem_none
  · exact forall_mem_some ⟨trivial, htail (htail hs)⟩
  · refine forall_mem_bind (ih.items (htail hs)) ?_
    rintro ⟨items, comma, rest⟩ ⟨hitems, hrest⟩
    dsimp only
    split
    · exact forall_mem_some ⟨hitems, htail hrest⟩
    · exact forall_mem_none
  · exact forall_mem_some ⟨⟨trivial, trivial⟩, htail (htail hs)⟩
  · refine forall_mem_bind (ih.conditional (htail hs)) ?_
    rintro ⟨first, after⟩ ⟨hfirst, hafter⟩
    dsimp only
    split
    · refine forall_mem_bind (ih.conditional (htail hafter)) ?_
      rintro ⟨value, after⟩ ⟨hvalue, hafter⟩
      refine forall_mem_bind (ih.pairs hafter) ?_
      rintro ⟨keys, values, after⟩ ⟨hkeys, hvalues, hafter⟩
      exact forall_mem_some ⟨⟨⟨hfirst, hkeys⟩, ⟨hvalue, hvalues⟩⟩, hafter⟩
    · refine forall_mem_bind (ih.moreItems hfirst hafter) ?_
      rintro ⟨items, comma, after⟩ ⟨hitems, hafter⟩
      dsimp only
      split
      · exact forall_mem_some ⟨hitems, htail hafter⟩
      · exact forall_mem_none
  · exact forall_mem_none

theorem readArguments_within {named : Bool} :
    ∀ r ∈ readArguments (n + 1) named s, Formula.AllWithin P r.2.1 ∧ ∀ t ∈ r.2.2, t.Within P := by
  unfold readArguments
  dsimp -zeta only
  extract_lets finish
  have hfinish : ∀ label f rest, Formula.Within P f → (∀ t ∈ rest, Token.Within P t) →
      ∀ r ∈ finish label f rest, Formula.AllWithin P r.2.1 ∧ ∀ t ∈ r.2.2, t.Within P := by
    intro label f rest hf hrest
    dsimp only [finish]
    split
    · exact forall_mem_some ⟨⟨hf, trivial⟩, List.forall_mem_of_forall_mem_cons hrest⟩
    · refine forall_mem_bind (ih.arguments (List.forall_mem_of_forall_mem_cons hrest)) ?_
      rintro ⟨labels, others, rest⟩ ⟨hothers, hrest⟩
      exact forall_mem_some ⟨⟨hf, hothers⟩, hrest⟩
    · exact forall_mem_none
  clear_value finish
  split
  · exact forall_mem_some ⟨trivial, List.forall_mem_of_forall_mem_cons hs⟩
  · refine forall_mem_bind (ih.conditional (List.forall_mem_of_forall_mem_cons hs)) ?_
    rintro ⟨f, rest⟩ ⟨hf, hrest⟩
    exact hfinish _ f rest hf hrest
  · refine forall_mem_bind (ih.conditional (List.forall_mem_of_forall_mem_cons hs)) ?_
    rintro ⟨f, rest⟩ ⟨hf, hrest⟩
    exact hfinish _ f rest hf hrest
  · split
    · have hrest := List.forall_mem_of_forall_mem_cons (List.forall_mem_of_forall_mem_cons hs)
      refine forall_mem_bind (ih.conditional hrest) ?_
      rintro ⟨f, rest⟩ ⟨hf, hrest⟩
      exact hfinish _ f rest hf hrest
    · exact forall_mem_none
  · refine forall_mem_bind (ih.conditional hs) ?_
    rintro ⟨f, rest⟩ ⟨hf, hrest⟩
    dsimp only
    split
    · exact forall_mem_none
    · exact hfinish _ f rest hf hrest

end Step

theorem readersWithin (P : String → Prop) (n : Nat) : ReadersWithin P n := by
  induction n with
  | zero => constructor <;> intros <;> rename_i h <;> cases h
  | succ n ih =>
    exact {
      conditional := readConditional_within ih
      junction := fun hs => readJunction_within ih hs
      operands := fun hs => readOperands_within ih hs
      negation := readNegation_within ih
      comparison := readComparison_within ih
      comparands := readComparands_within ih
      binary := fun hs => readBinary_within ih hs
      binaryRest := fun hleft hs => readBinaryRest_within ih hs hleft
      signed := readSigned_within ih
      power := readPower_within ih
      primary := readPrimary_within ih
      trailers := fun hf hs => readTrailers_within ih hs hf
      atom := readAtom_within ih
      items := readItems_within ih
      moreItems := fun hfirst hs => readMoreItems_within ih hs hfirst
      list := readList_within ih
      pairs := readPairs_within ih
      arguments := fun hs => readArguments_within ih hs }

/-! ### Statements -/

theorem readAssigned_within {n m : Nat} {target : Formula} {s : List Token} (htarget : target.Within P)
    (hs : ∀ t ∈ s, t.Within P) :
    ∀ r ∈ readAssigned n m target s, (∀ f ∈ r.1, Formula.Within P f) ∧ ∀ t ∈ r.2, t.Within P := by
  have hreaders := readersWithin P n
  have htail := fun {t rest} (h : ∀ u ∈ t :: rest, Token.Within P u) => List.forall_mem_of_forall_mem_cons h
  induction m generalizing target s with
  | zero => exact forall_mem_none
  | succ m ih =>
    unfold readAssigned
    dsimp only
    split
    · split
      · exact forall_mem_none
      · refine forall_mem_bind (hreaders.list (htail hs)) ?_
        rintro ⟨value, rest⟩ ⟨hvalue, hrest⟩
        dsimp only at hvalue hrest ⊢
        split
        · exact ih hvalue hrest
        · exact forall_mem_some ⟨forall_mem_some hvalue, hrest⟩
    · split
      · exact forall_mem_none
      · refine forall_mem_bind (hreaders.conditional (htail hs)) ?_
        rintro ⟨kind, rest⟩ ⟨-, hrest⟩
        dsimp only at hrest ⊢
        split
        · refine forall_mem_bind (hreaders.list (htail hrest)) ?_
          rintro ⟨value, rest⟩ ⟨hvalue, hrest⟩
          exact forall_mem_some ⟨forall_mem_some hvalue, hrest⟩
        · exact forall_mem_some ⟨forall_mem_none, hrest⟩
    · split
      · exact forall_mem_none
      · refine forall_mem_bind (hreaders.list (htail hs)) ?_
        rintro ⟨value, rest⟩ ⟨hvalue, hrest⟩
        exact forall_mem_some ⟨forall_mem_some hvalue, hrest⟩
    · exact forall_mem_none

/-- The value of a statement. -/
theorem readStatement_within {n : Nat} {s : List Token} (hs : ∀ t ∈ s, t.Within P) :
    ∀ r ∈ readStatement n s, ∀ f ∈ r.2.1, f.Within P := by
  have hreaders := readersWithin P n
  unfold readStatement
  split
  · exact forall_mem_some forall_mem_none
  · exact forall_mem_some forall_mem_none
  · exact forall_mem_some forall_mem_none
  · split
    · rename_i f rest heq
      exact forall_mem_some (forall_mem_some (hreaders.list (List.forall_mem_of_forall_mem_cons hs) _ heq).1)
    · exact forall_mem_some forall_mem_none
  · split <;> exact forall_mem_some forall_mem_none
  · refine forall_mem_bind (Q := fun _ => True) (by simp) fun r _ => ?_
    dsimp only
    split
    · exact forall_mem_some forall_mem_none
    · exact forall_mem_none
  · exact forall_mem_bind (Q := fun _ => True) (by simp) fun r _ => forall_mem_some forall_mem_none
  · refine forall_mem_bind (hreaders.list hs) ?_
    rintro ⟨f, rest⟩ ⟨hf, hrest⟩
    dsimp only at hf hrest ⊢
    split
    · exact forall_mem_some (forall_mem_some hf)
    · exact forall_mem_some (forall_mem_some hf)
    · exact forall_mem_some (forall_mem_some hf)
    · refine forall_mem_bind (readAssigned_within hf hrest) ?_
      rintro ⟨value, rest⟩ ⟨hvalue, -⟩
      exact forall_mem_some hvalue

/-- The names that the value of a program looks up are among some words. -/
def Program.Within (P : String → Prop) : Program → Prop
  | .empty => True
  | .expression f => f.Within P
  | .statements value => ∀ f ∈ value, f.Within P

theorem Program.read?_within {tokens : List Token} (htokens : ∀ t ∈ tokens, t.Within P) :
    ∀ program ∈ Program.read? tokens, program.Within P := by
  unfold Program.read?
  refine forall_mem_bind (joinOperators_within htokens) fun s hs => ?_
  dsimp only
  split
  · exact forall_mem_none
  · split
    · exact forall_mem_some trivial
    · refine forall_mem_bind (readStatement_within fun t ht => hs t ((List.dropWhile_sublist _).subset ht)) ?_
      rintro ⟨isExpression, value, rest⟩ hvalue
      dsimp only at hvalue ⊢
      split
      · split
        · exact forall_mem_some (hvalue _ rfl)
        · exact forall_mem_some hvalue
      · split
        · split
          · exact forall_mem_some (hvalue _ rfl)
          · exact forall_mem_some hvalue
        · split
          · exact forall_mem_some hvalue
          · exact forall_mem_none
      · split
        · exact forall_mem_some hvalue
        · exact forall_mem_none
      · exact forall_mem_none

end Readers

end Reckoner.Expression
