import Reckoner.Proofs.Expression.Mentions

/-!
# What the readers consume

A reader takes its formula from the front of the tokens and leaves fewer of them.  A reader of what may follow a
formula need not take anything, so it leaves no more than it was given.
-/

namespace Reckoner.Expression

/-! ### Single steps -/

theorem length_lt_of_comparator? {s rest : List Token} {sign : Comparator} (h : comparator? s = some (sign, rest)) :
    rest.length < s.length := by
  unfold comparator? at h
  split at h <;> cases h <;> simp only [List.length_cons] <;> omega

theorem length_lt_of_unaryOperator? {s rest : List Token} {op : UnaryOperator}
    (h : unaryOperator? s = some (op, rest)) : rest.length < s.length := by
  unfold unaryOperator? at h
  split at h <;> cases h <;> exact Nat.lt_succ_self _

theorem length_joinQuotations (text : String) (s : List Token) : (joinQuotations text s).2.length ≤ s.length := by
  fun_induction joinQuotations text s with
  | case1 text more rest ih =>
    rw [List.length_cons]
    omega
  | case2 => exact Nat.le_refl _

/-! ### The readers of formulas -/

/-- How many tokens the readers leave that may make some number of nested calls. -/
structure ReadersConsume (n : Nat) : Prop where
  conditional : ∀ {s}, ∀ r ∈ readConditional n s, r.2.length < s.length
  junction : ∀ {isConjunction s}, ∀ r ∈ readJunction n isConjunction s, r.2.length < s.length
  operands : ∀ {isConjunction s}, ∀ r ∈ readOperands n isConjunction s, r.2.length ≤ s.length
  negation : ∀ {s}, ∀ r ∈ readNegation n s, r.2.length < s.length
  comparison : ∀ {s}, ∀ r ∈ readComparison n s, r.2.length < s.length
  comparands : ∀ {s}, ∀ r ∈ readComparands n s, r.2.2.length ≤ s.length
  binary : ∀ {level s}, ∀ r ∈ readBinary n level s, r.2.length < s.length
  binaryRest : ∀ {level left s}, ∀ r ∈ readBinaryRest n level left s, r.2.length ≤ s.length
  signed : ∀ {s}, ∀ r ∈ readSigned n s, r.2.length < s.length
  power : ∀ {s}, ∀ r ∈ readPower n s, r.2.length < s.length
  primary : ∀ {s}, ∀ r ∈ readPrimary n s, r.2.length < s.length
  trailers : ∀ {f s}, ∀ r ∈ readTrailers n f s, r.2.length ≤ s.length
  atom : ∀ {s}, ∀ r ∈ readAtom n s, r.2.length < s.length
  items : ∀ {s}, ∀ r ∈ readItems n s, r.2.2.length < s.length
  moreItems : ∀ {first s}, ∀ r ∈ readMoreItems n first s, r.2.2.length ≤ s.length
  list : ∀ {s}, ∀ r ∈ readList n s, r.2.length < s.length
  pairs : ∀ {s}, ∀ r ∈ readPairs n s, r.2.2.length ≤ s.length
  arguments : ∀ {named s}, ∀ r ∈ readArguments n named s, r.2.2.length ≤ s.length

section Step

variable {n : Nat} (ih : ReadersConsume n) {s : List Token}
include ih

theorem readConditional_consumes : ∀ r ∈ readConditional (n + 1) s, r.2.length < s.length := by
  rw [readConditional]
  refine forall_mem_bind ih.junction ?_
  rintro ⟨first, rest⟩ hrest
  dsimp only at hrest ⊢
  split
  · rename_i rest
    rw [List.length_cons] at hrest
    refine forall_mem_bind ih.junction ?_
    rintro ⟨test, after⟩ hafter
    dsimp only at hafter ⊢
    split
    · rename_i after
      rw [List.length_cons] at hafter
      refine forall_mem_bind ih.conditional ?_
      rintro ⟨other, last⟩ hlast
      refine forall_mem_some ?_
      dsimp only at hlast ⊢
      omega
    · exact forall_mem_none
  · exact forall_mem_some hrest

theorem readJunction_consumes {isConjunction : Bool} :
    ∀ r ∈ readJunction (n + 1) isConjunction s, r.2.length < s.length := by
  rw [readJunction]
  split
  case' isTrue => refine forall_mem_bind ih.negation ?_
  case' isFalse => refine forall_mem_bind ih.junction ?_
  all_goals
    rintro ⟨first, rest⟩ hrest
    refine forall_mem_bind ih.operands ?_
    rintro ⟨others, after⟩ hafter
    exact forall_mem_some (Nat.lt_of_le_of_lt hafter hrest)

theorem readOperands_consumes {isConjunction : Bool} :
    ∀ r ∈ readOperands (n + 1) isConjunction s, r.2.length ≤ s.length := by
  unfold readOperands
  dsimp only
  split
  · rename_i word rest
    by_cases hword : word = if isConjunction then "and" else "or"
    · rw [if_pos hword]
      split
      case' isTrue => refine forall_mem_bind ih.negation ?_
      case' isFalse => refine forall_mem_bind ih.junction ?_
      all_goals
        rintro ⟨next, after⟩ hafter
        refine forall_mem_bind ih.operands ?_
        rintro ⟨others, last⟩ hlast
        refine forall_mem_some ?_
        dsimp only at hafter hlast ⊢
        rw [List.length_cons]
        omega
    · rw [if_neg hword]
      exact forall_mem_some (Nat.le_refl _)
  · exact forall_mem_some (Nat.le_refl _)

theorem readNegation_consumes : ∀ r ∈ readNegation (n + 1) s, r.2.length < s.length := by
  unfold readNegation
  split
  · contradiction
  · rename_i heq
    cases heq
    refine forall_mem_bind ih.negation ?_
    rintro ⟨operand, rest⟩ hrest
    exact forall_mem_some (Nat.lt_succ_of_lt hrest)
  · rename_i hn _
    cases hn
    exact ih.comparison

theorem readComparison_consumes : ∀ r ∈ readComparison (n + 1) s, r.2.length < s.length := by
  rw [readComparison]
  refine forall_mem_bind ih.binary ?_
  rintro ⟨first, rest⟩ hrest
  refine forall_mem_bind ih.comparands ?_
  rintro ⟨signs, others, after⟩ hafter
  exact forall_mem_some (Nat.lt_of_le_of_lt hafter hrest)

theorem readComparands_consumes : ∀ r ∈ readComparands (n + 1) s, r.2.2.length ≤ s.length := by
  rw [readComparands]
  split
  · exact forall_mem_some (Nat.le_refl _)
  · rename_i sign rest hsign
    have hrest := length_lt_of_comparator? hsign
    refine forall_mem_bind ih.binary ?_
    rintro ⟨next, after⟩ hafter
    refine forall_mem_bind ih.comparands ?_
    rintro ⟨signs, others, last⟩ hlast
    refine forall_mem_some ?_
    dsimp only at hafter hlast ⊢
    omega

theorem readBinary_consumes {level : Nat} : ∀ r ∈ readBinary (n + 1) level s, r.2.length < s.length := by
  rw [readBinary]
  split
  · exact ih.signed
  · refine forall_mem_bind ih.binary ?_
    rintro ⟨first, rest⟩ hrest
    exact fun r hr => Nat.lt_of_le_of_lt (ih.binaryRest r hr) hrest

theorem readBinaryRest_consumes {level : Nat} {left : Formula} :
    ∀ r ∈ readBinaryRest (n + 1) level left s, r.2.length ≤ s.length := by
  unfold readBinaryRest
  dsimp only
  split
  · split
    · refine forall_mem_bind ih.binary ?_
      rintro ⟨right, after⟩ hafter r hr
      have hlast := ih.binaryRest r hr
      dsimp only at hafter hlast
      rw [List.length_cons]
      omega
    · exact forall_mem_some (Nat.le_refl _)
  · exact forall_mem_some (Nat.le_refl _)

theorem readSigned_consumes : ∀ r ∈ readSigned (n + 1) s, r.2.length < s.length := by
  rw [readSigned]
  split
  · rename_i op rest hop
    have hrest := length_lt_of_unaryOperator? hop
    refine forall_mem_bind ih.signed ?_
    rintro ⟨operand, after⟩ hafter
    exact forall_mem_some (Nat.lt_trans hafter hrest)
  · exact ih.power

theorem readPower_consumes : ∀ r ∈ readPower (n + 1) s, r.2.length < s.length := by
  rw [readPower]
  refine forall_mem_bind ih.primary ?_
  rintro ⟨base, rest⟩ hrest
  dsimp only at hrest ⊢
  split
  · rename_i rest
    rw [List.length_cons] at hrest
    refine forall_mem_bind ih.signed ?_
    rintro ⟨exponent, after⟩ hafter
    refine forall_mem_some ?_
    dsimp only at hafter ⊢
    omega
  · exact forall_mem_some hrest

theorem readPrimary_consumes : ∀ r ∈ readPrimary (n + 1) s, r.2.length < s.length := by
  rw [readPrimary]
  refine forall_mem_bind ih.atom ?_
  rintro ⟨atom, rest⟩ hrest
  exact fun r hr => Nat.lt_of_le_of_lt (ih.trailers r hr) hrest

theorem readTrailers_consumes {f : Formula} : ∀ r ∈ readTrailers (n + 1) f s, r.2.length ≤ s.length := by
  unfold readTrailers
  dsimp only
  split
  · refine forall_mem_bind ih.arguments ?_
    rintro ⟨labels, arguments, after⟩ hafter r hr
    have hlast := ih.trailers r hr
    dsimp only at hafter hlast
    rw [List.length_cons]
    omega
  · refine forall_mem_bind ih.list ?_
    rintro ⟨index, after⟩ hafter
    dsimp only at hafter ⊢
    split
    · intro r hr
      have hlast := ih.trailers r hr
      rw [List.length_cons] at hafter ⊢
      omega
    · exact forall_mem_none
  · split
    · exact forall_mem_none
    · intro r hr
      have hlast := ih.trailers r hr
      simp only [List.length_cons]
      omega
  · exact forall_mem_some (Nat.le_refl _)

theorem readItems_consumes : ∀ r ∈ readItems (n + 1) s, r.2.2.length < s.length := by
  rw [readItems]
  refine forall_mem_bind ih.conditional ?_
  rintro ⟨first, rest⟩ hrest
  exact fun r hr => Nat.lt_of_le_of_lt (ih.moreItems r hr) hrest

theorem readMoreItems_consumes {first : Formula} :
    ∀ r ∈ readMoreItems (n + 1) first s, r.2.2.length ≤ s.length := by
  unfold readMoreItems
  dsimp only
  split
  · split
    · exact forall_mem_some (Nat.le_succ _)
    · refine forall_mem_bind ih.items ?_
      rintro ⟨others, comma, after⟩ hafter
      refine forall_mem_some ?_
      dsimp only at hafter ⊢
      rw [List.length_cons]
      omega
  · exact forall_mem_some (Nat.le_refl _)

theorem readList_consumes : ∀ r ∈ readList (n + 1) s, r.2.length < s.length := by
  rw [readList]
  refine forall_mem_bind ih.items ?_
  rintro ⟨items, comma, rest⟩ hrest
  dsimp only
  split <;> exact forall_mem_some hrest

theorem readPairs_consumes : ∀ r ∈ readPairs (n + 1) s, r.2.2.length ≤ s.length := by
  unfold readPairs
  dsimp only
  split
  · exact forall_mem_some (Nat.le_succ _)
  · refine forall_mem_some ?_
    simp only [List.length_cons]
    omega
  · refine forall_mem_bind ih.conditional ?_
    rintro ⟨key, after⟩ hafter
    dsimp only at hafter ⊢
    split
    · rename_i after
      refine forall_mem_bind ih.conditional ?_
      rintro ⟨value, last⟩ hlast
      refine forall_mem_bind ih.pairs ?_
      rintro ⟨keys, values, tail⟩ htail
      refine forall_mem_some ?_
      dsimp only at hlast htail ⊢
      rw [List.length_cons] at hafter ⊢
      omega
    · exact forall_mem_none
  · exact forall_mem_none

theorem readAtom_consumes : ∀ r ∈ readAtom (n + 1) s, r.2.length < s.length := by
  unfold readAtom
  dsimp only
  split
  · exact Option.forall_mem_map.mpr fun f _ => Nat.lt_succ_self _
  · exact Option.forall_mem_map.mpr fun value _ => Nat.lt_succ_self _
  · exact forall_mem_some (Nat.lt_succ_of_le (length_joinQuotations _ _))
  · exact forall_mem_some (Nat.lt_succ_self _)
  · refine forall_mem_some ?_
    simp only [List.length_cons]
    omega
  · refine forall_mem_bind ih.conditional ?_
    rintro ⟨value, after⟩ hafter
    dsimp only at hafter ⊢
    split
    · refine forall_mem_some ?_
      simp only [List.length_cons] at hafter ⊢
      omega
    · exact forall_mem_none
  · refine forall_mem_bind ih.list ?_
    rintro ⟨f, after⟩ hafter
    dsimp only at hafter ⊢
    split
    · refine forall_mem_some ?_
      simp only [List.length_cons] at hafter ⊢
      omega
    · exact forall_mem_none
  · refine forall_mem_some ?_
    simp only [List.length_cons]
    omega
  · refine forall_mem_bind ih.items ?_
    rintro ⟨items, comma, after⟩ hafter
    dsimp only at hafter ⊢
    split
    · refine forall_mem_some ?_
      simp only [List.length_cons] at hafter ⊢
      omega
    · exact forall_mem_none
  · refine forall_mem_some ?_
    simp only [List.length_cons]
    omega
  · refine forall_mem_bind ih.conditional ?_
    rintro ⟨first, after⟩ hafter
    dsimp only at hafter ⊢
    split
    · rename_i after
      refine forall_mem_bind ih.conditional ?_
      rintro ⟨value, last⟩ hlast
      refine forall_mem_bind ih.pairs ?_
      rintro ⟨keys, values, tail⟩ htail
      refine forall_mem_some ?_
      dsimp only at hlast htail ⊢
      simp only [List.length_cons] at hafter ⊢
      omega
    · refine forall_mem_bind ih.moreItems ?_
      rintro ⟨items, comma, last⟩ hlast
      dsimp only at hlast ⊢
      split
      · refine forall_mem_some ?_
        simp only [List.length_cons] at hlast ⊢
        omega
      · exact forall_mem_none
  · exact forall_mem_none

theorem readArguments_consumes {named : Bool} :
    ∀ r ∈ readArguments (n + 1) named s, r.2.2.length ≤ s.length := by
  unfold readArguments
  dsimp -zeta only
  extract_lets finish
  have hfinish : ∀ label f rest, ∀ r ∈ finish label f rest, r.2.2.length ≤ rest.length := by
    intro label f rest
    dsimp only [finish]
    split
    · exact forall_mem_some (Nat.le_succ _)
    · refine forall_mem_bind ih.arguments ?_
      rintro ⟨labels, others, after⟩ hafter
      exact forall_mem_some (Nat.le_succ_of_le hafter)
    · exact forall_mem_none
  clear_value finish
  split
  · exact forall_mem_some (Nat.le_succ _)
  · refine forall_mem_bind ih.conditional ?_
    rintro ⟨f, after⟩ hafter r hr
    have hlast := hfinish _ f after r hr
    dsimp only at hafter
    rw [List.length_cons]
    omega
  · refine forall_mem_bind ih.conditional ?_
    rintro ⟨f, after⟩ hafter r hr
    have hlast := hfinish _ f after r hr
    dsimp only at hafter
    rw [List.length_cons]
    omega
  · split
    · refine forall_mem_bind ih.conditional ?_
      rintro ⟨f, after⟩ hafter r hr
      have hlast := hfinish _ f after r hr
      dsimp only at hafter
      simp only [List.length_cons]
      omega
    · exact forall_mem_none
  · refine forall_mem_bind ih.conditional ?_
    rintro ⟨f, after⟩ hafter
    dsimp only at hafter ⊢
    split
    · exact forall_mem_none
    · exact fun r hr => Nat.le_of_lt (Nat.lt_of_le_of_lt (hfinish _ f after r hr) hafter)

end Step

theorem readersConsume (n : Nat) : ReadersConsume n := by
  induction n with
  | zero => constructor <;> intros <;> rename_i h <;> cases h
  | succ n ih =>
    exact {
      conditional := readConditional_consumes ih
      junction := readJunction_consumes ih
      operands := readOperands_consumes ih
      negation := readNegation_consumes ih
      comparison := readComparison_consumes ih
      comparands := readComparands_consumes ih
      binary := readBinary_consumes ih
      binaryRest := readBinaryRest_consumes ih
      signed := readSigned_consumes ih
      power := readPower_consumes ih
      primary := readPrimary_consumes ih
      trailers := readTrailers_consumes ih
      atom := readAtom_consumes ih
      items := readItems_consumes ih
      moreItems := readMoreItems_consumes ih
      list := readList_consumes ih
      pairs := readPairs_consumes ih
      arguments := readArguments_consumes ih }

/-! ### Statements -/

theorem readAssigned_consumes {n m : Nat} {target : Formula} {s : List Token} :
    ∀ r ∈ readAssigned n m target s, r.2.length ≤ s.length := by
  have hreaders := readersConsume n
  induction m generalizing target s with
  | zero => exact forall_mem_none
  | succ m ih =>
    unfold readAssigned
    dsimp only
    split
    · split
      · exact forall_mem_none
      · refine forall_mem_bind hreaders.list ?_
        rintro ⟨value, after⟩ hafter
        dsimp only at hafter ⊢
        rw [List.length_cons]
        split
        · intro r hr
          have hlast := ih r hr
          omega
        · exact forall_mem_some (Nat.le_of_lt (Nat.lt_succ_of_lt hafter))
    · split
      · exact forall_mem_none
      · refine forall_mem_bind hreaders.conditional ?_
        rintro ⟨kind, after⟩ hafter
        dsimp only at hafter ⊢
        rw [List.length_cons]
        split
        · rw [List.length_cons] at hafter
          refine forall_mem_bind hreaders.list ?_
          rintro ⟨value, last⟩ hlast
          refine forall_mem_some ?_
          dsimp only at hlast ⊢
          omega
        · exact forall_mem_some (Nat.le_of_lt (Nat.lt_succ_of_lt hafter))
    · split
      · exact forall_mem_none
      · refine forall_mem_bind hreaders.list ?_
        rintro ⟨value, after⟩ hafter
        exact forall_mem_some (Nat.le_of_lt (Nat.lt_succ_of_lt hafter))
    · exact forall_mem_none

theorem readStatement_consumes {n : Nat} {s : List Token} :
    ∀ r ∈ readStatement n s, r.2.2.length ≤ s.length := by
  have hreaders := readersConsume n
  unfold readStatement
  split
  · exact forall_mem_some (Nat.le_succ _)
  · exact forall_mem_some (Nat.le_succ _)
  · exact forall_mem_some (Nat.le_succ _)
  · split
    · rename_i heq
      exact forall_mem_some (Nat.le_of_lt (Nat.lt_succ_of_lt (hreaders.list _ heq)))
    · exact forall_mem_some (Nat.le_succ _)
  · split
    · rename_i heq
      exact forall_mem_some (Nat.le_of_lt (Nat.lt_succ_of_lt (hreaders.conditional _ heq)))
    · exact forall_mem_some (Nat.le_succ _)
  · refine forall_mem_bind hreaders.list ?_
    rintro ⟨f, after⟩ hafter
    dsimp only
    split
    · exact forall_mem_some (Nat.le_of_lt (Nat.lt_succ_of_lt hafter))
    · exact forall_mem_none
  · refine forall_mem_bind hreaders.list ?_
    rintro ⟨f, after⟩ hafter
    exact forall_mem_some (Nat.le_of_lt (Nat.lt_succ_of_lt hafter))
  · refine forall_mem_bind hreaders.list ?_
    rintro ⟨f, after⟩ hafter
    dsimp only at hafter ⊢
    split
    · exact forall_mem_some (Nat.zero_le _)
    · exact forall_mem_some (Nat.le_of_lt hafter)
    · exact forall_mem_some (Nat.le_of_lt hafter)
    · refine forall_mem_bind readAssigned_consumes ?_
      rintro ⟨value, last⟩ hlast
      exact forall_mem_some (Nat.le_trans hlast (Nat.le_of_lt hafter))

end Reckoner.Expression
