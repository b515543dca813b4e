import Reckoner.Proofs.Expression.Consumption

/-!
# Enough nested calls

The number of nested calls that a reader may make does not matter once it is large enough for the tokens: twenty-four
for each token, and a few more for the readers that have to descend to the tightest one first.  Every reader that is
called behind a token it has taken finds enough calls for those that are left.
-/

namespace Reckoner.Expression

/-- Two functions that agree on what an option can hold give the same when they are bound to it. -/
theorem bind_congr_of_mem {α β : Type} {Q : α → Prop} {o : Option α} (h : ∀ a ∈ o, Q a) {f g : α → Option β}
    (hfg : ∀ a, Q a → f a = g a) : o >>= f = o >>= g := by
  cases o with
  | none => rfl
  | some a => exact hfg a (h a rfl)

/-! ### The readers of formulas -/

/-- On tokens for which two numbers of nested calls are both enough, the readers do not tell them apart. -/
structure ReadersAgree (n m : Nat) : Prop where
  conditional : ∀ {s}, 24 * s.length + 15 ≤ min n m → readConditional n s = readConditional m s
  junction : ∀ {isConjunction s}, 24 * s.length + (if isConjunction then 13 else 14) ≤ min n m →
    readJunction n isConjunction s = readJunction m isConjunction s
  operands : ∀ {isConjunction s}, 24 * s.length + 1 ≤ min n m →
    readOperands n isConjunction s = readOperands m isConjunction s
  negation : ∀ {s}, 24 * s.length + 12 ≤ min n m → readNegation n s = readNegation m s
  comparison : ∀ {s}, 24 * s.length + 11 ≤ min n m → readComparison n s = readComparison m s
  comparands : ∀ {s}, 24 * s.length + 1 ≤ min n m → readComparands n s = readComparands m s
  binary : ∀ {level s}, level ≤ 5 → 24 * s.length + (10 - level) ≤ min n m →
    readBinary n level s = readBinary m level s
  binaryRest : ∀ {level left s}, level < 5 → 24 * s.length + 1 ≤ min n m →
    readBinaryRest n level left s = readBinaryRest m level left s
  signed : ∀ {s}, 24 * s.length + 4 ≤ min n m → readSigned n s = readSigned m s
  power : ∀ {s}, 24 * s.length + 3 ≤ min n m → readPower n s = readPower m s
  primary : ∀ {s}, 24 * s.length + 2 ≤ min n m → readPrimary n s = readPrimary m s
  trailers : ∀ {f s}, 24 * s.length + 1 ≤ min n m → readTrailers n f s = readTrailers m f s
  atom : ∀ {s}, 24 * s.length + 1 ≤ min n m → readAtom n s = readAtom m s
  items : ∀ {s}, 24 * s.length + 16 ≤ min n m → readItems n s = readItems m s
  moreItems : ∀ {first s}, 24 * s.length + 1 ≤ min n m → readMoreItems n first s = readMoreItems m first s
  list : ∀ {s}, 24 * s.length + 17 ≤ min n m → readList n s = readList m s
  pairs : ∀ {s}, 24 * s.length + 1 ≤ min n m → readPairs n s = readPairs m s
  arguments : ∀ {named s}, 24 * s.length + 16 ≤ min n m → readArguments n named s = readArguments m named s

section Step

variable {n m : Nat} (ih : ReadersAgree n m) {s : List Token}
include ih

theorem readConditional_agrees (h : 24 * s.length + 15 ≤ min (n + 1) (m + 1)) :
    readConditional (n + 1) s = readConditional (m + 1) s := by
  rw [readConditional, readConditional, ih.junction (by simp; omega)]
  refine bind_congr_of_mem (readersConsume m).junction ?_
  rintro ⟨first, rest⟩ hrest
  dsimp only at hrest ⊢
  split
  · rename_i rest
    rw [List.length_cons] at hrest
    rw [ih.junction (by simp; omega)]
    refine bind_congr_of_mem (readersConsume m).junction ?_
    rintro ⟨test, after⟩ hafter
    dsimp only at hafter ⊢
    split
    · rename_i after
      rw [List.length_cons] at hafter
      rw [ih.conditional (by omega)]
    · rfl
  · rfl

theorem readJunction_agrees {isConjunction : Bool}
    (h : 24 * s.length + (if isConjunction then 13 else 14) ≤ min (n + 1) (m + 1)) :
    readJunction (n + 1) isConjunction s = readJunction (m + 1) isConjunction s := by
  rw [readJunction, readJunction]
  split
  case' isTrue =>
    rw [ih.negation (by simp_all)]
    refine bind_congr_of_mem (readersConsume m).negation ?_
  case' isFalse =>
    rw [ih.junction (by simp_all)]
    refine bind_congr_of_mem (readersConsume m).junction ?_
  all_goals
    rintro ⟨first, rest⟩ hrest
    dsimp only at hrest ⊢
    rw [ih.operands (by split at h <;> omega)]

theorem readOperands_agrees {isConjunction : Bool} (h : 24 * s.length + 1 ≤ min (n + 1) (m + 1)) :
    readOperands (n + 1) isConjunction s = readOperands (m + 1) isConjunction s := by
  unfold readOperands
  dsimp only
  split
  · rename_i word rest
    rw [List.length_cons] at h
    by_cases hword : word = if isConjunction then "and" else "or"
    · rw [if_pos hword, if_pos hword]
      split
      case' isTrue =>
        rw [ih.negation (by omega)]
        refine bind_congr_of_mem (readersConsume m).negation ?_
      case' isFalse =>
        rw [ih.junction (by simp; omega)]
        refine bind_congr_of_mem (readersConsume m).junction ?_
      all_goals
        rintro ⟨next, after⟩ hafter
        dsimp only at hafter ⊢
        rw [ih.operands (by omega)]
    · rw [if_neg hword, if_neg hword]
  · rfl

theorem readNegation_agrees (h : 24 * s.length + 12 ≤ min (n + 1) (m + 1)) :
    readNegation (n + 1) s = readNegation (m + 1) s := by
  by_cases hnot : ∃ rest, s = .name "not" :: rest
  · obtain ⟨rest, rfl⟩ := hnot
    rw [List.length_cons] at h
    rw [readNegation, readNegation, ih.negation (by omega)]
  · have hs : ∀ rest, s = .name "not" :: rest → False := fun rest heq => hnot ⟨rest, heq⟩
    rw [readNegation, readNegation, ih.comparison (by omega)]
    · exact hs
    · exact hs

theorem readComparison_agrees (h : 24 * s.length + 11 ≤ min (n + 1) (m + 1)) :
    readComparison (n + 1) s = readComparison (m + 1) s := by
  rw [readComparison, readComparison, ih.binary (by omega) (by omega)]
  refine bind_congr_of_mem (readersConsume m).binary ?_
  rintro ⟨first, rest⟩ hrest
  dsimp only at hrest ⊢
  rw [ih.comparands (by omega)]

theorem readComparands_agrees (h : 24 * s.length + 1 ≤ min (n + 1) (m + 1)) :
    readComparands (n + 1) s = readComparands (m + 1) s := by
  rw [readComparands, readComparands]
  split
  · rfl
  · rename_i sign rest hsign
    have hrest := length_lt_of_comparator? hsign
    rw [ih.binary (by omega) (by omega)]
    refine bind_congr_of_mem (readersConsume m).binary ?_
    rintro ⟨next, after⟩ hafter
    dsimp only at hafter ⊢
    rw [ih.comparands (by omega)]

theorem readBinary_agrees {level : Nat} (hlevel : level ≤ 5) (h : 24 * s.length + (10 - level) ≤ min (n + 1) (m + 1)) :
    readBinary (n + 1) level s = readBinary (m + 1) level s := by
  rw [readBinary, readBinary]
  split
  · exact ih.signed (by omega)
  · rw [ih.binary (by omega) (by omega)]
    refine bind_congr_of_mem (readersConsume m).binary ?_
    rintro ⟨first, rest⟩ hrest
    dsimp only at hrest ⊢
    exact ih.binaryRest (by omega) (by omega)

theorem readBinaryRest_agrees {level : Nat} {left : Formula} (hlevel : level < 5)
    (h : 24 * s.length + 1 ≤ min (n + 1) (m + 1)) :
    readBinaryRest (n + 1) level left s = readBinaryRest (m + 1) level left s := by
  unfold readBinaryRest
  dsimp only
  split
  · rw [List.length_cons] at h
    split
    · rw [ih.binary (by omega) (by omega)]
      refine bind_congr_of_mem (readersConsume m).binary ?_
      rintro ⟨right, after⟩ hafter
      dsimp only at hafter ⊢
      exact ih.binaryRest hlevel (by omega)
    · rfl
  · rfl

theorem readSigned_agrees (h : 24 * s.length + 4 ≤ min (n + 1) (m + 1)) :
    readSigned (n + 1) s = readSigned (m + 1) s := by
  rw [readSigned, readSigned]
  split
  · rename_i op rest hop
    have hrest := length_lt_of_unaryOperator? hop
    rw [ih.signed (by omega)]
  · exact ih.power (by omega)

theorem readPower_agrees (h : 24 * s.length + 3 ≤ min (n + 1) (m + 1)) :
    readPower (n + 1) s = readPower (m + 1) s := by
  rw [readPower, readPower, ih.primary (by omega)]
  refine bind_congr_of_mem (readersConsume m).primary ?_
  rintro ⟨base, rest⟩ hrest
  dsimp only at hrest ⊢
  split
  · rename_i rest
    rw [List.length_cons] at hrest
    rw [ih.signed (by omega)]
  · rfl

theorem readPrimary_agrees (h : 24 * s.length + 2 ≤ min (n + 1) (m + 1)) :
    readPrimary (n + 1) s = readPrimary (m + 1) s := by
  rw [readPrimary, readPrimary, ih.atom (by omega)]
  refine bind_congr_of_mem (readersConsume m).atom ?_
  rintro ⟨atom, rest⟩ hrest
  dsimp only at hrest ⊢
  exact ih.trailers (by omega)

theorem readTrailers_agrees {f : Formula} (h : 24 * s.length + 1 ≤ min (n + 1) (m + 1)) :
    readTrailers (n + 1) f s = readTrailers (m + 1) f s := by
  unfold readTrailers
  dsimp only
  split
  · rw [List.length_cons] at h
    rw [ih.arguments (by omega)]
    refine bind_congr_of_mem (readersConsume m).arguments ?_
    rintro ⟨labels, arguments, after⟩ hafter
    dsimp only at hafter ⊢
    exact ih.trailers (by omega)
  · rw [List.length_cons] at h
    rw [ih.list (by omega)]
    refine bind_congr_of_mem (readersConsume m).list ?_
    rintro ⟨index, after⟩ hafter
    dsimp only at hafter ⊢
    split
    · rw [List.length_cons] at hafter
      exact ih.trailers (by omega)
    · rfl
  · split
    · rfl
    · simp only [List.length_cons] at h
      exact ih.trailers (by omega)
  · rfl

theorem readItems_agrees (h : 24 * s.length + 16 ≤ min (n + 1) (m + 1)) :
    readItems (n + 1) s = readItems (m + 1) s := by
  rw [readItems, readItems, ih.conditional (by omega)]
  refine bind_congr_of_mem (readersConsume m).conditional ?_
  rintro ⟨first, rest⟩ hrest
  dsimp only at hrest ⊢
  exact ih.moreItems (by omega)

theorem readMoreItems_agrees {first : Formula} (h : 24 * s.length + 1 ≤ min (n + 1) (m + 1)) :
    readMoreItems (n + 1) first s = readMoreItems (m + 1) first s := by
  unfold readMoreItems
  dsimp only
  split
  · rw [List.length_cons] at h
    split
    · rfl
    · rw [ih.items (by omega)]
  · rfl

theorem readList_agrees (h : 24 * s.length + 17 ≤ min (n + 1) (m + 1)) :
    readList (n + 1) s = readList (m + 1) s := by
  rw [readList, readList, ih.items (by omega)]

theorem readPairs_agrees (h : 24 * s.length + 1 ≤ min (n + 1) (m + 1)) :
    readPairs (n + 1) s = readPairs (m + 1) s := by
  unfold readPairs
  dsimp only
  split
  · rfl
  · rfl
  · rw [List.length_cons] at h
    rw [ih.conditional (by omega)]
    refine bind_congr_of_mem (readersConsume m).conditional ?_
    rintro ⟨key, after⟩ hafter
    dsimp only at hafter ⊢
    split
    · rename_i after
      rw [List.length_cons] at hafter
      rw [ih.conditional (by omega)]
      refine bind_congr_of_mem (readersConsume m).conditional ?_
      rintro ⟨value, last⟩ hlast
      dsimp only at hlast ⊢
      rw [ih.pairs (by omega)]
    · rfl
  · rfl

theorem readAtom_agrees (h : 24 * s.length + 1 ≤ min (n + 1) (m + 1)) :
    readAtom (n + 1) s = readAtom (m + 1) s := by
  unfold readAtom
  dsimp only
  split
  · rfl
  · rfl
  · rfl
  · rfl
  · rfl
  · simp only [List.length_cons] at h
    rw [ih.conditional (by omega)]
  · rw [List.length_cons] at h
    rw [ih.list (by omega)]
  · rfl
  · rw [List.length_cons] at h
    rw [ih.items (by omega)]
  · rfl
  · rw [List.length_cons] at h
    rw [ih.conditional (by omega)]
    refine bind_congr_of_mem (readersConsume m).conditional ?_
    rintro ⟨first, after⟩ hafter
    dsimp only at hafter ⊢
    split
    · rename_i after
      rw [List.length_cons] at hafter
      rw [ih.conditional (by omega)]
      refine bind_congr_of_mem (readersConsume m).conditional ?_
      rintro ⟨value, last⟩ hlast
      dsimp only at hlast ⊢
      rw [ih.pairs (by omega)]
    · rw [ih.moreItems (by omega)]
  · rfl

theorem readArguments_agrees {named : Bool} (h : 24 * s.length + 16 ≤ min (n + 1) (m + 1)) :
    readArguments (n + 1) named s = readArguments (m + 1) named s := by
  unfold readArguments
  dsimp -zeta only
  extract_lets finish other
  have hfinish : ∀ label f rest, rest.length < s.length → finish label f rest = other label f rest := by
    intro label f rest hrest
    dsimp only [finish, other]
    split
    · rfl
    · rw [List.length_cons] at hrest
      rw [ih.arguments (by omega)]
    · rfl
  clear_value finish other
  split
  · rfl
  · rw [List.length_cons] at h hfinish
    rw [ih.conditional (by omega)]
    refine bind_congr_of_mem (readersConsume m).conditional ?_
    rintro ⟨f, after⟩ hafter
    dsimp only at hafter ⊢
    exact hfinish _ f after (by omega)
  · rw [List.length_cons] at h hfinish
    rw [ih.conditional (by omega)]
    refine bind_congr_of_mem (readersConsume m).conditional ?_
    rintro ⟨f, after⟩ hafter
    dsimp only at hafter ⊢
    exact hfinish _ f after (by omega)
  · simp only [List.length_cons] at h hfinish
    split
    · rw [ih.conditional (by omega)]
      refine bind_congr_of_mem (readersConsume m).conditional ?_
      rintro ⟨f, after⟩ hafter
      dsimp only at hafter ⊢
      exact hfinish _ f after (by omega)
    · rfl
  · rw [ih.conditional (by omega)]
    refine bind_congr_of_mem (readersConsume m).conditional ?_
    rintro ⟨f, after⟩ hafter
    dsimp only at hafter ⊢
    rw [hfinish _ f after (by omega)]

end Step

theorem readersAgree (n m : Nat) : ReadersAgree n m := by
  induction n generalizing m with
  | zero =>
    constructor
    case junction => intro _ _ h; split at h <;> omega
    all_goals intros; omega
  | succ n ih =>
    cases m with
    | zero =>
      constructor
      case junction => intro _ _ h; split at h <;> omega
      all_goals intros; omega
    | succ m =>
      have ih := ih m
      exact {
        conditional := readConditional_agrees ih
        junction := readJunction_agrees ih
        operands := readOperands_agrees ih
        negation := readNegation_agrees ih
        comparison := readComparison_agrees ih
        comparands := readComparands_agrees ih
        binary := fun hlevel => readBinary_agrees ih hlevel
        binaryRest := fun hlevel => readBinaryRest_agrees ih hlevel
        signed := readSigned_agrees ih
        power := readPower_agrees ih
        primary := readPrimary_agrees ih
        trailers := readTrailers_agrees ih
        atom := readAtom_agrees ih
        items := readItems_agrees ih
        moreItems := readMoreItems_agrees ih
        list := readList_agrees ih
        pairs := readPairs_agrees ih
        arguments := readArguments_agrees ih }

/-! ### Statements -/

section Statements

variable {n m : Nat} {s : List Token}

theorem readAssigned_agrees {k : Nat} {target : Formula} (h : 24 * s.length + 17 ≤ min n m) :
    readAssigned n k target s = readAssigned m k target s := by
  have hreaders := readersAgree n m
  induction k generalizing target s with
  | zero => rfl
  | succ k ih =>
    unfold readAssigned
    dsimp only
    split
    · rw [List.length_cons] at h
      rw [hreaders.list (by omega)]
      split
      · rfl
      · refine bind_congr_of_mem (readersConsume m).list ?_
        rintro ⟨value, after⟩ hafter
        dsimp only at hafter ⊢
        split
        · exact ih (by omega)
        · rfl
    · rw [List.length_cons] at h
      rw [hreaders.conditional (by omega)]
      split
      · rfl
      · refine bind_congr_of_mem (readersConsume m).conditional ?_
        rintro ⟨kind, after⟩ hafter
        dsimp only at hafter ⊢
        split
        · rw [List.length_cons] at hafter
          rw [hreaders.list (by omega)]
        · rfl
    · rw [List.length_cons] at h
      rw [hreaders.list (by omega)]
    · rfl

theorem readStatement_agrees (h : 24 * s.length + 17 ≤ min n m) : readStatement n s = readStatement m s := by
  have hreaders := readersAgree n m
  unfold readStatement
  split
  · rfl
  · rfl
  · rfl
  · rw [List.length_cons] at h
    rw [hreaders.list (by omega)]
  · rw [List.length_cons] at h
    rw [hreaders.conditional (by omega)]
  · rw [List.length_cons] at h
    rw [hreaders.list (by omega)]
  · rw [List.length_cons] at h
    rw [hreaders.list (by omega)]
  · rw [hreaders.list h]
    refine bind_congr_of_mem (readersConsume m).list ?_
    rintro ⟨f, after⟩ hafter
    dsimp only at hafter ⊢
    split
    · rfl
    · rfl
    · rfl
    · have hassigned : readAssigned n (after.length + 1) f after = readAssigned m (after.length + 1) f after :=
        readAssigned_agrees (by omega)
      rw [hassigned]

theorem restReadable_agrees {k : Nat} (h : 24 * s.length + 17 ≤ min n m) :
    restReadable n k s = restReadable m k s := by
  induction k generalizing s with
  | zero => rfl
  | succ k ih =>
    unfold restReadable
    split
    · rfl
    · rw [List.length_cons] at h
      exact ih (by omega)
    · rw [readStatement_agrees h]
      cases hstatement : readStatement m s with
      | none => rfl
      | some r =>
        obtain ⟨isExpression, value, after⟩ := r
        have hafter := readStatement_consumes _ hstatement
        dsimp only at hafter ⊢
        split
        · rfl
        · rename_i heq
          cases heq
          rw [List.length_cons] at hafter
          exact ih (by omega)
        · rename_i heq
          cases heq
          rw [List.length_cons] at hafter
          exact ih (by omega)
        · rfl

end Statements

end Reckoner.Expression
