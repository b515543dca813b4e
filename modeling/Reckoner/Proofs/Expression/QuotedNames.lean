import Reckoner.Expression.Grammar
import Reckoner.Proofs.Expression.Completion
import Reckoner.Proofs.Expression.Vocabulary

/-!
# Names without values

A name that has no value and no other meaning becomes a call of one of two words with the name as a quotation.
Whatever is put in when the tokens of arithmetic are completed, only parentheses come to stand between the word and its
quotation.
-/

namespace Reckoner.Expression

/-! ### Tokens of arithmetic -/

/-- The signs of arithmetic: operators, comparisons, parentheses and the comma. -/
def arithmeticSigns : List String :=
  ["+", "-", "*", "/", "%", "^", "**", "==", "!=", "<", "<=", ">", ">=", "(", ")", ","]

/-- Names, numerals and the signs of arithmetic, and what the tokens of a text end with. -/
def Token.IsArithmetic : Token → Prop
  | .name word => isKeyword word = false
  | .numeral _ => True
  | .operator text => text ∈ arithmeticSigns
  | .lineEnd visible => visible = false
  | .finish => True
  | _ => False

instance : DecidablePred Token.IsArithmetic
  | .name word => inferInstanceAs (Decidable (isKeyword word = false))
  | .numeral _ => .isTrue trivial
  | .operator text => inferInstanceAs (Decidable (text ∈ arithmeticSigns))
  | .lineEnd visible => inferInstanceAs (Decidable (visible = false))
  | .finish => .isTrue trivial
  | .quotation _ => .isFalse id
  | .literal _ _ => .isFalse id
  | .stray _ => .isFalse id
  | .comment => .isFalse id
  | .lineBreak => .isFalse id
  | .indentation => .isFalse id

/-- The characters of the signs of arithmetic. -/
def signCharacters : List Char := "+-*/%^=!<>(),".toList

/-- What tokens of arithmetic become, before and after their operators are joined. -/
def Token.IsTame : Token → Prop
  | .name word => isKeyword word = false
  | .numeral _ => True
  | .quotation _ => True
  | .literal _ _ => True
  | .operator text => ∀ c ∈ text.toList, c ∈ signCharacters
  | _ => False

/-- Tokens of arithmetic with what the tokens of a text end with. -/
def Token.IsMild : Token → Prop
  | .lineEnd visible => visible = false
  | .finish => True
  | t => t.IsTame

/-- The words that are called with the names that have no value. -/
def nameMakers : List String := ["Symbol", "Function"]

/-- A name that has no value. -/
def Token.IsUnknown : Token → Prop
  | .literal .symbol _ => True
  | .literal .function _ => True
  | _ => False

def HasUnknown (tokens : List Token) : Prop := ∃ t ∈ tokens, t.IsUnknown

def Token.isBracket (t : Token) : Bool := t = .operator "(" || t = .operator ")"

/-- The first token that is no parenthesis is a quotation. -/
inductive StartsQuoted : List Token → Prop
  | quotation (text : String) (s : List Token) : StartsQuoted (.quotation text :: s)
  | bracket {t : Token} {s : List Token} (ht : t.isBracket) (h : StartsQuoted s) : StartsQuoted (t :: s)

/-- Nothing but parentheses stands between some word for names without values and a quotation. -/
inductive Quotes : List Token → Prop
  | here {word : String} {s : List Token} (hword : word ∈ nameMakers) (h : StartsQuoted s) : Quotes (.name word :: s)
  | later {s : List Token} (t : Token) (h : Quotes s) : Quotes (t :: s)

section Tokens

variable {s : List Token} {text : String}

theorem isTame_of_mem_signs (h : text ∈ arithmeticSigns) : (Token.operator text).IsTame := by
  have hall : ∀ text ∈ arithmeticSigns, ∀ c ∈ text.toList, c ∈ signCharacters := by decide
  exact hall text h

theorem Token.IsArithmetic.isMild {t : Token} (h : t.IsArithmetic) : t.IsMild := by
  cases t with
  | operator text => exact isTame_of_mem_signs h
  | quotation => exact h.elim
  | literal => exact h.elim
  | _ => exact h

theorem isMild_of_isBracket {t : Token} (h : t.isBracket) : t.IsMild := by
  simp only [Token.isBracket, Bool.or_eq_true, decide_eq_true_eq] at h
  rcases h with rfl | rfl
  · exact isTame_of_mem_signs (by decide)
  · exact isTame_of_mem_signs (by decide)

theorem not_startsQuoted_nil : ¬ StartsQuoted [] := fun h => nomatch h

theorem not_quotes_nil : ¬ Quotes [] := fun h => nomatch h

theorem startsQuoted_operator : StartsQuoted (.operator text :: s) → (text = "(" ∨ text = ")") ∧ StartsQuoted s := by
  rintro (_ | ⟨ht, h⟩)
  simpa [Token.isBracket, h] using ht

theorem quotes_operator : Quotes (.operator text :: s) ↔ Quotes s :=
  ⟨fun h => by cases h with | later _ h => exact h, .later _⟩

end Tokens

/-! ### Tokens without parentheses -/

def bare (tokens : List Token) : List Token := tokens.filter (!·.isBracket)

section Bare

variable {s s' front back : List Token}

@[simp] theorem bare_nil : bare [] = [] := rfl

theorem bare_append (s s' : List Token) : bare (s ++ s') = bare s ++ bare s' := List.filter_append _ _

theorem bare_bracket {t : Token} (h : t.isBracket) (s : List Token) : bare (t :: s) = bare s := by simp [bare, h]

theorem bare_cons {t : Token} (h : t.isBracket = false) (s : List Token) : bare (t :: s) = t :: bare s := by
  simp [bare, h]

theorem forall_mem_of_bare {Q : Token → Prop} (hbracket : ∀ t, t.isBracket → Q t) (h : ∀ t ∈ bare s, Q t) :
    ∀ t ∈ s, Q t := by
  intro t ht
  by_cases hb : t.isBracket
  · exact hbracket t hb
  · exact h t (List.mem_filter.mpr ⟨ht, by simpa using hb⟩)

theorem startsQuoted_of_bare {text : String} (h : bare s = .quotation text :: back) : StartsQuoted s := by
  induction s with
  | nil => cases h
  | cons t rest ih =>
    by_cases hb : t.isBracket
    · rw [bare_bracket hb] at h
      exact .bracket hb (ih h)
    · rw [bare_cons (by simpa using hb)] at h
      obtain ⟨rfl, -⟩ := List.cons.inj h
      exact .quotation _ _

theorem quotes_of_bare {word text : String} (hword : word ∈ nameMakers)
    (h : bare s = front ++ .name word :: .quotation text :: back) : Quotes s := by
  induction s generalizing front with
  | nil => simp [bare] at h
  | cons t rest ih =>
    by_cases hb : t.isBracket
    · rw [bare_bracket hb] at h
      exact .later _ (ih h)
    · rw [bare_cons (by simpa using hb)] at h
      cases front with
      | nil =>
        obtain ⟨rfl, hrest⟩ := List.cons.inj h
        exact .here hword (startsQuoted_of_bare hrest)
      | cons u front => exact .later _ (ih (List.cons.inj h).2)

end Bare

/-! ### Resolving -/

/-- Tokens in the place of others: if those are mild, these are too, and a name without a value stays one. -/
structure Yields (s s' : List Token) : Prop where
  mild : (∀ t ∈ s, t.IsMild) → ∀ t ∈ s', t.IsMild
  unknown : HasUnknown s → HasUnknown s'

/-- A word that has no value and no other meaning. -/
structure Vocabulary.Lacks (v : Vocabulary) (word : String) : Prop where
  noValue : v.hasValue word = false
  unreserved : v.isReserved word = false

section Resolving

variable {s s' s'' tokens : List Token} {v : Vocabulary} {word : String}

theorem hasUnknown_cons {t : Token} : HasUnknown (t :: s) ↔ t.IsUnknown ∨ HasUnknown s := List.exists_mem_cons_iff ..

theorem hasUnknown_append : HasUnknown (s ++ s') ↔ HasUnknown s ∨ HasUnknown s' := by
  simp [HasUnknown, or_and_right, exists_or]

theorem Yields.refl (s : List Token) : Yields s s := ⟨id, id⟩

theorem Yields.trans (h : Yields s s') (h' : Yields s' s'') : Yields s s'' :=
  ⟨fun hs => h'.mild (h.mild hs), fun hs => h'.unknown (h.unknown hs)⟩

theorem Yields.append {r r' : List Token} (h : Yields s s') (h' : Yields r r') : Yields (s ++ r) (s' ++ r') where
  mild hs := by
    obtain ⟨hs, hr⟩ := List.forall_mem_append.mp hs
    exact List.forall_mem_append.mpr ⟨h.mild hs, h'.mild hr⟩
  unknown hs := hasUnknown_append.mpr ((hasUnknown_append.mp hs).imp h.unknown h'.unknown)

theorem Yields.cons (t : Token) (h : Yields s s') : Yields (t :: s) (t :: s') := (Yields.refl [t]).append h

theorem operator_not_mem {text : String} (h : ∀ t ∈ tokens, t.IsMild) (htext : ∃ c ∈ text.toList, c ∉ signCharacters) :
    Token.operator text ∉ tokens := by
  intro hmem
  obtain ⟨c, hc, hsign⟩ := htext
  exact hsign (h _ hmem c hc)

/-- A name that is none of the words with a meaning becomes a literal. -/
theorem keepsName_eq_false (hv : v.Lacks word) (hword : isKeyword word = false) {previous : Token}
    (hprevious : previous ≠ .operator ".") {next : Option Token} (hnext : next ≠ some (.operator "=")) :
    keepsName v previous next word = false := by
  simp [keepsName, hv.noValue, hv.unreserved, hword, hprevious, hnext]

theorem resolveNames_isMild (h : ∀ t ∈ tokens, t.IsMild) (previous : Token) :
    ∀ t ∈ resolveNames v previous tokens, t.IsMild := by
  induction tokens generalizing previous with
  | nil => exact h
  | cons t rest ih =>
    obtain ⟨ht, hrest⟩ := List.forall_mem_cons.mp h
    cases t with
    | name word =>
      rw [resolveNames]
      split_ifs
      · exact List.forall_mem_cons.mpr ⟨ht, ih hrest previous⟩
      · exact List.forall_mem_cons.mpr ⟨trivial, ih hrest _⟩
      · exact List.forall_mem_cons.mpr ⟨trivial, ih hrest _⟩
    | _ => exact List.forall_mem_cons.mpr ⟨ht, ih hrest _⟩

theorem hasUnknown_resolveNames (hv : v.Lacks word) (h : ∀ t ∈ tokens, t.IsArithmetic) (hword : .name word ∈ tokens)
    {previous : Token} (hprevious : previous ≠ .operator ".") : HasUnknown (resolveNames v previous tokens) := by
  have hpoint {t : Token} (ht : t.IsArithmetic) : t ≠ .operator "." := by
    rintro rfl
    exact absurd ht (by decide)
  induction tokens generalizing previous with
  | nil => cases hword
  | cons t rest ih =>
    obtain ⟨ht, hrest⟩ := List.forall_mem_cons.mp h
    have hlater {u : Token} {previous : Token} (hmem : .name word ∈ rest) (hprevious : previous ≠ .operator ".") :
        HasUnknown (u :: resolveNames v previous rest) :=
      hasUnknown_cons.mpr (.inr (ih hrest hmem hprevious))
    cases t with
    | name other =>
      rw [resolveNames]
      by_cases hkeeps : keepsName v previous rest.head? other
      · have hne : word ≠ other := by
          rintro rfl
          have hnext : rest.head? ≠ some (.operator "=") := fun heq =>
            absurd (hrest _ (List.mem_of_mem_head? heq)) (by decide)
          rw [keepsName_eq_false hv ht hprevious hnext] at hkeeps
          cases hkeeps
        have hmem : .name word ∈ rest := by simpa [hne] using hword
        rw [if_pos hkeeps]
        exact hlater hmem hprevious
      · rw [if_neg hkeeps]
        refine hasUnknown_cons.mpr (.inl ?_)
        split_ifs <;> trivial
    | _ => exact hlater (by simpa using hword) (hpoint ht)

theorem yields_numeralLiteral (text : String) : Yields [.numeral text] (numeralLiteral text) where
  mild _ := by
    have himaginary : isKeyword "I" = false := by decide
    rw [numeralLiteral]
    refine List.forall_mem_cons.mpr ⟨trivial, ?_⟩
    split_ifs
    · exact List.forall_mem_cons.mpr ⟨isTame_of_mem_signs (by decide), List.forall_mem_singleton.mpr himaginary⟩
    · exact List.forall_mem_nil _
  unknown h := by simp [HasUnknown, Token.IsUnknown] at h

theorem yields_resolveNumerals (tokens : List Token) : Yields tokens (resolveNumerals tokens) := by
  induction tokens with
  | nil => exact .refl []
  | cons t rest ih =>
    cases t with
    | numeral text => exact (yields_numeralLiteral text).append ih
    | _ => exact ih.cons _

/-- Among the tokens of arithmetic, a name that has no value is kept as such. -/
theorem resolve_unknown (hv : v.Lacks word) (h : ∀ t ∈ tokens, t.IsArithmetic) (hword : .name word ∈ tokens)
    {resolved : List Token} (hresolved : resolve v tokens = some resolved) :
    (∀ t ∈ resolved, t.IsMild) ∧ HasUnknown resolved := by
  have hlambda : ∀ t ∈ tokens.head?, t ≠ .name "lambda" := by
    rintro t ht rfl
    exact absurd (h _ (List.mem_of_mem_head? ht)) (by decide)
  rw [resolve, rewriteAnonymous_eq hlambda, Option.map_some, Option.some.injEq] at hresolved
  have hnames := resolveNames_isMild (v := v) (fun t ht => (h t ht).isMild) .finish
  have hbracket : Token.operator "[" ∉ resolveNames v .finish tokens :=
    operator_not_mem hnames ⟨'[', by decide, by decide⟩
  rw [expandRepetends_eq hbracket] at hresolved
  subst hresolved
  have hyields := yields_resolveNumerals (resolveNames v .finish tokens)
  exact ⟨hyields.mild hnames, hyields.unknown (hasUnknown_resolveNames hv h hword (by decide))⟩

end Resolving

/-! ### Trees -/

mutual

/-- The tokens of a tree without parentheses. -/
def Tree.bare : Tree → List Token
  | .leaf t => Expression.bare [t]
  | .group items => Tree.bareIn items
  | .applied word items => .name word :: Tree.bareIn items

def Tree.bareIn : List Tree → List Token
  | [] => []
  | t :: rest => t.bare ++ Tree.bareIn rest

end

section Trees

variable {v : Vocabulary} {trees : List Tree}

theorem bareIn_append (ts us : List Tree) : Tree.bareIn (ts ++ us) = Tree.bareIn ts ++ Tree.bareIn us := by
  induction ts with
  | nil => rfl
  | cons t rest ih => rw [List.cons_append, Tree.bareIn, Tree.bareIn, ih, List.append_assoc]

theorem bareIn_singleton (t : Tree) : Tree.bareIn [t] = t.bare := by simp [Tree.bareIn]

/-- The tokens that were read before those in a level of parentheses, outermost first. -/
def bareOuter (outer : List (List Tree)) : List Token := outer.reverse.flatMap fun level => Tree.bareIn level.reverse

theorem bareOuter_cons (level : List Tree) (outer : List (List Tree)) :
    bareOuter (level :: outer) = bareOuter outer ++ Tree.bareIn level.reverse := by
  simp [bareOuter]

theorem bareIn_groupFrom {outer : List (List Tree)} {current : List Tree} {tokens : List Token}
    (h : groupFrom outer current tokens = .ok trees) :
    Tree.bareIn trees = bareOuter outer ++ Tree.bareIn current.reverse ++ bare tokens := by
  fun_induction groupFrom outer current tokens with
  | case1 outer current hempty =>
    cases h
    simp [List.isEmpty_iff.mp hempty, bareOuter, bare]
  | case2 | case4 => cases h
  | case3 outer current rest ih =>
    rw [ih h, bareOuter_cons, bare_bracket rfl]
    simp [Tree.bareIn]
  | case5 current rest before outer ih =>
    rw [ih h, bareOuter_cons, bare_bracket rfl, List.reverse_cons, bareIn_append, bareIn_singleton, Tree.bare]
    simp
  | case6 outer current t rest hopening hclosing ih =>
    rw [ih h, List.reverse_cons, bareIn_append, bareIn_singleton, Tree.bare]
    simp only [List.append_assoc, ← bare_append, List.singleton_append]

/-! ### Factorial signs -/

mutual

/-- Without stray characters there are no factorial signs. -/
theorem factorials_eq : ∀ {t : Tree}, (∀ text, Token.stray text ∉ t.bare) → t.factorials = t
  | .leaf _, _ => rfl
  | .group items, h => by
    rw [Tree.factorials, factorialsFrom_eq h]
    rfl
  | .applied word items, h => by
    rw [Tree.factorials, factorialsFrom_eq fun text hmem => h text (List.mem_cons_of_mem _ hmem)]
    rfl

theorem factorialsFrom_eq {before : List Tree} :
    ∀ {items : List Tree}, (∀ text, Token.stray text ∉ Tree.bareIn items) →
      factorialsFrom before 0 items = before.reverse ++ items
  | [], _ => by simp [factorialsFrom, applyFactorials]
  | t :: rest, h => by
    simp only [Tree.bareIn, List.mem_append, not_or] at h
    have hstray : ∀ text, t ≠ .leaf (.stray text) := by
      rintro text rfl
      exact (h text).1 (by simp [Tree.bare, bare, Token.isBracket])
    rw [factorialsFrom.eq_3 _ _ _ _ hstray, factorials_eq fun text => (h text).1,
      factorialsFrom_eq fun text => (h text).2]
    simp [applyFactorials]

end

/-! ### Products -/

theorem maker_isMild (maker : Maker) : (Token.name maker.word).IsMild := by
  have hkeyword : isKeyword maker.word = false := by cases maker <;> decide
  exact hkeyword

theorem argumentToken_isMild (maker : Maker) (argument : String) : (argumentToken maker argument).IsMild := by
  cases maker <;> trivial

theorem yields_expandLiteral (hmakers : ∀ word ∈ nameMakers, v.isFunction word) (t : Tree) :
    Yields t.bare (Tree.bareIn (expandLiteral v t)) := by
  unfold expandLiteral
  split
  · rename_i maker argument
    split
    · simpa [Tree.bareIn] using Yields.refl _
    · rename_i hfunction
      refine ⟨fun _ => ?_, fun h => ?_⟩
      · refine forall_mem_of_bare (fun t => isMild_of_isBracket) ?_
        have hargument : ∀ t ∈ bare [argumentToken maker argument], t.IsMild := fun t ht =>
          List.eq_of_mem_singleton (List.mem_of_mem_filter ht) ▸ argumentToken_isMild maker argument
        simpa [Tree.bareIn, Tree.bare, bare, Token.isBracket, maker_isMild] using hargument
      · -- A name without a value is made by a function.
        have hmaker : maker.word ∉ nameMakers := fun hmem => hfunction (hmakers _ hmem)
        have hunknown : (Token.literal maker argument).IsUnknown := by
          simpa [HasUnknown, Tree.bare, bare, Token.isBracket] using h
        cases maker <;> simp [Token.IsUnknown, nameMakers, Maker.word] at hunknown hmaker
  · simpa [bareIn_singleton] using Yields.refl _

theorem bareIn_joinArguments : ∀ trees : List Tree, Tree.bareIn (joinArguments v trees) = Tree.bareIn trees
  | [] => rfl
  | [_] => rfl
  | t :: u :: rest => by
    by_cases happlied : ∃ word items rest', t = .leaf (.name word) ∧ u :: rest = .group items :: rest'
    · obtain ⟨word, items, rest', rfl, hgroup⟩ := happlied
      cases hgroup
      rw [joinArguments]
      split_ifs
      · simp [Tree.bareIn, Tree.bare, bare, Token.isBracket, bareIn_joinArguments rest]
      · simp [Tree.bareIn, bareIn_joinArguments rest]
    · rw [joinArguments_cons (List.cons_ne_nil u rest) happlied, Tree.bareIn, bareIn_joinArguments (u :: rest)]
      rfl

theorem yields_asFactor (t next : Tree) : Yields t.bare (asFactor t next).bare := by
  unfold asFactor
  split
  · exact ⟨fun _ => List.forall_mem_singleton.mpr trivial, fun _ => ⟨_, List.mem_singleton_self _, trivial⟩⟩
  · exact .refl _

theorem yields_insertProducts (member : Bool) (trees : List Tree) :
    Yields (Tree.bareIn trees) (Tree.bareIn (insertProducts v member trees)) := by
  induction trees generalizing member with
  | nil => exact .refl _
  | cons a rest ih =>
    cases rest with
    | nil => exact .refl _
    | cons b rest =>
      unfold insertProducts
      dsimp only
      split_ifs
      · have hsign : Yields [] [.operator "*"] :=
          ⟨fun _ => List.forall_mem_singleton.mpr (isTame_of_mem_signs (by decide)), fun h => by simp [HasUnknown] at h⟩
        exact (yields_asFactor a b).append (hsign.append (ih _))
      · exact (Yields.refl a.bare).append (ih _)

theorem yields_withProducts (h : Yields (Tree.bareIn trees) (Tree.bareIn (productsIn v trees))) :
    Yields (Tree.bareIn trees) (Tree.bareIn (withProducts v trees)) := by
  have hinserted := yields_insertProducts (v := v) false (joinArguments v (productsIn v trees))
  rw [bareIn_joinArguments] at hinserted
  exact h.trans hinserted

mutual

theorem yields_products (hmakers : ∀ word ∈ nameMakers, v.isFunction word) :
    ∀ t : Tree, Yields t.bare (t.products v).bare
  | .leaf _ => .refl _
  | .group items => yields_withProducts (yields_productsIn hmakers items)
  | .applied word items => (yields_withProducts (yields_productsIn hmakers items)).cons (.name word)

theorem yields_productsIn (hmakers : ∀ word ∈ nameMakers, v.isFunction word) :
    ∀ trees : List Tree, Yields (Tree.bareIn trees) (Tree.bareIn (productsIn v trees))
  | [] => .refl _
  | t :: rest => by
    rw [productsIn, bareIn_append]
    exact ((yields_products hmakers t).trans (yields_expandLiteral hmakers _)).append (yields_productsIn hmakers rest)

end

end Trees

/-! ### Calls -/

/-- A token with its maker in front of it. -/
def Token.called : Token → List Token
  | .literal maker argument => [.name maker.word, argumentToken maker argument]
  | t => [t]

section Calls

variable {v : Vocabulary} {s s' : List Token}

theorem bare_replicate {t : Token} (h : t.isBracket) (n : Nat) : bare (List.replicate n t) = [] := by
  simp [bare, h]

/-- Parentheses are all that is put in. -/
theorem bare_insertCalls (items : List Item) (state : CallState) :
    bare (insertCalls v state items) = bare (items.flatMap Item.tokens) := by
  induction items generalizing state with
  | nil => rfl
  | cons a rest ih =>
    cases rest with
    | nil => simp [insertCalls, bare_append, bare_replicate, Token.isBracket]
    | cons b rest =>
      rw [List.flatMap_cons, bare_append]
      unfold insertCalls
      dsimp only
      split_ifs <;> simp [bare_append, bare_bracket, Token.isBracket, ih]

theorem bare_argumentToken (maker : Maker) (argument : String) :
    bare [argumentToken maker argument] = [argumentToken maker argument] := by
  cases maker <;> rfl

theorem bare_called (t : Token) :
    bare (((Tree.leaf t).items v).flatMap Item.tokens) = (bare [t]).flatMap Token.called := by
  by_cases hliteral : ∃ maker argument, t = .literal maker argument
  · obtain ⟨maker, argument, rfl⟩ := hliteral
    have hbare := bare_argumentToken maker argument
    cases maker <;> rfl
  · rw [Tree.items.eq_2 _ _ fun maker argument heq => hliteral ⟨maker, argument, heq⟩]
    by_cases hbracket : t.isBracket
    · simp [bare, Item.tokens, hbracket]
    · cases t <;> simp_all [bare, Item.tokens, Token.called]

mutual

theorem bare_items : ∀ t : Tree, bare ((t.items v).flatMap Item.tokens) = t.bare.flatMap Token.called
  | .leaf t => bare_called t
  | .group items => by
    have hinside := bare_itemsIn items
    rw [← bare_insertCalls _ {}] at hinside
    have htokens : ((Tree.group items).items v).flatMap Item.tokens =
        .operator "(" :: insertCalls v {} (itemsIn v items) ++ [.operator ")"] := by
      simp [Tree.items, Item.tokens, List.flatMap_map]
    rw [htokens, List.cons_append, bare_bracket rfl, bare_append, hinside, bare_bracket rfl]
    exact List.append_nil _
  | .applied word items => by
    have hinside := bare_itemsIn items
    rw [← bare_insertCalls _ {}] at hinside
    have htokens : ((Tree.applied word items).items v).flatMap Item.tokens =
        .name word :: .operator "(" :: insertCalls v {} (itemsIn v items) ++ [.operator ")"] := by
      simp [Tree.items, Item.tokens]
    rw [htokens, List.cons_append, List.cons_append, bare_cons rfl, bare_bracket rfl, bare_append, hinside,
      bare_bracket rfl]
    exact congrArg (Token.name word :: ·) (List.append_nil _)

theorem bare_itemsIn : ∀ trees : List Tree,
    bare ((itemsIn v trees).flatMap Item.tokens) = (Tree.bareIn trees).flatMap Token.called
  | [] => rfl
  | t :: rest => by
    rw [itemsIn, List.flatMap_append, bare_append, bare_items t, bare_itemsIn rest, Tree.bareIn, List.flatMap_append]

end

end Calls

/-! ### Complete tokens -/

section Complete

variable {v : Vocabulary} {s : List Token}

theorem StartsQuoted.map {f : Token → Token} (hbracket : ∀ t, t.isBracket → f t = t)
    (hquotation : ∀ text, f (.quotation text) = .quotation text) (h : StartsQuoted s) : StartsQuoted (s.map f) := by
  induction h with
  | quotation text s =>
    rw [List.map_cons, hquotation]
    exact .quotation _ _
  | bracket ht _ ih =>
    rw [List.map_cons, hbracket _ ht]
    exact .bracket ht ih

theorem Quotes.map {f : Token → Token} (hbracket : ∀ t, t.isBracket → f t = t)
    (hquotation : ∀ text, f (.quotation text) = .quotation text)
    (hname : ∀ word ∈ nameMakers, f (.name word) = .name word) (h : Quotes s) : Quotes (s.map f) := by
  induction h with
  | here hword hs =>
    rw [List.map_cons, hname _ hword]
    exact .here hword (hs.map hbracket hquotation)
  | later t _ ih => exact .later _ ih

/-- A token takes the place of another that is neither a parenthesis nor a quotation nor a word for names without
    values. -/
theorem Quotes.replace {old new : Token} (hbracket : old.isBracket = false) (hquotation : ∀ text, old ≠ .quotation text)
    (hname : ∀ word ∈ nameMakers, old ≠ .name word) (h : Quotes s) :
    Quotes (s.map fun t => if t = old then new else t) := by
  refine h.map (fun t ht => if_neg ?_) (fun text => if_neg (hquotation text).symm)
    (fun word hword => if_neg (hname word hword).symm)
  rintro rfl
  exact absurd ht (by simp [hbracket])

theorem replace_isMild {old new : Token} (hnew : new.IsMild) (h : ∀ t ∈ s, t.IsMild) :
    ∀ t ∈ s.map (fun t => if t = old then new else t), t.IsMild := by
  refine List.forall_mem_map.mpr fun t ht => ?_
  split_ifs
  · exact hnew
  · exact h t ht

theorem quotes_of_called {called : List Token} (h : HasUnknown s) (hcalled : bare called = s.flatMap Token.called) :
    Quotes called := by
  obtain ⟨t, ht, hunknown⟩ := h
  obtain ⟨front, back, rfl⟩ := List.append_of_mem ht
  rw [List.flatMap_append, List.flatMap_cons] at hcalled
  cases t with
  | literal maker argument =>
    cases maker with
    | whole => cases hunknown
    | decimal => cases hunknown
    | symbol => exact quotes_of_bare (by decide) hcalled
    | function => exact quotes_of_bare (by decide) hcalled
  | _ => cases hunknown

theorem hasUnknown_bare (h : HasUnknown s) : HasUnknown (bare s) := by
  obtain ⟨t, ht, hunknown⟩ := h
  refine ⟨t, List.mem_filter.mpr ⟨ht, ?_⟩, hunknown⟩
  cases t with
  | literal => rfl
  | _ => cases hunknown

theorem called_isMild (h : ∀ t ∈ s, t.IsMild) : ∀ t ∈ s.flatMap Token.called, t.IsMild := by
  intro u hu
  obtain ⟨t, ht, hu⟩ := List.mem_flatMap.mp hu
  have hmild := h t ht
  cases t with
  | literal maker argument =>
    rcases List.mem_pair.mp hu with rfl | rfl
    · exact maker_isMild maker
    · exact argumentToken_isMild maker argument
  | _ =>
    obtain rfl := List.mem_singleton.mp hu
    exact hmild

/-- When nothing is left out any more, only parentheses stand between a word for names without values and the name. -/
theorem complete_quotes (hmakers : ∀ word ∈ nameMakers, v.isFunction word) (hmild : ∀ t ∈ s, t.IsMild)
    (hunknown : HasUnknown s) {exact : Bool} {completed : List Token} (h : complete v exact s = .ok completed) :
    (∀ t ∈ completed, t.IsMild) ∧ Quotes completed := by
  unfold complete at h
  split at h
  · cases h
  cases htrees : Tree.ofTokens s with
  | error e => simp [htrees] at h
  | ok trees =>
    have hbare : Tree.bareIn trees = bare s := by simpa [bareOuter, Tree.bareIn] using bareIn_groupFrom htrees
    have hstray (text : String) : Token.stray text ∉ Tree.bareIn trees := fun hmem =>
      hmild (.stray text) (List.mem_of_mem_filter (hbare ▸ hmem))
    have hfactorials : factorialsFrom [] 0 trees = trees := factorialsFrom_eq hstray
    have hyields := yields_withProducts (yields_productsIn hmakers trees)
    rw [hbare] at hyields
    have hcalled : bare (insertCalls v {} (itemsIn v (withProducts v trees))) =
        (Tree.bareIn (withProducts v trees)).flatMap Token.called :=
      (bare_insertCalls _ _).trans (bare_itemsIn _)
    have hmild := called_isMild (hyields.mild fun t ht => hmild t (List.mem_of_mem_filter ht))
    have hflat := forall_mem_of_bare (fun t => isMild_of_isBracket) (hcalled ▸ hmild)
    have hquotes := quotes_of_called (hyields.unknown (hasUnknown_bare hunknown)) hcalled
    have hpowers : ∀ t ∈ unifyPowers _, t.IsMild := replace_isMild (isTame_of_mem_signs (by decide)) hflat
    have hquotes : Quotes (unifyPowers _) := hquotes.replace rfl nofun nofun
    rw [htrees] at h
    cases h
    rw [hfactorials]
    split
    · exact ⟨replace_isMild (maker_isMild .whole) hpowers, hquotes.replace rfl nofun (by decide)⟩
    · exact ⟨hpowers, hquotes⟩

end Complete

end Reckoner.Expression
