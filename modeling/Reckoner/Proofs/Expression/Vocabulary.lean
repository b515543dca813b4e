import Mathlib.Data.List.TakeDrop
import Mathlib.Tactic.SplitIfs
import Reckoner.Expression.Tree

/-!
# Words that a reader asks for

Completing the tokens of a text asks a vocabulary about some words only: about the names among the tokens, and about a
few words that the reader puts in itself.  Two vocabularies that agree on these words complete the tokens alike, and no
other words come out.
-/

namespace Reckoner.Expression

/-! ### Words -/

/-- The words that reading and evaluating a text can look up although they are not typed. -/
def readerWords : List String :=
  ["Integer", "Float", "Rational", "Symbol", "Function", "factorial", "factorial2", "I", "Lambda", "Or"]

/-- The name that a token is, if it is one, is among some words. -/
def Token.Within (P : String → Prop) : Token → Prop
  | .name word => P word
  | _ => True

/-- Two vocabularies say the same of some words. -/
structure Vocabulary.Agree (P : String → Prop) (v v' : Vocabulary) : Prop where
  hasValue : ∀ word, P word → v.hasValue word = v'.hasValue word
  isReserved : ∀ word, P word → v.isReserved word = v'.isReserved word
  isFunction : ∀ word, P word → v.isFunction word = v'.isFunction word

section Reading

variable {P : String → Prop} {v v' : Vocabulary} {tokens : List Token}

@[simp] theorem within_name {word : String} : (Token.name word).Within P ↔ P word := Iff.rfl

@[simp] theorem within_operator {text : String} : (Token.operator text).Within P := trivial

@[simp] theorem within_numeral {text : String} : (Token.numeral text).Within P := trivial

@[simp] theorem within_literal {maker : Maker} {argument : String} : (Token.literal maker argument).Within P := trivial

@[simp] theorem within_argument (maker : Maker) (argument : String) : (argumentToken maker argument).Within P := by
  cases maker <;> trivial

/-! ### Resolving -/

theorem keepsName_congr (h : v.Agree P v') (previous : Token) (next : Option Token) {word : String} (hword : P word) :
    keepsName v previous next word = keepsName v' previous next word := by
  rw [keepsName, keepsName, h.hasValue word hword, h.isReserved word hword]

theorem resolveNames_congr (h : v.Agree P v') (htokens : ∀ t ∈ tokens, t.Within P) (previous : Token) :
    resolveNames v previous tokens = resolveNames v' previous tokens := by
  induction tokens generalizing previous with
  | nil => rfl
  | cons t rest ih =>
    rw [List.forall_mem_cons] at htokens
    have hrest := ih htokens.2
    cases t with
    | name word => simp only [resolveNames, keepsName_congr h _ _ htokens.1, hrest]
    | _ => simp only [resolveNames, hrest]

theorem resolveNames_within (htokens : ∀ t ∈ tokens, t.Within P) (previous : Token) :
    ∀ t ∈ resolveNames v previous tokens, t.Within P := by
  induction tokens generalizing previous with
  | nil => simp [resolveNames]
  | cons t rest ih =>
    rw [List.forall_mem_cons] at htokens
    have hrest := ih htokens.2
    cases t with
    | name word =>
      rw [resolveNames]
      split
      · exact List.forall_mem_cons.mpr ⟨htokens.1, hrest _⟩
      · exact List.forall_mem_cons.mpr ⟨trivial, hrest _⟩
    | _ => exact List.forall_mem_cons.mpr ⟨htokens.1, hrest _⟩

/-- Words that are put in for others are the only new ones. -/
theorem replaced_within (old new : Token) (hnew : new.Within P) (htokens : ∀ t ∈ tokens, t.Within P) :
    ∀ t ∈ tokens.map (fun t => if t = old then new else t), t.Within P := by
  intro t ht
  obtain ⟨u, hu, rfl⟩ := List.mem_map.mp ht
  split
  · exact hnew
  · exact htokens u hu

theorem rewriteAnonymous_within (hlambda : P "Lambda") (htokens : ∀ t ∈ tokens, t.Within P) {rewritten : List Token}
    (h : rewriteAnonymous tokens = some rewritten) : ∀ t ∈ rewritten, t.Within P := by
  unfold rewriteAnonymous at h
  split at h
  · rename_i rest
    split at h
    · cases h
      exact htokens
    · cases h
      exact htokens
    · rw [List.span_eq_takeWhile_dropWhile] at h
      dsimp only at h
      split at h
      · cases h
      · cases h
        have hrest := (List.forall_mem_cons.mp htokens).2
        have hparameters := fun t ht => hrest t ((List.takeWhile_sublist (· ≠ Token.operator ":")).subset ht)
        have hbody := fun t ht => hrest t ((List.dropWhile_sublist (· ≠ Token.operator ":")).subset ht)
        have hcommas := replaced_within (.operator ":") (.operator ",") trivial hbody
        simp only [List.forall_mem_append, List.forall_mem_cons, within_name, within_operator, and_true,
          List.not_mem_nil, false_implies, implies_true]
        exact ⟨⟨hlambda, hparameters⟩, hcommas⟩
  · cases h
    exact htokens

theorem repeatingDecimal_within (hwhole : P "Integer") (hrational : P "Rational") (start repetend : List Char) :
    ∀ t ∈ repeatingDecimal start repetend, t.Within P := by
  simp [repeatingDecimal, hwhole, hrational]

theorem expandRepetends_within (hwhole : P "Integer") (hrational : P "Rational") (htokens : ∀ t ∈ tokens, t.Within P) :
    ∀ t ∈ expandRepetends tokens, t.Within P := by
  fun_induction expandRepetends tokens <;>
    simp_all [or_imp, forall_and]
  · exact repeatingDecimal_within hwhole hrational _ _
  · exact repeatingDecimal_within hwhole hrational _ _

theorem numeralLiteral_within (himaginary : P "I") (text : String) : ∀ t ∈ numeralLiteral text, t.Within P := by
  rw [numeralLiteral]
  refine List.forall_mem_cons.mpr ⟨trivial, ?_⟩
  split
  · simpa using himaginary
  · simp

theorem resolveNumerals_within (himaginary : P "I") (htokens : ∀ t ∈ tokens, t.Within P) :
    ∀ t ∈ resolveNumerals tokens, t.Within P := by
  induction tokens with
  | nil => simp [resolveNumerals]
  | cons t rest ih =>
    rw [List.forall_mem_cons] at htokens
    have hrest := ih htokens.2
    cases t with
    | numeral text => exact List.forall_mem_append.mpr ⟨numeralLiteral_within himaginary text, hrest⟩
    | _ => exact List.forall_mem_cons.mpr ⟨htokens.1, hrest⟩

theorem readerWords_maker (maker : Maker) : maker.word ∈ readerWords := by
  cases maker <;> decide

theorem resolve_congr (h : v.Agree P v') (hreader : ∀ word ∈ readerWords, P word)
    (htokens : ∀ t ∈ tokens, t.Within P) : resolve v tokens = resolve v' tokens := by
  unfold resolve
  cases hlambda : rewriteAnonymous tokens with
  | none => rfl
  | some rewritten =>
    have hrewritten := rewriteAnonymous_within (hreader "Lambda" (by decide)) htokens hlambda
    rw [Option.map_some, Option.map_some, resolveNames_congr h hrewritten]

theorem resolve_within (hreader : ∀ word ∈ readerWords, P word) (htokens : ∀ t ∈ tokens, t.Within P)
    {resolved : List Token} (h : resolve v tokens = some resolved) : ∀ t ∈ resolved, t.Within P := by
  obtain ⟨rewritten, hlambda, rfl⟩ := Option.map_eq_some_iff.mp h
  have hrewritten := rewriteAnonymous_within (hreader "Lambda" (by decide)) htokens hlambda
  have hnames := resolveNames_within (v := v) hrewritten .finish
  have hrepetends := expandRepetends_within (hreader "Integer" (by decide)) (hreader "Rational" (by decide)) hnames
  exact resolveNumerals_within (hreader "I" (by decide)) hrepetends

end Reading

/-! ### Trees -/

mutual

/-- The names in a tree are among some words. -/
def Tree.Within (P : String → Prop) : Tree → Prop
  | .leaf t => t.Within P
  | .group items => Tree.AllWithin P items
  | .applied word items => P word ∧ Tree.AllWithin P items

def Tree.AllWithin (P : String → Prop) : List Tree → Prop
  | [] => True
  | t :: rest => Tree.Within P t ∧ Tree.AllWithin P rest

end

section Trees

variable {P : String → Prop} {v v' : Vocabulary} {items : List Tree}

theorem allWithin_iff : Tree.AllWithin P items ↔ ∀ t ∈ items, t.Within P := by
  induction items with
  | nil => simp [Tree.AllWithin]
  | cons t rest ih => rw [Tree.AllWithin, ih, List.forall_mem_cons]

@[simp] theorem within_leaf {t : Token} : (Tree.leaf t).Within P ↔ t.Within P := by rw [Tree.Within]

@[simp] theorem within_group : (Tree.group items).Within P ↔ ∀ t ∈ items, t.Within P := by
  rw [Tree.Within, allWithin_iff]

@[simp] theorem within_applied {word : String} :
    (Tree.applied word items).Within P ↔ P word ∧ ∀ t ∈ items, t.Within P := by
  rw [Tree.Within, allWithin_iff]

theorem groupFrom_within {outer : List (List Tree)} {current : List Tree} {tokens : List Token}
    (houter : ∀ level ∈ outer, ∀ t ∈ level, t.Within P) (hcurrent : ∀ t ∈ current, t.Within P)
    (htokens : ∀ t ∈ tokens, t.Within P) {trees : List Tree} (h : groupFrom outer current tokens = .ok trees) :
    ∀ t ∈ trees, t.Within P := by
  fun_induction groupFrom outer current tokens with
  | case1 =>
    cases h
    simpa using hcurrent
  | case2 | case4 => cases h
  | case3 outer current rest ih =>
    exact ih (List.forall_mem_cons.mpr ⟨hcurrent, houter⟩) (by simp) (List.forall_mem_cons.mp htokens).2 h
  | case5 current rest before outer ih =>
    obtain ⟨hbefore, houter⟩ := List.forall_mem_cons.mp houter
    have hgroup : ∀ t ∈ Tree.group current.reverse :: before, t.Within P :=
      List.forall_mem_cons.mpr ⟨within_group.mpr (by simpa using hcurrent), hbefore⟩
    exact ih houter hgroup (List.forall_mem_cons.mp htokens).2 h
  | case6 outer current t rest _ _ ih =>
    obtain ⟨ht, hrest⟩ := List.forall_mem_cons.mp htokens
    exact ih houter (List.forall_mem_cons.mpr ⟨within_leaf.mpr ht, hcurrent⟩) hrest h

/-! ### Factorials -/

theorem wrapLast_within {word : String} (hword : P word) (hitems : ∀ t ∈ items, t.Within P) :
    ∀ t ∈ wrapLast word items, t.Within P := by
  unfold wrapLast
  split <;> simp_all

theorem applyFactorials_within (hreader : ∀ word ∈ readerWords, P word) (run : Nat)
    (hitems : ∀ t ∈ items, t.Within P) : ∀ t ∈ applyFactorials run items, t.Within P := by
  unfold applyFactorials
  split
  · exact hitems
  · exact wrapLast_within (hreader "factorial" (by decide)) hitems
  · exact wrapLast_within (hreader "factorial2" (by decide)) hitems

mutual

theorem factorials_within (hreader : ∀ word ∈ readerWords, P word) :
    ∀ {t : Tree}, t.Within P → t.factorials.Within P
  | .leaf _, h => h
  | .group _, h => within_group.mpr (factorialsFrom_within hreader 0 (by simp) (within_group.mp h))
  | .applied _ _, h =>
    within_applied.mpr ⟨(within_applied.mp h).1, factorialsFrom_within hreader 0 (by simp) (within_applied.mp h).2⟩

theorem factorialsFrom_within (hreader : ∀ word ∈ readerWords, P word) {before : List Tree} (run : Nat)
    (hbefore : ∀ t ∈ before, t.Within P) :
    ∀ {items : List Tree}, (∀ t ∈ items, t.Within P) → ∀ t ∈ factorialsFrom before run items, t.Within P
  | [], _ => by simpa [factorialsFrom] using applyFactorials_within hreader run hbefore
  | t :: rest, h => by
    obtain ⟨ht, hrest⟩ := List.forall_mem_cons.mp h
    by_cases hstray : ∃ text, t = .leaf (.stray text)
    · obtain ⟨text, rfl⟩ := hstray
      rw [factorialsFrom]
      split
      · exact factorialsFrom_within hreader _ hbefore hrest
      · have hoperator : (Tree.leaf (.operator text)).Within P := within_leaf.mpr within_operator
        exact factorialsFrom_within hreader 0 (List.forall_mem_cons.mpr ⟨hoperator, hbefore⟩) hrest
    · rw [factorialsFrom.eq_3 _ _ _ _ fun text heq => hstray ⟨text, heq⟩]
      have happlied := applyFactorials_within hreader run hbefore
      exact factorialsFrom_within hreader 0 (List.forall_mem_cons.mpr ⟨factorials_within hreader ht, happlied⟩) hrest

end

/-! ### Products -/

theorem isFunction_maker (h : v.Agree P v') (hreader : ∀ word ∈ readerWords, P word) (maker : Maker) :
    v.isFunction maker.word = v'.isFunction maker.word :=
  h.isFunction _ (hreader _ (readerWords_maker maker))

theorem expandLiteral_congr (h : v.Agree P v') (hreader : ∀ word ∈ readerWords, P word) (t : Tree) :
    expandLiteral v t = expandLiteral v' t := by
  unfold expandLiteral
  split
  · rw [isFunction_maker h hreader]
  · rfl

theorem expandLiteral_within (hreader : ∀ word ∈ readerWords, P word) {t : Tree} (ht : t.Within P) :
    ∀ u ∈ expandLiteral v t, u.Within P := by
  unfold expandLiteral
  split
  · split
    · simp
    · simpa using hreader _ (readerWords_maker _)
  · simpa using ht

theorem joinArguments_cons {t : Tree} {rest : List Tree} (hrest : rest ≠ [])
    (h : ¬ ∃ word items rest', t = .leaf (.name word) ∧ rest = .group items :: rest') :
    joinArguments v (t :: rest) = t :: joinArguments v rest :=
  joinArguments.eq_4 _ _ _ hrest fun word items rest' ht hgroup => h ⟨word, items, rest', ht, hgroup⟩

theorem joinArguments_congr (h : v.Agree P v') :
    ∀ {items : List Tree}, (∀ t ∈ items, t.Within P) → joinArguments v items = joinArguments v' items
  | [], _ => rfl
  | [_], _ => rfl
  | t :: u :: rest, hitems => by
    obtain ⟨ht, htail⟩ := List.forall_mem_cons.mp hitems
    by_cases happlied : ∃ word items rest', t = .leaf (.name word) ∧ u :: rest = .group items :: rest'
    · obtain ⟨word, items, rest', rfl, hgroup⟩ := happlied
      cases hgroup
      rw [joinArguments, joinArguments, h.isFunction word ht, joinArguments_congr h (List.forall_mem_cons.mp htail).2]
    · rw [joinArguments_cons (List.cons_ne_nil u rest) happlied, joinArguments_cons (List.cons_ne_nil u rest) happlied,
        joinArguments_congr h htail]

theorem joinArguments_within :
    ∀ {items : List Tree}, (∀ t ∈ items, t.Within P) → ∀ t ∈ joinArguments v items, t.Within P
  | [], h => h
  | [_], h => h
  | t :: u :: rest, hitems => by
    obtain ⟨ht, htail⟩ := List.forall_mem_cons.mp hitems
    by_cases happlied : ∃ word items rest', t = .leaf (.name word) ∧ u :: rest = .group items :: rest'
    · obtain ⟨word, items, rest', rfl, hgroup⟩ := happlied
      cases hgroup
      obtain ⟨hgroup, hrest⟩ := List.forall_mem_cons.mp htail
      have hjoined := joinArguments_within hrest
      rw [joinArguments]
      split
      · exact List.forall_mem_cons.mpr ⟨within_applied.mpr ⟨ht, within_group.mp hgroup⟩, hjoined⟩
      · exact List.forall_mem_cons.mpr ⟨ht, List.forall_mem_cons.mpr ⟨hgroup, hjoined⟩⟩
    · rw [joinArguments_cons (List.cons_ne_nil u rest) happlied]
      exact List.forall_mem_cons.mpr ⟨ht, joinArguments_within htail⟩

theorem endsFactor_congr (h : v.Agree P v') {t : Tree} (ht : t.Within P) : endsFactor v t = endsFactor v' t := by
  unfold endsFactor
  split <;> simp_all [h.isFunction]

theorem asFactor_within {t next : Tree} (ht : t.Within P) : (asFactor t next).Within P := by
  unfold asFactor
  split
  · simp
  · exact ht

theorem insertProducts_congr (h : v.Agree P v') (hitems : ∀ t ∈ items, t.Within P) (member : Bool) :
    insertProducts v member items = insertProducts v' member items := by
  induction items generalizing member with
  | nil => rfl
  | cons a rest ih =>
    cases rest with
    | nil => rfl
    | cons b rest =>
      obtain ⟨ha, hrest⟩ := List.forall_mem_cons.mp hitems
      simp only [insertProducts, endsFactor_congr h ha, ih hrest]

theorem insertProducts_within (hitems : ∀ t ∈ items, t.Within P) (member : Bool) :
    ∀ t ∈ insertProducts v member items, t.Within P := by
  induction items generalizing member with
  | nil => simp [insertProducts]
  | cons a rest ih =>
    cases rest with
    | nil => exact hitems
    | cons b rest =>
      obtain ⟨ha, hrest⟩ := List.forall_mem_cons.mp hitems
      unfold insertProducts
      dsimp only
      split
      · have hsign : (Tree.leaf (.operator "*")).Within P := within_leaf.mpr within_operator
        exact List.forall_mem_cons.mpr ⟨asFactor_within ha, List.forall_mem_cons.mpr ⟨hsign, ih hrest _⟩⟩
      · exact List.forall_mem_cons.mpr ⟨ha, ih hrest _⟩

theorem withProducts_within (hproducts : ∀ t ∈ productsIn v items, t.Within P) :
    ∀ t ∈ withProducts v items, t.Within P :=
  insertProducts_within (joinArguments_within hproducts) false

mutual

theorem products_within (hreader : ∀ word ∈ readerWords, P word) :
    ∀ {t : Tree}, t.Within P → (t.products v).Within P
  | .leaf _, h => h
  | .group _, h => within_group.mpr (withProducts_within (productsIn_within hreader (within_group.mp h)))
  | .applied _ _, h => by
    obtain ⟨hword, hitems⟩ := within_applied.mp h
    exact within_applied.mpr ⟨hword, withProducts_within (productsIn_within hreader hitems)⟩

theorem productsIn_within (hreader : ∀ word ∈ readerWords, P word) :
    ∀ {items : List Tree}, (∀ t ∈ items, t.Within P) → ∀ t ∈ productsIn v items, t.Within P
  | [], h => h
  | t :: rest, h => by
    obtain ⟨ht, hrest⟩ := List.forall_mem_cons.mp h
    have hliteral := expandLiteral_within (v := v) hreader (products_within hreader ht)
    exact List.forall_mem_append.mpr ⟨hliteral, productsIn_within hreader hrest⟩

end

theorem withProducts_congr (h : v.Agree P v') (hproducts : productsIn v items = productsIn v' items)
    (hwithin : ∀ t ∈ productsIn v' items, t.Within P) : withProducts v items = withProducts v' items := by
  rw [withProducts, withProducts, hproducts, joinArguments_congr h hwithin,
    insertProducts_congr h (joinArguments_within hwithin)]

mutual

theorem products_congr (h : v.Agree P v') (hreader : ∀ word ∈ readerWords, P word) :
    ∀ {t : Tree}, t.Within P → t.products v = t.products v'
  | .leaf _, _ => rfl
  | .group _, ht => by
    have hitems := within_group.mp ht
    exact congrArg Tree.group
      (withProducts_congr h (productsIn_congr h hreader hitems) (productsIn_within hreader hitems))
  | .applied word _, ht => by
    have hitems := (within_applied.mp ht).2
    exact congrArg (Tree.applied word)
      (withProducts_congr h (productsIn_congr h hreader hitems) (productsIn_within hreader hitems))

theorem productsIn_congr (h : v.Agree P v') (hreader : ∀ word ∈ readerWords, P word) :
    ∀ {items : List Tree}, (∀ t ∈ items, t.Within P) → productsIn v items = productsIn v' items
  | [], _ => rfl
  | t :: rest, ht => by
    obtain ⟨ht, hrest⟩ := List.forall_mem_cons.mp ht
    rw [productsIn, productsIn, products_congr h hreader ht, productsIn_congr h hreader hrest,
      expandLiteral_congr h hreader]

end

/-! ### Calls -/

/-- The names among the tokens of an item are among some words. -/
def Item.Within (P : String → Prop) (item : Item) : Prop := ∀ t ∈ item.tokens, t.Within P

theorem functionName?_congr (h : v.Agree P v') {item : Item} (hitem : item.Within P) :
    functionName? v item = functionName? v' item := by
  unfold functionName?
  split
  · exact h.isFunction _ (by simpa [Item.Within, Item.tokens] using hitem)
  · rfl

theorem insertCalls_congr (h : v.Agree P v') {items : List Item} (hitems : ∀ item ∈ items, item.Within P)
    (state : CallState) : insertCalls v state items = insertCalls v' state items := by
  induction items generalizing state with
  | nil => rfl
  | cons a rest ih =>
    cases rest with
    | nil => rfl
    | cons b rest =>
      obtain ⟨ha, hrest⟩ := List.forall_mem_cons.mp hitems
      simp only [insertCalls, functionName?_congr h ha, ih hrest]

/-- Parentheses are the only tokens that are put in. -/
theorem insertCalls_within {items : List Item} (hitems : ∀ item ∈ items, item.Within P) (state : CallState) :
    ∀ t ∈ insertCalls v state items, t.Within P := by
  induction items generalizing state with
  | nil => simp [insertCalls]
  | cons a rest ih =>
    obtain ⟨ha, hrest⟩ := List.forall_mem_cons.mp hitems
    rw [Item.Within] at ha
    cases rest with
    | nil =>
      refine List.forall_mem_append.mpr ⟨ha, fun t ht => ?_⟩
      rw [List.eq_of_mem_replicate ht]
      exact within_operator
    | cons b rest =>
      unfold insertCalls
      dsimp only
      split_ifs
      all_goals
        simp only [List.forall_mem_append, List.forall_mem_cons, List.not_mem_nil, false_implies, implies_true,
          within_operator, true_and, and_true]
        exact ⟨ha, ih hrest _⟩

theorem items_leaf_within (hreader : ∀ word ∈ readerWords, P word) {t : Token} (ht : t.Within P) :
    ∀ item ∈ (Tree.leaf t).items v, item.Within P := by
  by_cases hliteral : ∃ maker argument, t = .literal maker argument
  · obtain ⟨maker, argument, rfl⟩ := hliteral
    simpa [Tree.items, Item.Within, Item.tokens] using hreader _ (readerWords_maker maker)
  · rw [Tree.items.eq_2 _ _ fun maker argument heq => hliteral ⟨maker, argument, heq⟩]
    simpa [Item.Within, Item.tokens] using ht

mutual

theorem items_within (hreader : ∀ word ∈ readerWords, P word) :
    ∀ {t : Tree}, t.Within P → ∀ item ∈ t.items v, item.Within P
  | .leaf _, h => items_leaf_within hreader (within_leaf.mp h)
  | .group _, h => by
    have hinside := insertCalls_within (v := v) (itemsIn_within hreader (within_group.mp h)) {}
    simpa [Tree.items, Item.Within, Item.tokens, or_imp, forall_and] using hinside
  | .applied _ _, h => by
    obtain ⟨hword, hitems⟩ := within_applied.mp h
    have hinside := insertCalls_within (v := v) (itemsIn_within hreader hitems) {}
    simpa [Tree.items, Item.Within, Item.tokens, or_imp, forall_and] using ⟨hword, hinside⟩

theorem itemsIn_within (hreader : ∀ word ∈ readerWords, P word) :
    ∀ {trees : List Tree}, (∀ t ∈ trees, t.Within P) → ∀ item ∈ itemsIn v trees, item.Within P
  | [], _ => by simp [itemsIn]
  | _ :: _, h => by
    obtain ⟨ht, hrest⟩ := List.forall_mem_cons.mp h
    exact List.forall_mem_append.mpr ⟨items_within hreader ht, itemsIn_within hreader hrest⟩

end

mutual

theorem items_congr (h : v.Agree P v') (hreader : ∀ word ∈ readerWords, P word) :
    ∀ {t : Tree}, t.Within P → t.items v = t.items v'
  | .leaf t, _ => by cases t <;> rfl
  | .group _, ht => by
    have hitems := within_group.mp ht
    rw [Tree.items, Tree.items, itemsIn_congr h hreader hitems, insertCalls_congr h (itemsIn_within hreader hitems)]
  | .applied _ _, ht => by
    have hitems := (within_applied.mp ht).2
    rw [Tree.items, Tree.items, itemsIn_congr h hreader hitems, insertCalls_congr h (itemsIn_within hreader hitems)]

theorem itemsIn_congr (h : v.Agree P v') (hreader : ∀ word ∈ readerWords, P word) :
    ∀ {trees : List Tree}, (∀ t ∈ trees, t.Within P) → itemsIn v trees = itemsIn v' trees
  | [], _ => rfl
  | _ :: _, ht => by
    obtain ⟨ht, hrest⟩ := List.forall_mem_cons.mp ht
    rw [itemsIn, itemsIn, items_congr h hreader ht, itemsIn_congr h hreader hrest]

end

/-! ### All together -/

theorem completedTrees_within (hreader : ∀ word ∈ readerWords, P word) {tokens : List Token}
    (htokens : ∀ t ∈ tokens, t.Within P) {trees : List Tree} (h : Tree.ofTokens tokens = .ok trees) :
    ∀ t ∈ factorialsFrom [] 0 trees, t.Within P :=
  factorialsFrom_within hreader 0 (by simp) (groupFrom_within (by simp) (by simp) htokens h)

theorem complete_congr (h : v.Agree P v') (hreader : ∀ word ∈ readerWords, P word) (exact : Bool)
    {tokens : List Token} (htokens : ∀ t ∈ tokens, t.Within P) :
    complete v exact tokens = complete v' exact tokens := by
  unfold complete
  cases htrees : Tree.ofTokens tokens with
  | error e => rfl
  | ok trees =>
    have hfactorials := completedTrees_within hreader htokens htrees
    have hproducts := productsIn_within (v := v') hreader hfactorials
    have hcalled := withProducts_within hproducts
    simp only [bind, Except.bind, withProducts_congr h (productsIn_congr h hreader hfactorials) hproducts,
      itemsIn_congr h hreader hcalled, insertCalls_congr h (itemsIn_within hreader hcalled)]

theorem complete_within (hreader : ∀ word ∈ readerWords, P word) {exact : Bool} {tokens : List Token}
    (htokens : ∀ t ∈ tokens, t.Within P) {completed : List Token} (h : complete v exact tokens = .ok completed) :
    ∀ t ∈ completed, t.Within P := by
  unfold complete at h
  split at h
  · cases h
  · cases htrees : Tree.ofTokens tokens with
    | error e => simp [htrees] at h
    | ok trees =>
      have hfactorials := completedTrees_within hreader htokens htrees
      have hcalled := withProducts_within (productsIn_within (v := v) hreader hfactorials)
      have hflat := insertCalls_within (v := v) (itemsIn_within (v := v) hreader hcalled) {}
      have hpowers := replaced_within (.operator "^") (.operator "**") trivial hflat
      have hdecimals := replaced_within (.name "Float") (.name "Rational") (hreader "Rational" (by decide)) hpowers
      rw [htrees] at h
      cases h
      split
      · exact hdecimals
      · exact hpowers

end Trees

end Reckoner.Expression
