import Reckoner.Expression.Value
import Reckoner.Proofs.Expression.Adjacency
import Reckoner.Proofs.Expression.Numerals

/-!
# Completing a writing

In a writing nothing is left out: no multiplication sign, no bracket of a call and no factorial sign.  Completing its
tokens therefore only gives the literals their makers and the powers their longer sign.  The words that the reader
relies on must not be bound by the scope, and the variables of the writing must be no functions.
-/

namespace Reckoner.Expression

open Reckoner.Text

/-! ### Scopes for arithmetic -/

/-- No variable of the scope has the name of a reserved word. -/
def Scope.LeavesReserved (scope : Scope) : Prop := ∀ word, scope.binds word → reservedValue? word = none

theorem leavesReserved_nil : Scope.LeavesReserved [] := by
  intro word hbinds
  cases hbinds

theorem isFunctionName_of_reserved {scope : Scope} (hscope : scope.LeavesReserved) {word : String}
    (hword : (reservedValue? word).any Value.isFunction) (hnamespace : namespaceValue? word = none) :
    isFunctionName scope word := by
  have hfind : scope.find? word = none := by
    by_contra hsome
    rw [hscope word (Option.isSome_iff_ne_none.mpr hsome)] at hword
    cases hword
  simpa [isFunctionName, hfind, hnamespace] using hword

theorem isFunctionName_maker {scope : Scope} (hscope : scope.LeavesReserved) (l : Literal) :
    isFunctionName scope l.maker.word := by
  cases l with
  | whole n => exact isFunctionName_of_reserved hscope rfl rfl
  | decimal front fraction => exact isFunctionName_of_reserved hscope rfl rfl

theorem plain_of_rational? {scope : Scope} (hscope : scope.LeavesReserved) {word : String} {q : Rat}
    (h : scope.rational? word = some q) :
    scope.binds word ∧ isFunctionName scope word = false ∧ reservedValue? word = none := by
  unfold Scope.rational? at h
  split at h
  · rename_i p hfind
    have hbinds : scope.binds word := by simp [Scope.binds, hfind]
    have hreserved := hscope word hbinds
    refine ⟨hbinds, ?_, hreserved⟩
    simp [isFunctionName, hfind, hreserved, Value.isFunction]
  · cases h

/-- What an expression asks of the scope: its variables are bound, are no functions and have no reserved name, and
    literals have their usual makers. -/
structure Scope.Supplies (scope : Scope) (e : Arithmetic) : Prop where
  leavesReserved : scope.LeavesReserved
  names : ∀ word ∈ e.names, scope.binds word ∧ isFunctionName scope word = false ∧ reservedValue? word = none

theorem rational?_of_value? {scope : Scope} {e : Arithmetic} {q : Rat} (h : e.value? scope = some q) {word : String}
    (hword : word ∈ e.names) : ∃ p, scope.rational? word = some p := by
  induction e generalizing q with
  | literal l => cases hword
  | name other =>
    obtain rfl : word = other := by simpa [Arithmetic.names] using hword
    exact ⟨q, h⟩
  | negation operand ih =>
    obtain ⟨p, hp, _⟩ := Option.map_eq_some_iff.mp h
    exact ih hp hword
  | operation op left right ihl ihr =>
    obtain ⟨p, hp, hright⟩ := Option.bind_eq_some_iff.mp h
    obtain ⟨p', hp', _⟩ := Option.bind_eq_some_iff.mp hright
    rcases List.mem_append.mp hword with hword | hword
    · exact ihl hp hword
    · exact ihr hp' hword

theorem Scope.supplies_of_value? {scope : Scope} (hscope : scope.LeavesReserved) {e : Arithmetic} {q : Rat}
    (h : e.value? scope = some q) : scope.Supplies e where
  leavesReserved := hscope
  names word hword := by
    obtain ⟨p, hp⟩ := rational?_of_value? h hword
    exact plain_of_rational? hscope hp

/-! ### Names and numerals -/

section Resolving

variable {tokens : List Token}

theorem rewriteAnonymous_eq (h : ∀ t ∈ tokens.head?, t ≠ .name "lambda") : rewriteAnonymous tokens = some tokens := by
  unfold rewriteAnonymous
  split
  · exact absurd rfl (h _ (by simp))
  · rfl

theorem resolveNames_eq {v : Vocabulary} (h : ∀ word, .name word ∈ tokens → v.hasValue word) (previous : Token) :
    resolveNames v previous tokens = tokens := by
  induction tokens generalizing previous with
  | nil => rfl
  | cons t rest ih =>
    have hrest := ih fun word hword => h word (List.mem_cons_of_mem t hword)
    cases t with
    | name word =>
      have hkeeps : keepsName v previous rest.head? word = true := by simp [keepsName, h word (by simp)]
      rw [resolveNames, if_pos hkeeps, hrest]
    | _ => simp [resolveNames, hrest]

theorem expandRepetends_eq (h : Token.operator "[" ∉ tokens) : expandRepetends tokens = tokens := by
  fun_induction expandRepetends tokens <;> simp_all

theorem resolveNumerals_append (ts us : List Token) :
    resolveNumerals (ts ++ us) = resolveNumerals ts ++ resolveNumerals us := by
  induction ts with
  | nil => rfl
  | cons t rest ih => cases t <;> simp [resolveNumerals, ih]

end Resolving

def Writing.resolved (w : Writing) : List Token :=
  w.spell (fun l => [.literal l.maker (String.ofList l.text)]) ArithmeticOperator.sign

theorem resolveNumerals_tokens (w : Writing) : resolveNumerals w.tokens = w.resolved := by
  unfold Writing.tokens Writing.resolved
  induction w with
  | literal l => simp [Writing.spell, resolveNumerals, numeralLiteral_text]
  | name word => rfl
  | negation operand ih => simp [Writing.spell, resolveNumerals, ih]
  | operation op left right ihl ihr => simp [Writing.spell, resolveNumerals, resolveNumerals_append, ihl, ihr]
  | bracket inside ih => simp [Writing.spell, resolveNumerals, resolveNumerals_append, ih]

/-- The names of a writing keep their meaning, and its numerals become literals. -/
theorem resolve_tokens {v : Vocabulary} {w : Writing} (hw : w.tree.IsReadable)
    (hnames : ∀ word ∈ w.tree.names, v.hasValue word) :
    resolve v (w.tokens ++ closingTokens) = some (w.resolved ++ closingTokens) := by
  have hname {word : String} (h : Token.name word ∈ w.tokens ++ closingTokens) : word ∈ w.tree.names := by
    apply Writing.mem_names_of_mem_tokens
    simpa [closingTokens] using h
  have hlambda : ∀ t ∈ (w.tokens ++ closingTokens).head?, t ≠ .name "lambda" := by
    rintro t ht rfl
    have hkeyword := (hw.names "lambda" (hname (List.mem_of_mem_head? ht))).2.1
    exact absurd hkeyword (by decide)
  have hvalue : ∀ word, .name word ∈ w.tokens ++ closingTokens → v.hasValue word :=
    fun word hword => hnames word (hname hword)
  have hbracket : Token.operator "[" ∉ w.tokens ++ closingTokens := by
    have hall : ∀ t ∈ w.tokens, t ≠ .operator "[" := by
      refine w.forall_mem_spell (by simp) (by simp) (by simp) (by simp) (by simp) ?_
      intro op
      cases op <;> simp [ArithmeticOperator.sign]
    intro hmem
    rcases List.mem_append.mp hmem with hmem | hmem
    · exact hall _ hmem rfl
    · simp [closingTokens] at hmem
  rw [resolve, rewriteAnonymous_eq hlambda, Option.map_some, resolveNames_eq hvalue, expandRepetends_eq hbracket,
    resolveNumerals_append, resolveNumerals_tokens]
  rfl

/-! ### Trees -/

def Writing.trees : Writing → List Tree
  | literal l => [.leaf (.literal l.maker (String.ofList l.text))]
  | name word => [.leaf (.name word)]
  | negation operand => .leaf (.operator "-") :: trees operand
  | operation op left right => trees left ++ .leaf (.operator op.sign) :: trees right
  | bracket inside => [.group (trees inside)]

/-- The trees behind the last one of an expression. -/
def closingTrees : List Tree := closingTokens.map .leaf

theorem groupFrom_resolved (w : Writing) (outer : List (List Tree)) (current : List Tree) (rest : List Token) :
    groupFrom outer current (w.resolved ++ rest) = groupFrom outer (w.trees.reverse ++ current) rest := by
  unfold Writing.resolved
  induction w generalizing outer current rest with
  | literal l => rfl
  | name word => rfl
  | negation operand ih =>
    rw [Writing.spell, List.cons_append, groupFrom, ih, Writing.trees, List.reverse_cons, List.append_assoc]
    · rfl
    all_goals
      intros
      simp_all
  | operation op left right ihl ihr =>
    have hsign (before : List Tree) (rest : List Token) :
        groupFrom outer before (.operator op.sign :: rest) =
          groupFrom outer (.leaf (.operator op.sign) :: before) rest := by
      cases op <;> rfl
    rw [Writing.spell, List.append_assoc, List.cons_append, ihl, hsign, ihr, Writing.trees, List.reverse_append,
      List.reverse_cons, List.append_assoc, List.append_assoc]
    rfl
  | bracket inside ih =>
    rw [Writing.spell, List.cons_append, List.cons_append, List.append_assoc, groupFrom, ih, List.append_nil,
      List.cons_append, List.nil_append, groupFrom, List.reverse_reverse, Writing.trees, List.reverse_singleton]
    rfl

theorem ofTokens_resolved (w : Writing) :
    Tree.ofTokens (w.resolved ++ closingTokens) = .ok (w.trees ++ closingTrees) := by
  rw [Tree.ofTokens, groupFrom_resolved, List.append_nil]
  simp [closingTokens, closingTrees, groupFrom]

/-! ### Factorial signs -/

theorem factorialsAttached_eq {tokens : List Token} (h : ∀ text, Token.stray text ∉ tokens) (previous : Option Token) :
    factorialsAttached previous 0 tokens = true := by
  induction tokens generalizing previous with
  | nil => rfl
  | cons t rest ih =>
    have hrest := ih fun text hmem => h text (List.mem_cons_of_mem t hmem)
    cases t with
    | stray text => exact absurd List.mem_cons_self (h text)
    | _ => simp [factorialsAttached, hrest]

theorem factorialsFrom_trees (w : Writing) (before rest : List Tree) :
    factorialsFrom before 0 (w.trees ++ rest) = factorialsFrom (w.trees.reverse ++ before) 0 rest := by
  induction w generalizing before rest with
  | literal l => simp [Writing.trees, factorialsFrom, Tree.factorials, applyFactorials]
  | name word => simp [Writing.trees, factorialsFrom, Tree.factorials, applyFactorials]
  | negation operand ih => simp [Writing.trees, factorialsFrom, Tree.factorials, applyFactorials, ih]
  | operation op left right ihl ihr =>
    simp [Writing.trees, factorialsFrom, Tree.factorials, applyFactorials, ihl, ihr]
  | bracket inside ih =>
    have hinside : factorialsFrom [] 0 inside.trees = inside.trees := by
      have hnil := ih [] []
      simpa [factorialsFrom, applyFactorials] using hnil
    simp [Writing.trees, factorialsFrom, Tree.factorials, applyFactorials, hinside]

/-! ### Products without a sign -/

section Products

variable {v : Vocabulary} {trees : List Tree}

/-- Where no function name stands before a group, no arguments are joined. -/
theorem joinArguments_eq (h : ∀ word, Tree.leaf (.name word) ∈ trees → v.isFunction word = false) :
    joinArguments v trees = trees := by
  fun_induction joinArguments v trees <;> simp_all

/-- Where no two factors are neighbours and no point occurs, no sign is put in. -/
theorem insertProducts_eq (hpoint : Tree.leaf (.operator ".") ∉ trees)
    (hchain : trees.IsChain fun a b => (endsFactor v a && beginsFactor b) = false) :
    insertProducts v false trees = trees := by
  induction trees with
  | nil => rfl
  | cons a rest ih =>
    cases rest with
    | nil => rfl
    | cons b rest =>
      rw [List.isChain_cons_cons] at hchain
      have hrest := ih (fun hmem => hpoint (List.mem_cons_of_mem a hmem)) hchain.2
      have ha : a ≠ .leaf (.operator ".") := by
        rintro rfl
        exact hpoint List.mem_cons_self
      rw [insertProducts]
      · simp only [Bool.not_false, Bool.true_and, Bool.and_true, hchain.1, Bool.false_eq_true, if_false]
        rw [hrest]
      · intro word heq
        exact absurd heq ha

theorem isChain_trees (v : Vocabulary) (w : Writing) :
    w.trees.IsChain fun a b => (endsFactor v a && beginsFactor b) = false := by
  induction w with
  | literal l => exact List.isChain_singleton _
  | name word => exact List.isChain_singleton _
  | negation operand ih =>
    rw [Writing.trees, List.isChain_cons]
    exact ⟨fun _ _ => rfl, ih⟩
  | operation op left right ihl ihr =>
    rw [Writing.trees, List.isChain_append, List.isChain_cons]
    refine ⟨ihl, ⟨fun _ _ => rfl, ihr⟩, ?_⟩
    intro a _ b hb
    obtain rfl : .leaf (.operator op.sign) = b := by simpa using hb
    simp [beginsFactor]
  | bracket inside => exact List.isChain_singleton _

theorem point_not_mem_trees (w : Writing) : Tree.leaf (.operator ".") ∉ w.trees := by
  induction w with
  | operation op left right ihl ihr => cases op <;> simp_all [Writing.trees, ArithmeticOperator.sign]
  | _ => simp_all [Writing.trees]

theorem mem_names_of_mem_trees {w : Writing} {word : String} (h : Tree.leaf (.name word) ∈ w.trees) :
    word ∈ w.tree.names := by
  induction w with
  | operation op left right ihl ihr =>
    simp only [Writing.trees, List.mem_append, List.mem_cons, Tree.leaf.injEq, reduceCtorEq, false_or] at h
    simp only [Writing.tree, Arithmetic.names, List.mem_append]
    exact h.imp ihl ihr
  | _ => simp_all [Writing.trees, Writing.tree, Arithmetic.names]

/-- Nothing is put into the trees of a writing. -/
theorem withProducts_eq_of_productsIn {w : Writing} (hnames : ∀ word ∈ w.tree.names, v.isFunction word = false)
    (hproducts : productsIn v w.trees = w.trees) :
    insertProducts v false (joinArguments v (productsIn v w.trees)) = w.trees := by
  rw [hproducts, joinArguments_eq fun word hword => hnames word (mem_names_of_mem_trees hword),
    insertProducts_eq (point_not_mem_trees w) (isChain_trees v w)]

theorem productsIn_append (v : Vocabulary) (ts us : List Tree) :
    productsIn v (ts ++ us) = productsIn v ts ++ productsIn v us := by
  induction ts with
  | nil => rfl
  | cons t rest ih => simp [productsIn, ih]

theorem productsIn_trees {w : Writing} (hmaker : ∀ l : Literal, v.isFunction l.maker.word)
    (hnames : ∀ word ∈ w.tree.names, v.isFunction word = false) : productsIn v w.trees = w.trees := by
  induction w with
  | literal l => simp [Writing.trees, productsIn, Tree.products, expandLiteral, hmaker]
  | name word => simp [Writing.trees, productsIn, Tree.products, expandLiteral]
  | negation operand ih => simp [Writing.trees, productsIn, Tree.products, expandLiteral, ih hnames]
  | operation op left right ihl ihr =>
    simp only [Writing.tree, Arithmetic.names, List.mem_append] at hnames
    simp [Writing.trees, productsIn_append, productsIn, Tree.products, expandLiteral,
      ihl fun word hword => hnames word (.inl hword), ihr fun word hword => hnames word (.inr hword)]
  | bracket inside ih =>
    have hinside := withProducts_eq_of_productsIn (w := inside) hnames (ih hnames)
    simp [Writing.trees, productsIn, Tree.products, expandLiteral, hinside]

end Products

/-! ### Calls without brackets -/

section Calls

variable {v : Vocabulary}

/-- Where neither an argument nor a power follows a function name, no bracket is put in. -/
theorem insertCalls_eq {items : List Item} (hpower : ∀ a ∈ items, a.isOperator "**" = false)
    (hchain : items.IsChain fun a b => functionName? v a → b.isArgument = false) :
    insertCalls v {} items = items.flatMap Item.tokens := by
  induction items with
  | nil => rfl
  | cons a rest ih =>
    cases rest with
    | nil => simp [insertCalls]
    | cons b rest =>
      rw [List.isChain_cons_cons] at hchain
      have hrest := ih (fun c hc => hpower c (List.mem_cons_of_mem a hc)) hchain.2
      have hb : b.isOperator "**" = false := hpower b (by simp)
      rw [List.flatMap_cons, ← hrest]
      cases a with
      | unit tokens => simp [insertCalls]
      | token t =>
        cases t with
        | name word =>
          by_cases hfunction : functionName? v (.token (.name word))
          · simp [insertCalls, hchain.1 hfunction, hb]
          · simp [insertCalls, hfunction, hb]
        | _ => simp [insertCalls]

def Literal.called (l : Literal) : List Token :=
  [.name l.maker.word, .operator "(", argumentToken l.maker (String.ofList l.text), .operator ")"]

/-- The tokens of a writing with the makers of its literals. -/
def Writing.called (w : Writing) : List Token := w.spell Literal.called ArithmeticOperator.sign

/-- What the search for left-out brackets sees of a writing. -/
def Writing.items : Writing → List Item
  | literal l => [.unit l.called]
  | name word => [.token (.name word)]
  | negation operand => .token (.operator "-") :: items operand
  | operation op left right => items left ++ .token (.operator op.sign) :: items right
  | bracket inside => .token (.operator "(") :: inside.called.map .token ++ [.token (.operator ")")]

theorem flatMap_tokens_items (w : Writing) : w.items.flatMap Item.tokens = w.called := by
  unfold Writing.called
  induction w with
  | literal l => simp [Writing.items, Writing.spell, Item.tokens]
  | name word => rfl
  | negation operand ih => simp [Writing.items, Writing.spell, Item.tokens, ih]
  | operation op left right ihl ihr => simp [Writing.items, Writing.spell, Item.tokens, ihl, ihr]
  | bracket inside => simp [Writing.items, Writing.spell, Writing.called, Item.tokens, List.flatMap_map]

theorem isSpelling_called : IsSpelling Literal.called ArithmeticOperator.sign where
  begins l := ⟨_, _, rfl, rfl⟩
  ends l := ⟨[_, _, _], _, rfl, rfl⟩
  signs op := by cases op <;> rfl

theorem isArgument_operator (text : String) : (Item.token (.operator text)).isArgument = false := rfl

theorem isChain_called (v : Vocabulary) (w : Writing) :
    (w.called.map Item.token).IsChain fun a b => functionName? v a → b.isArgument = false := by
  rw [List.isChain_map]
  refine Writing.isChain_spell isSpelling_called ?_ ?_ ?_ w
  · intro l
    cases l <;> simp [Literal.called, functionName?, Item.isArgument, argumentToken, Literal.maker]
  · intro a b ha _ hfunction
    cases a <;> simp [functionName?, Token.asksOperand, Token.isSign] at ha hfunction
  · intro a b _ hb _
    cases b <;> simp [Token.followsOperand, Token.isSign, Item.isArgument] at hb ⊢

theorem isChain_items (v : Vocabulary) (w : Writing) :
    w.items.IsChain fun a b => functionName? v a → b.isArgument = false := by
  induction w with
  | literal l => exact List.isChain_singleton _
  | name word => exact List.isChain_singleton _
  | negation operand ih =>
    rw [Writing.items, List.isChain_cons]
    exact ⟨fun _ _ hfunction => Bool.noConfusion hfunction, ih⟩
  | operation op left right ihl ihr =>
    rw [Writing.items, List.isChain_append, List.isChain_cons]
    refine ⟨ihl, ⟨fun _ _ hfunction => Bool.noConfusion hfunction, ihr⟩, ?_⟩
    intro a _ b hb _
    obtain rfl : .token (.operator op.sign) = b := by simpa using hb
    exact isArgument_operator op.sign
  | bracket inside =>
    rw [Writing.items, List.cons_append, List.isChain_cons, List.isChain_append]
    refine ⟨fun _ _ hfunction => Bool.noConfusion hfunction, isChain_called v inside, List.isChain_singleton _, ?_⟩
    intro a _ b hb _
    obtain rfl : .token (.operator ")") = b := by simpa using hb
    exact isArgument_operator ")"

theorem not_power_called {w : Writing} : ∀ t ∈ w.called, (Item.token t).isOperator "**" = false := by
  refine w.forall_mem_spell ?_ (fun _ _ => rfl) rfl rfl rfl ?_
  · intro l _ t ht
    simp only [Literal.called, List.mem_cons, List.not_mem_nil, or_false] at ht
    rcases ht with rfl | rfl | rfl | rfl <;> cases l <;> rfl
  · intro op
    cases op <;> rfl

theorem not_power_items {w : Writing} : ∀ a ∈ w.items, a.isOperator "**" = false := by
  induction w with
  | literal l => simp [Writing.items, Item.isOperator]
  | name word => simp [Writing.items, Item.isOperator]
  | negation operand ih => simpa [Writing.items, Item.isOperator] using ih
  | operation op left right ihl ihr =>
    intro a ha
    simp only [Writing.items, List.mem_append, List.mem_cons] at ha
    rcases ha with ha | rfl | ha
    · exact ihl a ha
    · cases op <;> rfl
    · exact ihr a ha
  | bracket inside =>
    intro a ha
    simp only [Writing.items, List.cons_append, List.mem_cons, List.mem_append, List.mem_map, List.not_mem_nil,
      or_false] at ha
    rcases ha with rfl | ⟨t, ht, rfl⟩ | rfl
    · rfl
    · exact not_power_called t ht
    · rfl

theorem insertCalls_items (v : Vocabulary) (w : Writing) : insertCalls v {} w.items = w.called := by
  rw [insertCalls_eq not_power_items (isChain_items v w), flatMap_tokens_items]

theorem itemsIn_append (v : Vocabulary) (ts us : List Tree) : itemsIn v (ts ++ us) = itemsIn v ts ++ itemsIn v us := by
  induction ts with
  | nil => rfl
  | cons t rest ih => simp [itemsIn, ih]

theorem itemsIn_trees (v : Vocabulary) (w : Writing) : itemsIn v w.trees = w.items := by
  induction w with
  | literal l => simp [Writing.trees, Writing.items, itemsIn, Tree.items, Literal.called]
  | name word => simp [Writing.trees, Writing.items, itemsIn, Tree.items]
  | negation operand ih => simp [Writing.trees, Writing.items, itemsIn, Tree.items, ih]
  | operation op left right ihl ihr =>
    simp [Writing.trees, Writing.items, itemsIn_append, itemsIn, Tree.items, ihl, ihr]
  | bracket inside ih => simp [Writing.trees, Writing.items, itemsIn, Tree.items, ih, insertCalls_items]

end Calls

/-! ### Complete tokens -/

/-- The word that makes the exact value of a literal. -/
def Literal.exactWord : Literal → String
  | whole _ => "Integer"
  | decimal _ _ => "Rational"

def Literal.completed (l : Literal) : List Token :=
  [.name l.exactWord, .operator "(", argumentToken l.maker (String.ofList l.text), .operator ")"]

def ArithmeticOperator.completedSign : ArithmeticOperator → String
  | power => "**"
  | op => op.sign

def Writing.completed (w : Writing) : List Token := w.spell Literal.completed ArithmeticOperator.completedSign

/-- Powers get their longer sign, and decimals denote exact fractions. -/
theorem exactDecimals_called {w : Writing} (hnames : ∀ word ∈ w.tree.names, reservedValue? word = none) :
    exactDecimals (unifyPowers w.called) = w.completed := by
  unfold Writing.called Writing.completed exactDecimals unifyPowers
  induction w with
  | literal l =>
    cases l <;> simp [Writing.spell, Literal.called, Literal.completed, Literal.exactWord, Literal.maker, Maker.word,
      argumentToken]
  | name word =>
    have hword : word ≠ "Float" := by
      rintro rfl
      have hnone := hnames "Float" (by simp [Writing.tree, Arithmetic.names])
      cases hnone
    simp [Writing.spell, hword]
  | negation operand ih => simpa [Writing.spell] using ih hnames
  | operation op left right ihl ihr =>
    simp only [Writing.tree, Arithmetic.names, List.mem_append] at hnames
    have hleft := ihl fun word hword => hnames word (.inl hword)
    have hright := ihr fun word hword => hnames word (.inr hword)
    cases op <;> simp_all [Writing.spell, ArithmeticOperator.sign, ArithmeticOperator.completedSign]
  | bracket inside ih => simpa [Writing.spell] using ih hnames

/-! ### Closed writings -/

section Closed

variable {v : Vocabulary} {w : Writing}

theorem factorialsAttached_resolved (w : Writing) : factorialsAttached none 0 (w.resolved ++ closingTokens) = true := by
  have hall (text : String) : ∀ t ∈ w.resolved, t ≠ .stray text :=
    w.forall_mem_spell (by simp) (by simp) (by simp) (by simp) (by simp) (by simp)
  apply factorialsAttached_eq
  intro text hmem
  rcases List.mem_append.mp hmem with hmem | hmem
  · exact hall text _ hmem rfl
  · simp [closingTokens] at hmem

theorem factorialsFrom_closed (w : Writing) :
    factorialsFrom [] 0 (w.trees ++ closingTrees) = w.trees ++ closingTrees := by
  rw [factorialsFrom_trees]
  simp [closingTrees, closingTokens, factorialsFrom, Tree.factorials, applyFactorials]

theorem isChain_closed (v : Vocabulary) (w : Writing) :
    (w.trees ++ closingTrees).IsChain fun a b => (endsFactor v a && beginsFactor b) = false := by
  rw [List.isChain_append]
  refine ⟨isChain_trees v w, by simp [closingTrees, closingTokens, endsFactor], ?_⟩
  intro a _ b hb
  obtain rfl : .leaf (.lineEnd false) = b := by simpa [closingTrees, closingTokens] using hb
  simp [beginsFactor]

theorem withProducts_closed (hmaker : ∀ l : Literal, v.isFunction l.maker.word)
    (hnames : ∀ word ∈ w.tree.names, v.isFunction word = false) :
    withProducts v (w.trees ++ closingTrees) = w.trees ++ closingTrees := by
  have hclosing : productsIn v closingTrees = closingTrees := rfl
  have hpoint : Tree.leaf (.operator ".") ∉ w.trees ++ closingTrees := by
    simpa [closingTrees, closingTokens] using point_not_mem_trees w
  have hplain : ∀ word, Tree.leaf (.name word) ∈ w.trees ++ closingTrees → v.isFunction word = false := by
    intro word hword
    refine hnames word (mem_names_of_mem_trees ?_)
    simpa [closingTrees, closingTokens] using hword
  rw [withProducts, productsIn_append, productsIn_trees hmaker hnames, hclosing, joinArguments_eq hplain,
    insertProducts_eq hpoint (isChain_closed v w)]

theorem insertCalls_closed (v : Vocabulary) (w : Writing) :
    insertCalls v {} (itemsIn v (w.trees ++ closingTrees)) = w.called ++ closingTokens := by
  have hclosing : itemsIn v closingTrees = closingTokens.map .token := rfl
  rw [itemsIn_append, itemsIn_trees, hclosing, insertCalls_eq, List.flatMap_append, flatMap_tokens_items]
  · rfl
  · intro a ha
    rcases List.mem_append.mp ha with ha | ha
    · exact not_power_items a ha
    · simp only [closingTokens, List.map_cons, List.map_nil, List.mem_cons, List.not_mem_nil, or_false] at ha
      rcases ha with rfl | rfl <;> rfl
  · rw [List.isChain_append]
    refine ⟨isChain_items v w, by simp [closingTokens, functionName?], ?_⟩
    intro a _ b hb _
    obtain rfl : .token (.lineEnd false) = b := by simpa [closingTokens] using hb
    rfl

theorem exactDecimals_closed (hnames : ∀ word ∈ w.tree.names, reservedValue? word = none) :
    exactDecimals (unifyPowers (w.called ++ closingTokens)) = w.completed ++ closingTokens := by
  have hw := exactDecimals_called hnames
  rw [unifyPowers, exactDecimals] at hw
  rw [unifyPowers, exactDecimals, List.map_append, List.map_append, hw]
  rfl

end Closed

theorem complete_resolved {scope : Scope} {w : Writing} (hscope : scope.Supplies w.tree) :
    complete (Vocabulary.ofScope scope) true (w.resolved ++ closingTokens) = .ok (w.completed ++ closingTokens) := by
  have hmaker (l : Literal) : (Vocabulary.ofScope scope).isFunction l.maker.word :=
    isFunctionName_maker hscope.leavesReserved l
  have hproducts := withProducts_closed hmaker fun word hword => (hscope.names word hword).2.1
  have hexact := exactDecimals_closed fun word hword => (hscope.names word hword).2.2
  rw [complete, factorialsAttached_resolved, ofTokens_resolved]
  simp only [Bool.not_true, Bool.false_eq_true, if_false, if_true, bind, Except.bind, factorialsFrom_closed, hproducts,
    insertCalls_closed, hexact, pure, Except.pure]

end Reckoner.Expression
