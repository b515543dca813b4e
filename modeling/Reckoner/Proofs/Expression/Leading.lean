import Reckoner.Proofs.Expression.Bracketing
import Reckoner.Proofs.Expression.Completion

/-!
# Literals in front of a line

Tokens that begin with an operator are completed behind a literal as they are completed alone, whether the literal
stands in brackets or not.  Only an operator that is taken for an argument gets a multiplication sign in front of it.
-/

namespace Reckoner.Expression

open Reckoner.Text

/-- Whether an operator begins with the sign of a sum, a difference, a product or a quotient. -/
def OperatesOn (operator : String) : Prop := ∃ c ∈ operator.toList.head?, c ∈ ['+', '-', '*', '/']

theorem OperatesOn.not_mem {operator : String} (h : OperatesOn operator) (others : List String)
    (hothers : ∀ text ∈ others, ∀ c ∈ text.toList.head?, c ∉ ['+', '-', '*', '/']) : operator ∉ others := by
  obtain ⟨c, hc, hsign⟩ := h
  exact fun hmem => hothers operator hmem c hc hsign

theorem OperatesOn.ne {operator : String} (h : OperatesOn operator) :
    operator ≠ "(" ∧ operator ≠ ")" ∧ operator ≠ "[" ∧ operator ≠ "." ∧ operator ≠ "^" := by
  have hnot := h.not_mem ["(", ")", "[", ".", "^"] (by decide)
  simpa using hnot

/-! ### Names and numerals -/

section Resolving

variable {operator : String} (hoperator : OperatesOn operator)

include hoperator

theorem expandRepetends_operator (tokens : List Token) :
    expandRepetends (.operator operator :: tokens) = .operator operator :: expandRepetends tokens := by
  have hstart : repetendStart? (.operator operator) = none := by
    unfold repetendStart?
    split
    · rename_i heq
      cases heq
    · rename_i heq
      exact absurd (Token.operator.inj heq) hoperator.ne.2.2.2.1
    · rfl
  cases tokens with
  | nil => rfl
  | cons t rest => rw [expandRepetends, hstart]

/-- What stands behind a numeral is resolved as it is alone. -/
theorem resolve_numeral {text : String} {literal : Token} (hliteral : numeralLiteral text = [literal])
    (v : Vocabulary) (negative : Bool) (tokens : List Token) : ∃ others,
      resolve v (.operator operator :: tokens) = some (.operator operator :: others) ∧
      resolve v (signTokens negative ++ .numeral text :: .operator operator :: tokens) =
        some (signTokens negative ++ literal :: .operator operator :: others) ∧
      resolve v (.operator "(" :: (signTokens negative ++ .numeral text :: .operator ")" :: .operator operator ::
        tokens)) = some (.operator "(" :: (signTokens negative ++ literal :: .operator ")" :: .operator operator ::
          others)) := by
  refine ⟨resolveNumerals (expandRepetends (resolveNames v (.operator operator) tokens)), ?_⟩
  have hnumeral {t : Token} (ht : t ≠ .operator "[") {rest : List Token}
      (hrest : expandRepetends (t :: rest) = t :: expandRepetends rest) :
      expandRepetends (.numeral text :: t :: rest) = .numeral text :: t :: expandRepetends rest := by
    rw [expandRepetends]
    split
    · rw [hrest]
    · rw [if_pos ht]
  have hsign (more : List Token) : expandRepetends (signTokens negative ++ .numeral text :: more) =
      signTokens negative ++ expandRepetends (.numeral text :: more) := by
    cases negative <;> rfl
  have hbehind := expandRepetends_operator hoperator (resolveNames v (.operator operator) tokens)
  have hclosing : expandRepetends (.operator ")" :: .operator operator :: resolveNames v (.operator operator) tokens) =
      .operator ")" :: expandRepetends (.operator operator :: resolveNames v (.operator operator) tokens) := rfl
  have hplain := hnumeral (by simpa using hoperator.ne.2.2.1) hbehind
  have hbracket := hnumeral (by simp) hclosing
  refine ⟨?_, ?_, ?_⟩
  · rw [resolve, rewriteAnonymous_eq (by simp), Option.map_some, resolveNames, hbehind]
    · rfl
    · simp
  · have hnames : resolveNames v .finish (signTokens negative ++ .numeral text :: .operator operator :: tokens) =
        signTokens negative ++ .numeral text :: .operator operator :: resolveNames v (.operator operator) tokens := by
      cases negative <;> rfl
    rw [resolve, rewriteAnonymous_eq (by cases negative <;> simp [signTokens]), Option.map_some, hnames, hsign, hplain,
      resolveNumerals_append]
    cases negative <;> simp [signTokens, resolveNumerals, hliteral]
  · have hnames : resolveNames v .finish (.operator "(" :: (signTokens negative ++ .numeral text :: .operator ")" ::
        .operator operator :: tokens)) = .operator "(" :: (signTokens negative ++ .numeral text :: .operator ")" ::
          .operator operator :: resolveNames v (.operator operator) tokens) := by
      cases negative <;> rfl
    have hopening (more : List Token) : expandRepetends (.operator "(" :: (signTokens negative ++ .numeral text ::
        more)) = .operator "(" :: expandRepetends (signTokens negative ++ .numeral text :: more) := by
      cases negative <;> rfl
    rw [resolve, rewriteAnonymous_eq (by simp), Option.map_some, hnames, hopening, hsign, hbracket, hbehind]
    cases negative <;> simp [signTokens, resolveNumerals, hliteral]

end Resolving

/-! ### Grouping -/

/-- Trees at the bottom stay where they are. -/
theorem groupFrom_bottom (bottom : List Tree) (tokens : List Token) :
    (∀ current, groupFrom [] (current ++ bottom) tokens = (groupFrom [] current tokens).map (bottom.reverse ++ ·)) ∧
      ∀ outer lowest current, groupFrom (outer ++ [lowest ++ bottom]) current tokens =
        (groupFrom (outer ++ [lowest]) current tokens).map (bottom.reverse ++ ·) := by
  induction tokens with
  | nil =>
    refine ⟨fun current => ?_, fun outer lowest current => ?_⟩
    · simp [groupFrom, Except.map]
    · simp [groupFrom, Except.map]
  | cons t rest ih =>
    obtain ⟨ihbottom, ihouter⟩ := ih
    by_cases hopening : t = .operator "("
    · subst hopening
      exact ⟨fun current => ihouter [] current [], fun outer lowest current => ihouter (current :: outer) lowest []⟩
    by_cases hclosing : t = .operator ")"
    · subst hclosing
      refine ⟨fun current => rfl, fun outer lowest current => ?_⟩
      cases outer with
      | nil => exact ihbottom (.group current.reverse :: lowest)
      | cons before outer => exact ihouter outer lowest (.group current.reverse :: before)
    have hleaf (outer : List (List Tree)) (current : List Tree) :
        groupFrom outer current (t :: rest) = groupFrom outer (.leaf t :: current) rest := by
      rw [groupFrom]
      · exact hopening
      · exact hclosing
    refine ⟨fun current => ?_, fun outer lowest current => ?_⟩
    · rw [hleaf, hleaf]
      exact ihbottom (.leaf t :: current)
    · rw [hleaf, hleaf]
      exact ihouter outer lowest (.leaf t :: current)

/-! ### Factorial signs -/

/-- No name in front of another tree: a factorial sign that follows it applies to that tree alone. -/
def EndsAlone (bottom : List Tree) : Prop := ∀ word, bottom.head? ≠ some (.leaf (.name word))

theorem applyFactorials_append {items : List Tree} (hitems : items ≠ []) {bottom : List Tree} (hbottom : EndsAlone bottom)
    (run : Nat) : applyFactorials run (items ++ bottom) = applyFactorials run items ++ bottom := by
  have hwrap (word : String) : wrapLast word (items ++ bottom) = wrapLast word items ++ bottom := by
    match items, hitems with
    | [last], _ =>
      cases bottom with
      | nil => simp
      | cons t rest =>
        have ht : ∀ word, t ≠ .leaf (.name word) := fun word heq => hbottom word (by simp [heq])
        unfold wrapLast
        split <;> simp_all
    | .group _ :: before :: rest, _ => rcases before with (_ | _) | _ | _ <;> rfl
    | .applied _ _ :: before :: rest, _ => rcases before with (_ | _) | _ | _ <;> rfl
    | .leaf t :: before :: rest, _ => cases t <;> rcases before with (_ | _) | _ | _ <;> rfl
  match run with
  | 0 => rfl
  | 1 => exact hwrap _
  | run + 2 => exact hwrap _

/-- Factorial signs leave the trees at the bottom alone. -/
theorem factorialsFrom_bottom {bottom : List Tree} (hbottom : EndsAlone bottom) {before : List Tree}
    (hbefore : before ≠ []) (run : Nat) (trees : List Tree) :
    factorialsFrom (before ++ bottom) run trees = bottom.reverse ++ factorialsFrom before run trees := by
  induction trees generalizing before run with
  | nil => rw [factorialsFrom, factorialsFrom, applyFactorials_append hbefore hbottom, List.reverse_append]
  | cons t rest ih =>
    have hitem : factorialsFrom (t.factorials :: applyFactorials run (before ++ bottom)) 0 rest =
        bottom.reverse ++ factorialsFrom (t.factorials :: applyFactorials run before) 0 rest := by
      rw [applyFactorials_append hbefore hbottom]
      exact @ih (t.factorials :: applyFactorials run before) (List.cons_ne_nil _ _) 0
    by_cases hstray : ∃ text, t = .leaf (.stray text)
    · obtain ⟨text, rfl⟩ := hstray
      rw [factorialsFrom, factorialsFrom]
      split
      · exact ih hbefore (run + 1)
      · exact @ih (.leaf (.operator text) :: before) (List.cons_ne_nil _ _) 0
    · have hplain (before : List Tree) : factorialsFrom before run (t :: rest) =
          factorialsFrom (t.factorials :: applyFactorials run before) 0 rest := by
        rw [factorialsFrom]
        rintro text rfl
        exact hstray ⟨text, rfl⟩
      rw [hplain, hplain, hitem]

/-- An operator at the beginning stays where it is, unless a factorial sign applies to it. -/
theorem exists_factorialsFrom_operator (operator : String) (run : Nat) (trees : List Tree) : ∃ more,
    factorialsFrom [.leaf (.operator operator)] run trees = .leaf (.operator operator) :: more ∨
      ∃ word, factorialsFrom [.leaf (.operator operator)] run trees =
        .leaf (.name word) :: .group [.leaf (.operator operator)] :: more := by
  have happlied (run : Nat) : ∃ word, applyFactorials run [.leaf (.operator operator)] = [.leaf (.operator operator)] ∨
      applyFactorials run [.leaf (.operator operator)] = [.group [.leaf (.operator operator)], .leaf (.name word)] := by
    match run with
    | 0 => exact ⟨"", .inl rfl⟩
    | 1 => exact ⟨_, .inr rfl⟩
    | run + 2 => exact ⟨_, .inr rfl⟩
  induction trees generalizing run with
  | nil =>
    obtain ⟨word, happlied | happlied⟩ := happlied run
    · exact ⟨[], .inl (by rw [factorialsFrom, happlied]; rfl)⟩
    · exact ⟨[], .inr ⟨word, by rw [factorialsFrom, happlied]; rfl⟩⟩
  | cons t rest ih =>
    by_cases hstray : ∃ text, t = .leaf (.stray text)
    · obtain ⟨text, rfl⟩ := hstray
      rw [factorialsFrom]
      split
      · exact ih (run + 1)
      · exact ⟨_, .inl (@factorialsFrom_bottom _ (by simp [EndsAlone]) [.leaf (.operator text)] (by simp) 0 rest)⟩
    · have hplain : factorialsFrom [.leaf (.operator operator)] run (t :: rest) =
          factorialsFrom ([t.factorials] ++ applyFactorials run [.leaf (.operator operator)]) 0 rest := by
        rw [factorialsFrom]
        · rfl
        · rintro text rfl
          exact hstray ⟨text, rfl⟩
      rw [hplain]
      obtain ⟨word, happlied | happlied⟩ := happlied run <;> rw [happlied]
      · exact ⟨_, .inl (factorialsFrom_bottom (by simp [EndsAlone]) (by simp) 0 rest)⟩
      · exact ⟨_, .inr ⟨word, factorialsFrom_bottom (by simp [EndsAlone]) (by simp) 0 rest⟩⟩

/-! ### Products without a sign -/

section Products

variable {v : Vocabulary}

theorem joinArguments_append (front : List Tree) (hfront : ∀ word, front.getLast? ≠ some (.leaf (.name word)))
    (trees : List Tree) : joinArguments v (front ++ trees) = joinArguments v front ++ joinArguments v trees := by
  have hbehind {a : Tree} {rest : List Tree} (h : ∀ word, (a :: rest).getLast? ≠ some (.leaf (.name word))) :
      ∀ word, rest.getLast? ≠ some (.leaf (.name word)) := by
    cases rest with
    | nil => simp
    | cons b more => simpa using h
  fun_induction joinArguments v front with
  | case1 => rfl
  | case2 t =>
    cases trees with
    | nil => rfl
    | cons u rest =>
      rw [List.singleton_append, joinArguments]
      · rfl
      · simp
      · rintro word items more rfl
        exact absurd rfl (hfront word)
  | case3 word items rest hfunction ih =>
    have hjoined := ih (hbehind (hbehind hfront))
    simp [joinArguments, hfunction, hjoined]
  | case4 word items rest hplain ih =>
    have hjoined := ih (hbehind (hbehind hfront))
    simp [joinArguments, hplain, hjoined]
  | case5 t rest hrest hname ih =>
    have hjoined := ih (hbehind hfront)
    cases rest with
    | nil => exact absurd rfl hrest
    | cons u rest =>
      rw [List.cons_append, List.cons_append, joinArguments, ← List.cons_append, hjoined, List.cons_append]
      · simp
      · rintro word items more rfl heq
        obtain ⟨rfl, -⟩ := List.cons.inj heq
        exact hname word items rest rfl rfl

/-- Between two lists of trees, a sign is put if the last of the first and the first of the second are factors. -/
theorem insertProducts_append {front : List Tree} {last first : Tree} (hpoint : Tree.leaf (.operator ".") ∉ front ++ [last])
    (hkept : asFactor last first = last) (trees : List Tree) :
    insertProducts v false (front ++ last :: first :: trees) =
      insertProducts v false (front ++ [last]) ++
        ((if endsFactor v last && beginsFactor first then [.leaf (.operator "*")] else []) ++
          insertProducts v false (first :: trees)) := by
  have hcons {a : Tree} (ha : a ≠ .leaf (.operator ".")) (b : Tree) (rest : List Tree) :
      insertProducts v false (a :: b :: rest) =
        (if endsFactor v a && beginsFactor b then [asFactor a b, .leaf (.operator "*")] else [a]) ++
          insertProducts v false (b :: rest) := by
    rw [insertProducts]
    · simp only [Bool.not_false, Bool.true_and, Bool.false_and]
      split <;> simp
    · intro word heq
      exact absurd heq ha
  induction front with
  | nil =>
    rw [List.nil_append, List.nil_append, hcons (by simpa [eq_comm] using hpoint), hkept]
    split <;> simp [insertProducts]
  | cons a rest ih =>
    have hmore := ih fun hmem => hpoint (List.mem_cons_of_mem a hmem)
    have ha : a ≠ .leaf (.operator ".") := by
      rintro rfl
      exact hpoint List.mem_cons_self
    cases rest with
    | nil =>
      rw [List.cons_append, List.nil_append, List.cons_append, List.nil_append, hcons ha, hcons ha]
      rw [List.nil_append, List.nil_append] at hmore
      rw [hmore, List.append_assoc]
    | cons b rest =>
      rw [List.cons_append, List.cons_append, List.cons_append, List.cons_append, hcons ha, hcons ha]
      rw [List.cons_append, List.cons_append] at hmore
      rw [hmore, List.append_assoc]

end Products

/-! ### Calls without brackets -/

section Calls

variable {v : Vocabulary}

theorem exists_insertCalls (state : CallState) (first : Item) (items : List Item) :
    ∃ more, insertCalls v state (first :: items) = first.tokens ++ more := by
  cases items with
  | nil => exact ⟨_, rfl⟩
  | cons b rest =>
    rw [insertCalls.eq_def]
    dsimp only
    split_ifs <;> first | exact ⟨_, rfl⟩ | exact ⟨_, List.append_assoc _ _ _⟩

/-- Items in which no argument and no power follows a function name are left as they are. -/
theorem insertCalls_append {front : List Item} {first : Item} (hfront : (front ++ [first]).IsChain fun a b =>
    functionName? v a → b.isArgument = false ∧ b.isOperator "**" = false) (items : List Item) :
    insertCalls v {} (front ++ first :: items) = front.flatMap Item.tokens ++ insertCalls v {} (first :: items) := by
  have hcons {a b : Item} (hab : functionName? v a → b.isArgument = false ∧ b.isOperator "**" = false)
      (rest : List Item) : insertCalls v {} (a :: b :: rest) = a.tokens ++ insertCalls v {} (b :: rest) := by
    cases a with
    | unit tokens => simp [insertCalls]
    | token t =>
      cases t with
      | name word =>
        by_cases hfunction : functionName? v (.token (.name word))
        · simp [insertCalls, hab hfunction]
        · simp [insertCalls, hfunction]
      | _ => simp [insertCalls]
  induction front with
  | nil => rfl
  | cons a rest ih =>
    cases rest with
    | nil =>
      have hab := (List.isChain_cons_cons.mp hfront).1
      simpa using hcons hab items
    | cons b rest =>
      obtain ⟨hab, hrest⟩ := List.isChain_cons_cons.mp hfront
      have hmore := ih hrest
      rw [List.cons_append] at hmore
      rw [List.cons_append, List.cons_append, hcons hab, hmore, @List.flatMap_cons _ _ a, List.append_assoc]

end Calls

/-! ### Literals -/

/-- How the last pass over the completed tokens spells one of them. -/
def Token.spelled (exact : Bool) (t : Token) : Token :=
  if t = .operator "^" then .operator "**" else if exact ∧ t = .name "Float" then .name "Rational" else t

theorem map_spelled (exact : Bool) (tokens : List Token) : tokens.map (Token.spelled exact) =
    if exact then exactDecimals (unifyPowers tokens) else unifyPowers tokens := by
  cases exact
  · simp [Token.spelled, unifyPowers]
  · simp only [exactDecimals, unifyPowers, List.map_map, if_true]
    refine List.map_congr_left fun t _ => ?_
    by_cases ht : t = .operator "^"
    · simp [Token.spelled, ht]
    · simp [Token.spelled, ht]

/-- The word that a literal is made by in completed tokens. -/
def Maker.spelled (exact : Bool) (maker : Maker) : String := if exact ∧ maker = .decimal then "Rational" else maker.word

section Literals

variable {v : Vocabulary} {maker : Maker} {text : String} (negative : Bool)

/-- A literal with its sign, as trees. -/
def literalTrees (negative : Bool) (maker : Maker) (text : String) : List Tree :=
  (signTokens negative).map Tree.leaf ++ [.leaf (.literal maker text)]

/-- The trees of a literal with nothing left out. -/
def wholeLiteralTrees (isFunction negative : Bool) (maker : Maker) (text : String) : List Tree :=
  (signTokens negative).map Tree.leaf ++
    if isFunction then [.leaf (.literal maker text)]
    else [.leaf (.name maker.word), .leaf (.operator "*"), .group [.leaf (argumentToken maker text)]]

theorem withProducts_append (front : List Tree) (last : Tree) {first : Tree} {trees others more : List Tree}
    (hpoint : Tree.leaf (.operator ".") ∉ front ++ [last]) (hlast : ∀ word, last ≠ .leaf (.name word)) (hkept : asFactor last first = last)
    (hfront : productsIn v trees = front ++ [last]) (hjoined : joinArguments v (front ++ [last]) = front ++ [last])
    (hothers : joinArguments v (productsIn v others) = first :: more) :
    withProducts v (trees ++ others) = withProducts v trees ++
      ((if endsFactor v last && beginsFactor first then [.leaf (.operator "*")] else []) ++ withProducts v others) := by
  rw [withProducts, withProducts, withProducts, productsIn_append, hfront, joinArguments_append _ (by simpa using hlast),
    hjoined, hothers, List.append_assoc, List.singleton_append, insertProducts_append hpoint hkept]

/-- The sign between a factor and a tree that follows it. -/
def gluing (first : Tree) : List Tree := if beginsFactor first then [.leaf (.operator "*")] else []

theorem withProducts_literalTrees (hmaker : maker = .whole ∨ maker = .decimal) : withProducts v (literalTrees negative maker text) =
    wholeLiteralTrees (v.isFunction maker.word) negative maker text := by
  rcases hmaker with rfl | rfl <;> cases hfunction : v.isFunction _ <;> cases negative <;>
    simp [withProducts, literalTrees, wholeLiteralTrees, signTokens, productsIn, Tree.products, expandLiteral,
      joinArguments, insertProducts, endsFactor, beginsFactor, asFactor, hfunction]

theorem withProducts_literal (hmaker : maker = .whole ∨ maker = .decimal) {others more : List Tree} {first : Tree}
    (hothers : joinArguments v (productsIn v others) = first :: more) :
    withProducts v (literalTrees negative maker text ++ others) =
      wholeLiteralTrees (v.isFunction maker.word) negative maker text ++ (gluing first ++ withProducts v others) := by
  rw [← withProducts_literalTrees negative hmaker]
  cases hfunction : v.isFunction maker.word with
  | true =>
    refine (withProducts_append ((signTokens negative).map Tree.leaf) (.leaf (.literal maker text)) ?_ (by simp) ?_ ?_ ?_
      hothers).trans (by rfl)
    · cases negative <;> simp [signTokens]
    · rcases hmaker with rfl | rfl <;> rfl
    · cases negative <;> simp [literalTrees, signTokens, productsIn, Tree.products, expandLiteral, hfunction]
    · cases negative <;> simp [signTokens, joinArguments]
  | false =>
    refine (withProducts_append ((signTokens negative).map Tree.leaf ++ [.leaf (.name maker.word)])
      (.group [.leaf (argumentToken maker text)]) ?_ (by simp) rfl ?_ ?_ hothers).trans (by rfl)
    · cases negative <;> simp [signTokens]
    · cases negative <;> simp [literalTrees, signTokens, productsIn, Tree.products, expandLiteral, hfunction]
    · cases negative <;> simp [signTokens, joinArguments, hfunction]

theorem withProducts_bracket (hmaker : maker = .whole ∨ maker = .decimal) {others more : List Tree} {first : Tree}
    (hothers : joinArguments v (productsIn v others) = first :: more) :
    withProducts v (.group (literalTrees negative maker text) :: others) =
      .group (wholeLiteralTrees (v.isFunction maker.word) negative maker text) :: (gluing first ++ withProducts v others) := by
  have hgroup : productsIn v [.group (literalTrees negative maker text)] =
      [.group (wholeLiteralTrees (v.isFunction maker.word) negative maker text)] := by
    rw [← withProducts_literalTrees negative hmaker]
    rfl
  have hbracket := withProducts_append (v := v) [] _ (by simp) (by simp) rfl hgroup rfl hothers
  rw [List.singleton_append] at hbracket
  rw [hbracket, withProducts, hgroup]
  rfl

/-- What the search for left-out brackets sees of a literal with nothing left out. -/
def wholeLiteralItems (isFunction negative : Bool) (maker : Maker) (text : String) : List Item :=
  (signTokens negative).map Item.token ++
    if isFunction then [.unit [.name maker.word, .operator "(", argumentToken maker text, .operator ")"]]
    else [.token (.name maker.word), .token (.operator "*"), .token (.operator "("), .token (argumentToken maker text),
      .token (.operator ")")]

theorem itemsIn_wholeLiteralTrees (isFunction : Bool) :
    itemsIn v (wholeLiteralTrees isFunction negative maker text) = wholeLiteralItems isFunction negative maker text := by
  rcases argumentToken_cases maker text with h | h <;> cases isFunction <;> cases negative <;>
    simp [wholeLiteralTrees, wholeLiteralItems, signTokens, itemsIn, Tree.items, insertCalls, Item.tokens, h]

theorem insertCalls_literal (isFunction : Bool) (first : Item) (items : List Item) :
    insertCalls v {} (wholeLiteralItems isFunction negative maker text ++ first :: items) =
      literalTokens isFunction negative maker.word maker text ++ insertCalls v {} (first :: items) := by
  rw [insertCalls_append]
  · cases isFunction <;> cases negative <;> simp [wholeLiteralItems, literalTokens, signTokens, Item.tokens]
  · rcases argumentToken_cases maker text with h | h <;> cases isFunction <;> cases negative <;>
      simp [wholeLiteralItems, signTokens, functionName?, Item.isArgument, Item.isOperator, h]

theorem insertCalls_wholeLiteralItems (isFunction : Bool) :
    insertCalls v {} (wholeLiteralItems isFunction negative maker text) =
      literalTokens isFunction negative maker.word maker text := by
  rcases argumentToken_cases maker text with h | h <;> cases isFunction <;> cases negative <;>
    simp [wholeLiteralItems, literalTokens, signTokens, insertCalls, Item.tokens, Item.isArgument, Item.isOperator, h]

theorem insertCalls_bracket (isFunction : Bool) (first : Item) (items : List Item) :
    insertCalls v {} (itemsIn v [.group (wholeLiteralTrees isFunction negative maker text)] ++ first :: items) =
      .operator "(" :: (literalTokens isFunction negative maker.word maker text ++ .operator ")" ::
        insertCalls v {} (first :: items)) := by
  have hgroup : itemsIn v [.group (wholeLiteralTrees isFunction negative maker text)] = .token (.operator "(") ::
      (literalTokens isFunction negative maker.word maker text).map Item.token ++ [.token (.operator ")")] := by
    rw [itemsIn, itemsIn, List.append_nil, Tree.items, itemsIn_wholeLiteralTrees, insertCalls_wholeLiteralItems]
  rw [hgroup, insertCalls_append]
  · simp [List.flatMap_map, Item.tokens]
  · rcases argumentToken_cases maker text with h | h <;> cases isFunction <;> cases negative <;>
      simp [literalTokens, signTokens, functionName?, Item.isArgument, Item.isOperator, h]

theorem map_spelled_literalTokens (exact isFunction : Bool) (hmaker : maker = .whole ∨ maker = .decimal) :
    (literalTokens isFunction negative maker.word maker text).map (Token.spelled exact) =
      literalTokens isFunction negative (maker.spelled exact) maker text := by
  rcases hmaker with rfl | rfl <;> cases exact <;> cases isFunction <;> cases negative <;>
    simp [literalTokens, signTokens, Token.spelled, Maker.spelled, Maker.word, argumentToken]

end Literals

/-! ### What stands behind a literal -/

section Behind

variable {v : Vocabulary}

theorem exists_insertProducts {t : Tree} (ht : ∀ next, asFactor t next = t) (trees : List Tree) :
    ∃ more, insertProducts v false (t :: trees) = t :: more := by
  cases trees with
  | nil => exact ⟨[], rfl⟩
  | cons b rest =>
    rw [insertProducts.eq_def]
    dsimp only
    split_ifs
    · exact ⟨_, by rw [ht]⟩
    · exact ⟨_, rfl⟩

/-- Behind a literal, trees that begin with a name are multiplied by it. -/
theorem exists_glued (first : Tree) (hfirst : beginsFactor first) {word : String} {item : Item} {items : List Item}
    {named : List Token} (hitem : first.items v = item :: items) (hnamed : item.tokens = .name word :: named)
    (trees : List Tree) : ∃ more, insertCalls v {} (itemsIn v (first :: trees)) = .name word :: more ∧
      insertCalls v {} (itemsIn v (gluing first ++ first :: trees)) = .operator "*" :: .name word :: more := by
  have hitems : itemsIn v (first :: trees) = item :: (items ++ itemsIn v trees) := by simp [itemsIn, hitem]
  have hglued : itemsIn v (gluing first ++ first :: trees) =
      [.token (.operator "*")] ++ item :: (items ++ itemsIn v trees) := by
    rw [itemsIn_append, hitems, gluing, if_pos hfirst]
    rfl
  obtain ⟨more, hmore⟩ := exists_insertCalls (v := v) {} item (items ++ itemsIn v trees)
  refine ⟨named ++ more, ?_, ?_⟩
  · rw [hitems, hmore, hnamed]
    rfl
  · rw [hglued, insertCalls_append, hmore, hnamed]
    · rfl
    · simp [functionName?]

/-- Behind a literal, an operator with its trees begins the same tokens as alone, unless a factorial sign applies to it:
    then the literal is multiplied by what that sign stands for. -/
theorem exists_behind (operator : String) (trees : List Tree) :
    let behind := factorialsFrom [.leaf (.operator operator)] 0 trees
    ∃ first more, joinArguments v (productsIn v behind) = first :: more ∧
      ((gluing first = [] ∧
          ∃ rest, insertCalls v {} (itemsIn v (withProducts v behind)) = .operator operator :: rest) ∨
        ∃ word rest, insertCalls v {} (itemsIn v (withProducts v behind)) = .name word :: rest ∧
          insertCalls v {} (itemsIn v (gluing first ++ withProducts v behind)) =
            .operator "*" :: .name word :: rest) := by
  intro behind
  obtain ⟨more, hbehind | ⟨word, hbehind⟩⟩ := exists_factorialsFrom_operator operator 0 trees
  · have hproducts : joinArguments v (productsIn v behind) =
        .leaf (.operator operator) :: joinArguments v (productsIn v more) := by
      have hone := joinArguments_append (v := v) [.leaf (.operator operator)] (by simp) (productsIn v more)
      rw [show behind = _ from hbehind]
      exact hone
    refine ⟨_, _, hproducts, .inl ⟨rfl, ?_⟩⟩
    obtain ⟨others, hothers⟩ := exists_insertProducts (v := v) (t := .leaf (.operator operator)) (fun _ => rfl)
      (joinArguments v (productsIn v more))
    rw [withProducts, hproducts, hothers]
    exact exists_insertCalls {} (.token (.operator operator)) (itemsIn v others)
  · have hproducts : productsIn v behind =
        .leaf (.name word) :: .group [.leaf (.operator operator)] :: productsIn v more := by
      rw [show behind = _ from hbehind]
      rfl
    cases hfunction : v.isFunction word with
    | true =>
      have hjoined : joinArguments v (productsIn v behind) =
          .applied word [.leaf (.operator operator)] :: joinArguments v (productsIn v more) := by
        rw [hproducts, joinArguments, if_pos hfunction]
      obtain ⟨others, hothers⟩ := exists_insertProducts (v := v) (t := .applied word [.leaf (.operator operator)])
        (fun _ => rfl) (joinArguments v (productsIn v more))
      refine ⟨_, _, hjoined, .inr ⟨word, ?_⟩⟩
      rw [withProducts, hjoined, hothers]
      exact exists_glued (v := v) (.applied word [.leaf (.operator operator)]) rfl rfl rfl others
    | false =>
      have hjoined : joinArguments v (productsIn v behind) =
          .leaf (.name word) :: .group [.leaf (.operator operator)] :: joinArguments v (productsIn v more) := by
        rw [hproducts, joinArguments, hfunction]
        rfl
      obtain ⟨others, hothers⟩ := exists_insertProducts (v := v) (t := .leaf (.name word)) (fun _ => rfl)
        (.group [.leaf (.operator operator)] :: joinArguments v (productsIn v more))
      refine ⟨_, _, hjoined, .inr ⟨word, ?_⟩⟩
      rw [withProducts, hjoined, hothers]
      exact exists_glued (v := v) (.leaf (.name word)) rfl rfl rfl others

end Behind

/-! ### Completed tokens -/

/-- The tokens of trees with nothing left out. -/
def completedFrom (v : Vocabulary) (exact : Bool) (trees : List Tree) : List Token :=
  (insertCalls v {} (itemsIn v (withProducts v (factorialsFrom [] 0 trees)))).map (Token.spelled exact)

section Completed

variable {v : Vocabulary} {exact : Bool} {maker : Maker} {operator : String}

theorem complete_eq {tokens : List Token} (hattached : factorialsAttached none 0 tokens) :
    complete v exact tokens = (groupFrom [] [] tokens).map (completedFrom v exact) := by
  rw [complete, hattached, Tree.ofTokens]
  cases groupFrom [] [] tokens with
  | error e => rfl
  | ok trees =>
    simp only [Except.map, completedFrom, map_spelled]
    rfl

theorem complete_of_not_attached {tokens : List Token} (hattached : factorialsAttached none 0 tokens = false) :
    complete v exact tokens = .error .malformed := by
  rw [complete, hattached]
  rfl

theorem spelled_operator (hoperator : OperatesOn operator) :
    Token.spelled exact (.operator operator) = .operator operator := by
  simp [Token.spelled, hoperator.ne.2.2.2.2]

theorem exists_spelled_name (exact : Bool) (word : String) : ∃ other, Token.spelled exact (.name word) = .name other := by
  by_cases hword : exact ∧ Token.name word = .name "Float"
  · exact ⟨"Rational", by simp only [Token.spelled, if_pos hword, reduceCtorEq, if_false]⟩
  · exact ⟨word, by simp only [Token.spelled, if_neg hword, reduceCtorEq, if_false]⟩

/-- What stands behind a literal comes out the same whether the literal is in brackets or not.  Alone it comes out the
    same as well, unless it is multiplied by the literal without a sign. -/
theorem exists_completedFrom (hmaker : maker = .whole ∨ maker = .decimal) (hoperator : OperatesOn operator) (v : Vocabulary)
    (exact negative : Bool) (text : String) (trees : List Tree) : ∃ more,
      completedFrom v exact (literalTrees negative maker text ++ .leaf (.operator operator) :: trees) =
        literalTokens (v.isFunction maker.word) negative (maker.spelled exact) maker text ++ more ∧
      completedFrom v exact (.group (literalTrees negative maker text) :: .leaf (.operator operator) :: trees) =
        .operator "(" :: (literalTokens (v.isFunction maker.word) negative (maker.spelled exact) maker text ++
          .operator ")" :: more) ∧
      ((∃ rest, more = .operator operator :: rest ∧
          completedFrom v exact (.leaf (.operator operator) :: trees) = more) ∨
        ∃ word rest, more = .operator "*" :: .name word :: rest ∧
          completedFrom v exact (.leaf (.operator operator) :: trees) = .name word :: rest) := by
  have hsigns {bottom : List Tree} (hends : EndsAlone bottom) :
      factorialsFrom (.leaf (.operator operator) :: bottom) 0 trees =
        bottom.reverse ++ factorialsFrom [.leaf (.operator operator)] 0 trees :=
    @factorialsFrom_bottom _ hends [.leaf (.operator operator)] (by simp) 0 trees
  obtain ⟨first, more, hjoined, hcases⟩ := exists_behind (v := v) operator trees
  generalize factorialsFrom [.leaf (.operator operator)] 0 trees = behind at hsigns hjoined hcases
  have halone : factorialsFrom [] 0 (.leaf (.operator operator) :: trees) = behind := @hsigns [] (by simp [EndsAlone])
  have hplain : factorialsFrom [] 0 (literalTrees negative maker text ++ .leaf (.operator operator) :: trees) =
      literalTrees negative maker text ++ behind := by
    have hends : EndsAlone (literalTrees negative maker text).reverse := by simp [EndsAlone, literalTrees]
    refine Eq.trans ?_ ((hsigns hends).trans (by rw [List.reverse_reverse]))
    cases negative <;> rfl
  have hbracket : factorialsFrom [] 0 (.group (literalTrees negative maker text) :: .leaf (.operator operator) :: trees) =
      .group (literalTrees negative maker text) :: behind := by
    have hends : EndsAlone [.group (literalTrees negative maker text)] := by simp [EndsAlone]
    refine Eq.trans ?_ (hsigns hends)
    cases negative <;> rfl
  obtain ⟨item, items, hitems⟩ : ∃ item items, itemsIn v (gluing first ++ withProducts v behind) = item :: items := by
    cases hitems : itemsIn v (gluing first ++ withProducts v behind) with
    | cons item items => exact ⟨item, items, rfl⟩
    | nil =>
      rcases hcases with ⟨hglue, rest, hrest⟩ | ⟨word, rest, -, hrest⟩
      · rw [hglue, List.nil_append] at hitems
        rw [hitems] at hrest
        cases hrest
      · rw [hitems] at hrest
        cases hrest
  have hitemsBracket : itemsIn v (.group (wholeLiteralTrees (v.isFunction maker.word) negative maker text) ::
      (gluing first ++ withProducts v behind)) =
        itemsIn v [.group (wholeLiteralTrees (v.isFunction maker.word) negative maker text)] ++ item :: items := by
    rw [← hitems, ← itemsIn_append]
    rfl
  refine ⟨(insertCalls v {} (item :: items)).map (Token.spelled exact), ?_, ?_, ?_⟩
  · rw [completedFrom, hplain, withProducts_literal negative hmaker hjoined, itemsIn_append, itemsIn_wholeLiteralTrees,
      hitems, insertCalls_literal, List.map_append, map_spelled_literalTokens _ _ _ hmaker]
  · rw [completedFrom, hbracket, withProducts_bracket negative hmaker hjoined, hitemsBracket, insertCalls_bracket,
      List.map_cons, List.map_append, List.map_cons, map_spelled_literalTokens _ _ _ hmaker]
    simp [Token.spelled]
  · rw [completedFrom, halone, ← hitems]
    rcases hcases with ⟨hglue, rest, hrest⟩ | ⟨word, rest, halone, hrest⟩
    · rw [hglue, List.nil_append, hrest, List.map_cons, spelled_operator hoperator]
      exact .inl ⟨_, rfl, rfl⟩
    · obtain ⟨other, hother⟩ := exists_spelled_name exact word
      rw [hrest, halone, List.map_cons, List.map_cons, hother]
      exact .inr ⟨other, _, by simp [Token.spelled], rfl⟩

theorem groupFrom_operator (hoperator : OperatesOn operator) (bottom : List Tree) (tokens : List Token) :
    groupFrom [] bottom (.operator operator :: tokens) =
      (groupFrom [] [] tokens).map (bottom.reverse ++ .leaf (.operator operator) :: ·) := by
  have hleaf : groupFrom [] bottom (.operator operator :: tokens) =
      groupFrom [] (.leaf (.operator operator) :: bottom) tokens := by
    rw [groupFrom]
    · simpa using hoperator.ne.1
    · simpa using hoperator.ne.2.1
  have hbottom := (groupFrom_bottom (.leaf (.operator operator) :: bottom) tokens).1 []
  rw [hleaf]
  simpa using hbottom

/-- A literal, with its sign or in brackets, does not change whether and how the tokens behind it are grouped. -/
theorem exists_completed (hmaker : maker = .whole ∨ maker = .decimal) (hoperator : OperatesOn operator) (v : Vocabulary)
    (exact negative : Bool) (text : String) (tokens : List Token) : ∃ completed : Except TreeError (List Token),
      complete v exact (signTokens negative ++ .literal maker text :: .operator operator :: tokens) =
        completed.map (literalTokens (v.isFunction maker.word) negative (maker.spelled exact) maker text ++ ·) ∧
      complete v exact (.operator "(" :: (signTokens negative ++ .literal maker text :: .operator ")" ::
          .operator operator :: tokens)) =
        completed.map (fun more => .operator "(" :: (literalTokens (v.isFunction maker.word) negative
          (maker.spelled exact) maker text ++ .operator ")" :: more)) ∧
      ((∃ e, completed = .error e ∧ complete v exact (.operator operator :: tokens) = .error e) ∨
        (∃ rest, completed = .ok (.operator operator :: rest) ∧
          complete v exact (.operator operator :: tokens) = .ok (.operator operator :: rest)) ∨
        ∃ word rest, completed = .ok (.operator "*" :: .name word :: rest) ∧
          complete v exact (.operator operator :: tokens) = .ok (.name word :: rest)) := by
  have hplain : groupFrom [] [] (signTokens negative ++ .literal maker text :: .operator operator :: tokens) =
      (groupFrom [] [] tokens).map (literalTrees negative maker text ++ .leaf (.operator operator) :: ·) := by
    have h := groupFrom_operator hoperator (literalTrees negative maker text).reverse tokens
    rw [List.reverse_reverse] at h
    rw [← h]
    cases negative <;> rfl
  have hbracket : groupFrom [] [] (.operator "(" :: (signTokens negative ++ .literal maker text :: .operator ")" ::
      .operator operator :: tokens)) =
        (groupFrom [] [] tokens).map (.group (literalTrees negative maker text) :: .leaf (.operator operator) :: ·) := by
    refine Eq.trans ?_ (groupFrom_operator hoperator [.group (literalTrees negative maker text)] tokens)
    cases negative <;> rfl
  have hattachedPlain : factorialsAttached none 0 (signTokens negative ++ .literal maker text :: .operator operator ::
      tokens) = factorialsAttached none 0 (.operator operator :: tokens) := by
    cases negative <;> rfl
  have hattachedBracket : factorialsAttached none 0 (.operator "(" :: (signTokens negative ++ .literal maker text ::
      .operator ")" :: .operator operator :: tokens)) = factorialsAttached none 0 (.operator operator :: tokens) := by
    cases negative <;> rfl
  cases hattached : factorialsAttached none 0 (.operator operator :: tokens) with
  | false =>
    rw [hattached] at hattachedPlain hattachedBracket
    exact ⟨.error .malformed, complete_of_not_attached hattachedPlain, complete_of_not_attached hattachedBracket,
      .inl ⟨_, rfl, complete_of_not_attached hattached⟩⟩
  | true =>
    rw [hattached] at hattachedPlain hattachedBracket
    rw [complete_eq hattachedPlain, complete_eq hattachedBracket, complete_eq hattached, hplain, hbracket,
      groupFrom_operator hoperator]
    cases groupFrom [] [] tokens with
    | error e => exact ⟨.error e, rfl, rfl, .inl ⟨e, rfl, rfl⟩⟩
    | ok trees =>
      obtain ⟨more, hcompleted, hcompletedBracket, hcases⟩ :=
        exists_completedFrom hmaker hoperator v exact negative text trees
      refine ⟨.ok more, congrArg Except.ok hcompleted, congrArg Except.ok hcompletedBracket, .inr ?_⟩
      rcases hcases with ⟨rest, rfl, halone⟩ | ⟨word, rest, rfl, halone⟩
      · exact .inl ⟨rest, rfl, congrArg Except.ok halone⟩
      · exact .inr ⟨word, rest, rfl, congrArg Except.ok halone⟩

end Completed

end Reckoner.Expression
