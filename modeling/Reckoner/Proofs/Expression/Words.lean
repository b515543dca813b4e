import Reckoner.Expression.Engine
import Reckoner.Proofs.Expression.Mentions

/-!
# Evaluation depends on the words that are looked up

Two scopes that agree on the names in a text, and on the words that the reader puts in itself, give the same answer.
The words of the reader cannot be left out: a variable with the name of any of them changes the answers of texts that
do not mention it.
-/

namespace Reckoner.Expression

open Reckoner.Algebra Reckoner.Text

/-- Two scopes bind some words alike. -/
def Scope.Agree (P : String → Prop) (s s' : Scope) : Prop := ∀ word, P word → s.find? word = s'.find? word

section Agreement

variable {P : String → Prop} {s s' : Scope}

/-! ### Names -/

theorem binds_congr (h : s.Agree P s') {word : String} (hword : P word) : s.binds word = s'.binds word := by
  rw [Scope.binds, Scope.binds, h word hword]

theorem nameOutcome_congr (h : s.Agree P s') {word : String} (hword : P word) :
    nameOutcome s word = nameOutcome s' word := by
  rw [nameOutcome, nameOutcome, nameValue?, nameValue?, h word hword]

theorem ofScope_agree (h : s.Agree P s') : (Vocabulary.ofScope s).Agree P (Vocabulary.ofScope s') where
  hasValue word hword := by simp only [Vocabulary.ofScope, binds_congr h hword]
  isReserved word _ := rfl
  isFunction word hword := by simp only [Vocabulary.ofScope, isFunctionName, h word hword]

/-! ### Values -/

mutual

theorem evaluate_congr (bits : Nat) (h : s.Agree P s') :
    ∀ f : Formula, f.Within P → f.evaluate bits s = f.evaluate bits s'
  | .name _, hf => nameOutcome_congr h hf
  | .numeral _, _ => rfl
  | .quotation _, _ => rfl
  | .constant _, _ => rfl
  | .unary _ operand, hf => by simp only [Formula.evaluate, evaluate_congr bits h operand hf]
  | .binary _ left right, hf => by
    simp only [Formula.evaluate, evaluate_congr bits h left hf.1, evaluate_congr bits h right hf.2]
  | .comparison first _ others, hf => by
    simp only [Formula.evaluate, evaluate_congr bits h first hf.1, evaluateChain_congr bits h others hf.2]
  | .junction isConjunction operands, hf => evaluateJunction_congr bits h isConjunction operands hf
  | .negation operand, hf => by simp only [Formula.evaluate, evaluate_congr bits h operand hf]
  | .conditional test yes no, hf => by
    simp only [Formula.evaluate, evaluate_congr bits h test hf.1, evaluate_congr bits h yes hf.2.1,
      evaluate_congr bits h no hf.2.2]
  | .call f _ arguments, hf => by
    simp only [Formula.evaluate, evaluate_congr bits h f hf.1, evaluateAll_congr bits h arguments hf.2]
  | .subscript object index, hf => by
    simp only [Formula.evaluate, evaluate_congr bits h object hf.1, evaluate_congr bits h index hf.2]
  | .member object _, hf => by simp only [Formula.evaluate, evaluate_congr bits h object hf]
  | .binding _ value, hf => evaluate_congr bits h value hf
  | .tuple items, hf => by simp only [Formula.evaluate, evaluateAll_congr bits h items hf]
  | .list items, hf => by simp only [Formula.evaluate, evaluateAll_congr bits h items hf]
  | .set items, hf => by simp only [Formula.evaluate, evaluateAll_congr bits h items hf]
  | .dictionary keys values, hf => by
    simp only [Formula.evaluate, evaluateAll_congr bits h keys hf.1, evaluateAll_congr bits h values hf.2]

theorem evaluateAll_congr (bits : Nat) (h : s.Agree P s') :
    ∀ items : List Formula, Formula.AllWithin P items →
      Formula.evaluateAll bits s items = Formula.evaluateAll bits s' items
  | [], _ => rfl
  | f :: rest, hitems => by
    simp only [Formula.evaluateAll, evaluate_congr bits h f hitems.1, evaluateAll_congr bits h rest hitems.2]

theorem evaluateChain_congr (bits : Nat) (h : s.Agree P s') :
    ∀ others : List Formula, Formula.AllWithin P others → ∀ (v : Value) (signs : List Comparator),
      Formula.evaluateChain bits s v signs others = Formula.evaluateChain bits s' v signs others
  | [], _, _, signs => by cases signs <;> rfl
  | _ :: _, _, _, [] => rfl
  | f :: rest, hothers, _, _ :: _ => by
    simp only [Formula.evaluateChain, evaluate_congr bits h f hothers.1, evaluateChain_congr bits h rest hothers.2]

theorem evaluateJunction_congr (bits : Nat) (h : s.Agree P s') (isConjunction : Bool) :
    ∀ operands : List Formula, Formula.AllWithin P operands →
      Formula.evaluateJunction bits s isConjunction operands = Formula.evaluateJunction bits s' isConjunction operands
  | [], _ => rfl
  | f :: rest, hoperands => by
    simp only [Formula.evaluateJunction, evaluate_congr bits h f hoperands.1,
      evaluateJunction_congr bits h isConjunction rest hoperands.2]

end

/-! ### Sketches -/

theorem carryOut_congr (settings : Settings) (h : s.Agree P s') (op : BinaryOperator) {left right : Formula}
    (hleft : left.Within P) (hright : right.Within P) :
    Formula.carryOut settings s op left right = Formula.carryOut settings s' op left right := by
  rw [Formula.carryOut, Formula.carryOut, evaluate_congr _ h left hleft, evaluate_congr _ h right hright]

mutual

theorem draft_congr (settings : Settings) (h : s.Agree P s') (hor : P "Or") :
    ∀ f : Formula, f.Within P → f.draft settings s = f.draft settings s'
  | .name _, hf => by simp only [Formula.draft, nameOutcome_congr h hf]
  | .numeral _, _ => rfl
  | .quotation _, _ => rfl
  | .constant _, _ => rfl
  | .unary _ operand, hf => by simp only [Formula.draft, draft_congr settings h hor operand hf]
  | .binary _ left right, hf => by
    simp only [Formula.draft, binds_congr h hor, draft_congr settings h hor left hf.1,
      draft_congr settings h hor right hf.2, carryOut_congr settings h _ hf.1 hf.2]
  | .comparison first _ others, hf => by
    simp only [Formula.draft, draft_congr settings h hor first hf.1, draftChain_congr settings h hor others hf.2]
  | .junction isConjunction operands, hf => by
    simp only [Formula.draft, draftJunction_congr settings h hor isConjunction operands hf]
  | .negation operand, hf => by simp only [Formula.draft, draft_congr settings h hor operand hf]
  | .conditional test yes no, hf => by
    simp only [Formula.draft, draft_congr settings h hor test hf.1, draft_congr settings h hor yes hf.2.1,
      draft_congr settings h hor no hf.2.2]
  | .call f _ arguments, hf => by
    simp only [Formula.draft, draft_congr settings h hor f hf.1, draftAll_congr settings h hor arguments hf.2]
  | .subscript object index, hf => by
    simp only [Formula.draft, draft_congr settings h hor object hf.1, draft_congr settings h hor index hf.2]
  | .member object _, hf => by simp only [Formula.draft, draft_congr settings h hor object hf]
  | .binding _ value, hf => by simp only [Formula.draft, draft_congr settings h hor value hf]
  | .tuple items, hf => by simp only [Formula.draft, draftAll_congr settings h hor items hf]
  | .list items, hf => by simp only [Formula.draft, draftAll_congr settings h hor items hf]
  | .set items, hf => by simp only [Formula.draft, draftAll_congr settings h hor items hf]
  | .dictionary keys values, hf => by
    simp only [Formula.draft, draftAll_congr settings h hor keys hf.1, draftAll_congr settings h hor values hf.2]

theorem draftAll_congr (settings : Settings) (h : s.Agree P s') (hor : P "Or") :
    ∀ items : List Formula, Formula.AllWithin P items →
      Formula.draftAll settings s items = Formula.draftAll settings s' items
  | [], _ => rfl
  | f :: rest, hitems => by
    simp only [Formula.draftAll, draft_congr settings h hor f hitems.1, draftAll_congr settings h hor rest hitems.2]

theorem draftChain_congr (settings : Settings) (h : s.Agree P s') (hor : P "Or") :
    ∀ others : List Formula, Formula.AllWithin P others → ∀ (first : Sketch) (signs : List Comparator),
      Formula.draftChain settings s first signs others = Formula.draftChain settings s' first signs others
  | [], _, _, signs => by cases signs <;> rfl
  | _ :: _, _, _, [] => rfl
  | f :: rest, hothers, _, _ :: _ => by
    simp only [Formula.draftChain, draft_congr settings h hor f hothers.1,
      draftChain_congr settings h hor rest hothers.2]

theorem draftJunction_congr (settings : Settings) (h : s.Agree P s') (hor : P "Or") (isConjunction : Bool) :
    ∀ operands : List Formula, Formula.AllWithin P operands →
      Formula.draftJunction settings s isConjunction operands =
        Formula.draftJunction settings s' isConjunction operands
  | [], _ => rfl
  | f :: rest, hoperands => by
    simp only [Formula.draftJunction, draft_congr settings h hor f hoperands.1,
      draftJunction_congr settings h hor isConjunction rest hoperands.2]

end

theorem sketch_congr (settings : Settings) (h : s.Agree P s') (hor : P "Or") {f : Formula} (hf : f.Within P) :
    f.sketch settings s = f.sketch settings s' := by
  rw [Formula.sketch, Formula.sketch, draft_congr settings h hor f hf]

/-! ### Texts -/

/-- The names among the tokens of a text. -/
def typedNames (text : List Char) : List String :=
  ((scan (trim text)).getD []).filterMap fun
    | .name word => some word
    | _ => none

theorem scanned_within {text : List Char} (h : ∀ word ∈ typedNames text, P word) :
    ∀ tokens ∈ scan (trim text), ∀ t ∈ tokens, t.Within P := by
  intro tokens htokens t ht
  cases t with
  | name word => 
    have hword : word ∈ typedNames text := by
      rw [typedNames, Option.mem_def.mp htokens]
      exact List.mem_filterMap.mpr ⟨.name word, ht, rfl⟩
    exact h word hword
  | _ => trivial

theorem readProgram_congr (h : s.Agree P s') (hreader : ∀ word ∈ readerWords, P word) (exact : Bool)
    {text : List Char} (htext : ∀ tokens ∈ scan text, ∀ t ∈ tokens, t.Within P) :
    readProgram s exact text = readProgram s' exact text := by
  have hagree := ofScope_agree h
  unfold readProgram
  cases hscan : scan text with
  | none => rfl
  | some tokens =>
    have htokens := htext tokens hscan
    dsimp only [Option.bind_some]
    rw [resolve_congr hagree hreader htokens]
    cases hresolve : resolve (.ofScope s') tokens with
    | none => rfl
    | some resolved => 
      dsimp only
      rw [complete_congr hagree hreader exact (resolve_within hreader htokens hresolve)]

theorem readProgram_within (hreader : ∀ word ∈ readerWords, P word) {exact : Bool} {text : List Char}
    (htext : ∀ tokens ∈ scan text, ∀ t ∈ tokens, t.Within P) {program : Program}
    (h : readProgram s exact text = .ok program) : program.Within P := by
  unfold readProgram at h
  dsimp only at h
  split at h
  · cases h
  · rename_i resolved hresolved
    obtain ⟨tokens, hscan, hresolve⟩ := Option.bind_eq_some_iff.mp hresolved
    split at h
    · cases h
    · cases h
    · rename_i completed hcomplete
      have hcompleted := complete_within hreader (resolve_within hreader (htext tokens hscan) hresolve) hcomplete
      split at h
      · cases h
      · rename_i hread
        cases h
        exact Program.read?_within hcompleted _ hread

theorem evaluateFormula_congr (settings : Settings) (h : s.Agree P s') (hor : P "Or") {f : Formula}
    (hf : f.Within P) : evaluateFormula settings s f = evaluateFormula settings s' f := by
  simp only [evaluateFormula, sketch_congr settings h hor hf, evaluate_congr _ h f hf]

theorem evaluateText_congr (settings : Settings) (h : s.Agree P s') (hreader : ∀ word ∈ readerWords, P word)
    {text : List Char} (htext : ∀ word ∈ typedNames text, P word) :
    evaluateText settings s text = evaluateText settings s' text := by
  have hscanned := scanned_within htext
  unfold evaluateText
  cases readsExactly settings text with
  | error failure => rfl
  | ok exact =>
    simp only [bind, Except.bind, readProgram_congr h hreader exact hscanned]
    cases hprogram : readProgram s' exact (trim text) with
    | error failure => rfl
    | ok program =>
      have hwithin := readProgram_within hreader hscanned hprogram
      cases program with
      | empty => rfl
      | expression f => simp only [evaluateFormula_congr settings h (hreader "Or" (by decide)) hwithin]
      | statements value =>
        cases value with
        | none => rfl
        | some f => simp only [sketch_congr settings h (hreader "Or" (by decide)) (hwithin f rfl)]

theorem answer_congr (settings : Settings) (h : s.Agree P s') (hreader : ∀ word ∈ readerWords, P word)
    {text : List Char} (hassignment : splitAssignment? text = none) (htext : ∀ word ∈ typedNames text, P word) :
    (evaluateExpression settings s text).answer = (evaluateExpression settings s' text).answer := by
  have hvalue := evaluateText_congr settings h hreader htext
  simp only [evaluateExpression, hassignment, Option.any_none, Bool.false_eq_true, if_false, hvalue]
  cases evaluateText settings s' text with
  | error failure => rfl
  | ok value =>
    obtain ⟨v, isRounded⟩ := value
    dsimp only
    cases Answer.ofValue v <;> rfl

end Agreement

/-! ### The words that answers depend on -/

/-- All variables of the scope are numbers. -/
def Scope.IsNumeric (s : Scope) : Prop := ∀ word v, s.find? word = some v → ∃ t, v = .number t

/-- The answer of a text without an assignment is the same in any two scopes of numbers that agree on the names in the
    text and on some words. -/
def AnswersDependOn (words : List String) : Prop :=
  ∀ (settings : Settings) (text : List Char) (s s' : Scope), splitAssignment? text = none →
    s.IsNumeric → s'.IsNumeric → s.Agree (· ∈ typedNames text) s' → s.Agree (· ∈ words) s' →
      (evaluateExpression settings s text).answer = (evaluateExpression settings s' text).answer

/-- The scope of one variable, whose value is five. -/
def fiveAs (word : String) : Scope := [(word, .number (.rational 5))]

theorem isNumeric_nil : Scope.IsNumeric [] := fun _ _ h => nomatch h

theorem find?_fiveAs (word other : String) :
    (fiveAs word).find? other = if other = word then some (.number (.rational 5)) else none := by
  rw [Scope.find?, fiveAs, List.lookup_cons, List.lookup_nil]
  by_cases h : other = word
  · simp [h]
  · simp [h, beq_false_of_ne h]

theorem isNumeric_fiveAs (word : String) : (fiveAs word).IsNumeric := by
  intro other v h
  rw [find?_fiveAs] at h
  split at h
  · exact ⟨_, (Option.some.inj h).symm⟩
  · cases h

theorem agree_fiveAs {P : String → Prop} {word : String} (h : ¬ P word) : (fiveAs word).Agree P [] := by
  intro other hother
  have hne : other ≠ word := by
    rintro rfl
    exact h hother
  rw [find?_fiveAs, if_neg hne]
  rfl

/-- The rational number that an answer is, if it is one. -/
def Answer.rational? : Answer → Option Rat
  | .numeric t => t.rational?
  | .other _ => none

/-- The answer of a text as a rational number, or its failure. -/
def rationalAnswer (s : Scope) (text : List Char) : Except Failure (Option Rat) :=
  (evaluateExpression .standard s text).answer.map Answer.rational?

/-- For every word of the reader, a text that does not mention it and shows its value. -/
def revealingTexts : List (String × String) :=
  [("Integer", "1"), ("Float", "1.5"), ("Rational", "1.5"), ("Symbol", "x"), ("Function", "f(1)"), ("factorial", "5!"),
    ("factorial2", "5!!"), ("I", "2j"), ("Lambda", "lambda: 3"), ("Or", "x | 1")]

theorem revealingTexts_differ : ∀ entry ∈ revealingTexts, splitAssignment? entry.2.toList = none ∧
    entry.1 ∉ typedNames entry.2.toList ∧
      rationalAnswer (fiveAs entry.1) entry.2.toList ≠ rationalAnswer [] entry.2.toList := by
  decide +kernel

/-- The answers depend on the names in a text and on the ten words of the reader, of which none can be left out. -/
theorem answersDependOn_iff (words : List String) : AnswersDependOn words ↔ readerWords ⊆ words := by
  constructor
  · intro h word hword
    by_contra hnot
    have hentries : ∀ word ∈ readerWords, word ∈ revealingTexts.map Prod.fst := by decide
    obtain ⟨⟨_, text⟩, hmem, rfl⟩ := List.mem_map.mp (hentries word hword)
    obtain ⟨hassignment, htyped, hdiffer⟩ := revealingTexts_differ _ hmem
    have hsame := h .standard text.toList (fiveAs _) [] hassignment (isNumeric_fiveAs _) isNumeric_nil
      (agree_fiveAs htyped) (agree_fiveAs hnot)
    exact hdiffer (congrArg (Except.map Answer.rational?) hsame)
  · intro h settings text s s' hassignment _ _ htyped hwords
    have hagree : s.Agree (fun word => word ∈ typedNames text ∨ word ∈ words) s' :=
      fun word hword => hword.elim (htyped word) (hwords word)
    exact answer_congr settings hagree (fun word hword => .inr (h hword)) hassignment fun word => .inl

/-- A variable with the name of the maker of whole numbers turns the three and the four of a sum into products. -/
theorem sum_without_names_is_disturbed :
    ¬ AnswersDependOn [] ∧ typedNames "3 + 4".toList = [] ∧
      rationalAnswer [] "3 + 4".toList = .ok (some 7) ∧
      rationalAnswer (fiveAs "Integer") "3 + 4".toList = .ok (some 35) := by
  have hnames : typedNames "3 + 4".toList = [] := by decide +kernel
  have hplain : rationalAnswer [] "3 + 4".toList = .ok (some 7) := by decide +kernel
  have hdisturbed : rationalAnswer (fiveAs "Integer") "3 + 4".toList = .ok (some 35) := by decide +kernel
  refine ⟨fun h => ?_, hnames, hplain, hdisturbed⟩
  have hfree : "Integer" ∉ typedNames "3 + 4".toList := by
    rw [hnames]
    exact List.not_mem_nil
  have hsame := h .standard "3 + 4".toList (fiveAs "Integer") [] (by decide +kernel) (isNumeric_fiveAs _) isNumeric_nil
    (agree_fiveAs hfree) (agree_fiveAs List.not_mem_nil)
  have hrational := congrArg (Except.map Answer.rational?) hsame
  rw [← rationalAnswer, ← rationalAnswer, hplain, hdisturbed] at hrational
  exact absurd hrational (by decide)

end Reckoner.Expression
