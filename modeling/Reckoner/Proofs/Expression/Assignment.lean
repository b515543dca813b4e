import Reckoner.Expression.Engine

/-!
# Evaluation and the scope

Everything that the evaluation of a text can do to its scope: nothing when it fails or when the text is no assignment,
and otherwise one binding, of the assigned name to the value on the right.
-/

namespace Reckoner.Expression

variable {settings : Settings} {scope : Scope} {text : List Char}

/-- A text assigns a value to a name, and the value gives an answer. -/
structure Assigns (settings : Settings) (scope : Scope) (text : List Char) (name : String) (v : Value)
    (answer : Answer) : Prop where
  isAssignment : ∃ body isRounded, splitAssignment? text = some (name, body) ∧
    evaluateText settings scope body = .ok (v, isRounded)
  isAllowed : isKeyword name = false
  answers : Answer.ofValue v = .ok answer

/-- What the evaluation of a text can report. -/
inductive Evaluates (settings : Settings) (scope : Scope) (text : List Char) : Report → Prop
  | failed (f : Failure) (roundedText : Option String) : Evaluates settings scope text ⟨.error f, scope, roundedText⟩
  | answered (v : Value) (isRounded : Bool) (answer : Answer) (roundedText : Option String)
      (hplain : splitAssignment? text = none) (hvalue : evaluateText settings scope text = .ok (v, isRounded))
      (hanswer : Answer.ofValue v = .ok answer) : Evaluates settings scope text ⟨.ok answer, scope, roundedText⟩
  | assigned (name : String) (v : Value) (answer : Answer) (roundedText : Option String)
      (h : Assigns settings scope text name v answer) :
      Evaluates settings scope text ⟨.ok answer, scope.assign name v, roundedText⟩

theorem evaluates_evaluateExpression (settings : Settings) (scope : Scope) (text : List Char) :
    Evaluates settings scope text (evaluateExpression settings scope text) := by
  cases hsplit : splitAssignment? text with
  | none =>
    cases hvalue : evaluateText settings scope text with
    | error f =>
      simp only [evaluateExpression, hsplit, hvalue, Option.any_none, Bool.false_eq_true, if_false]
      exact .failed _ _
    | ok result =>
      obtain ⟨v, isRounded⟩ := result
      cases hanswer : Answer.ofValue v with
      | error f =>
        simp only [evaluateExpression, hsplit, hvalue, hanswer, Option.any_none, Bool.false_eq_true, if_false]
        exact .failed _ _
      | ok answer =>
        simp only [evaluateExpression, hsplit, hvalue, hanswer, Option.any_none, Bool.false_eq_true, if_false]
        exact .answered v isRounded answer _ hsplit hvalue hanswer
  | some target =>
    obtain ⟨name, body⟩ := target
    cases hkeyword : isKeyword name with
    | true =>
      simp only [evaluateExpression, hsplit, hkeyword, Option.any_some, if_true]
      exact .failed _ _
    | false =>
      cases hvalue : evaluateText settings scope body with
      | error f =>
        simp only [evaluateExpression, hsplit, hkeyword, hvalue, Option.any_some, Bool.false_eq_true, if_false]
        exact .failed _ _
      | ok result =>
        obtain ⟨v, isRounded⟩ := result
        cases hanswer : Answer.ofValue v with
        | error f =>
          simp only [evaluateExpression, hsplit, hkeyword, hvalue, hanswer, Option.any_some, Bool.false_eq_true,
            if_false]
          exact .failed _ _
        | ok answer =>
          simp only [evaluateExpression, hsplit, hkeyword, hvalue, hanswer, Option.any_some, Bool.false_eq_true,
            if_false]
          exact .assigned name v answer _ ⟨⟨body, isRounded, hsplit, hvalue⟩, hkeyword, hanswer⟩

/-- An evaluation that fails leaves the scope as it was. -/
theorem scope_of_answer_error {f : Failure} (h : (evaluateExpression settings scope text).answer = .error f) :
    (evaluateExpression settings scope text).scope = scope := by
  have hcases := evaluates_evaluateExpression settings scope text
  generalize evaluateExpression settings scope text = report at h hcases
  cases hcases with
  | failed => rfl
  | answered => cases h
  | assigned => cases h

/-- Only a number gives a numeric answer, and it is that number. -/
theorem eq_number_of_answer {v : Value} {t : Algebra.Term} (h : Answer.ofValue v = .ok (.numeric t)) :
    v = .number t := by
  cases v with
  | number s =>
    unfold Answer.ofValue at h
    dsimp only at h
    repeat' split at h
    all_goals simp_all
  | relation names => cases h
  | _ => simp [Answer.ofValue] at h

/-- The answer to a text that is no assignment is the answer that its value gives. -/
theorem answer_eq_ok_iff (hplain : splitAssignment? text = none) {answer : Answer} :
    (evaluateExpression settings scope text).answer = .ok answer ↔
      ∃ v isRounded, evaluateText settings scope text = .ok (v, isRounded) ∧ Answer.ofValue v = .ok answer := by
  simp only [evaluateExpression, hplain, Option.any_none, Bool.false_eq_true, if_false]
  cases evaluateText settings scope text with
  | error f => simp
  | ok result =>
    obtain ⟨v, isRounded⟩ := result
    cases hanswer : Answer.ofValue v <;> simp [hanswer]

theorem scope_of_assigns {name : String} {v : Value} {answer : Answer}
    (h : Assigns settings scope text name v answer) :
    (evaluateExpression settings scope text).scope = scope.assign name v := by
  obtain ⟨body, isRounded, hsplit, hvalue⟩ := h.isAssignment
  simp [evaluateExpression, hsplit, h.isAllowed, hvalue, h.answers]

theorem answer_of_assigns {name : String} {v : Value} {answer : Answer}
    (h : Assigns settings scope text name v answer) :
    (evaluateExpression settings scope text).answer = .ok answer := by
  obtain ⟨body, isRounded, hsplit, hvalue⟩ := h.isAssignment
  simp [evaluateExpression, hsplit, h.isAllowed, hvalue, h.answers]

/-- A text that assigns to a name, and has an answer, has bound the name. -/
theorem exists_assigns_of_answer {name : String} {body : List Char} {answer : Answer}
    (hsplit : splitAssignment? text = some (name, body))
    (h : (evaluateExpression settings scope text).answer = .ok answer) :
    ∃ v, Assigns settings scope text name v answer := by
  have hcases := evaluates_evaluateExpression settings scope text
  generalize evaluateExpression settings scope text = report at h hcases
  cases hcases with
  | failed => cases h
  | answered v isRounded other roundedText hplain =>
    rw [hsplit] at hplain
    cases hplain
  | assigned target v other roundedText hassigns =>
    obtain rfl : other = answer := by simpa using h
    obtain ⟨body', isRounded, hsplit', _⟩ := hassigns.isAssignment
    rw [hsplit, Option.some.injEq, Prod.mk.injEq] at hsplit'
    obtain rfl := hsplit'.1
    exact ⟨v, hassigns⟩

/-- Nothing has a value where even the exponent zero is too large. -/
theorem maxDecimalExponent_of_value {result : Value × Bool} (h : evaluateText settings scope text = .ok result) :
    0 ≤ settings.maxDecimalExponent := by
  apply Int.not_lt.mp
  intro hnegative
  have hrefused : ∃ f, readsExactly settings text = .error f := by
    unfold readsExactly
    split
    · exact ⟨_, rfl⟩
    · dsimp only
      rw [if_pos (by omega)]
      exact ⟨_, rfl⟩
  obtain ⟨f, hf⟩ := hrefused
  simp [evaluateText, hf, bind, Except.bind] at h

theorem find?_of_not_target {other : String} (h : ∀ body, splitAssignment? text ≠ some (other, body)) :
    (evaluateExpression settings scope text).scope.find? other = scope.find? other := by
  have hcases := evaluates_evaluateExpression settings scope text
  generalize evaluateExpression settings scope text = report at hcases
  cases hcases with
  | failed => rfl
  | answered => rfl
  | assigned name v answer roundedText hassigns =>
    obtain ⟨body, isRounded, hsplit, _⟩ := hassigns.isAssignment
    refine Scope.find?_assign_of_ne scope v ?_
    rintro rfl
    exact h body hsplit

end Reckoner.Expression
