import Mathlib.Data.List.Chain
import Reckoner.Proofs.Expression.Arithmetic

/-!
# Neighbours in a writing

Whatever tokens its literals and operators are spelled with, a writing alternates: an operand is followed by an
operator or a closing bracket, and an operator or an opening bracket by an operand.  Every fact about neighbouring
tokens of a writing is an instance of `isChain_spell`.
-/

namespace Reckoner.Expression

namespace Token

/-- Signs of operators between operands; the minus in front of an operand is one of them. -/
def isSign : Token → Bool
  | operator text => ["+", "-", "*", "/", "^", "**"].contains text
  | _ => false

def beginsOperand : Token → Bool
  | name _ => true
  | numeral _ => true
  | literal _ _ => true
  | operator text => text = "(" || text = "-"
  | _ => false

def endsOperand : Token → Bool
  | name _ => true
  | numeral _ => true
  | literal _ _ => true
  | operator text => text = ")"
  | _ => false

/-- Tokens after which an operand has to begin. -/
def asksOperand (t : Token) : Bool := t.isSign || t = operator "("

/-- Tokens that can follow an operand. -/
def followsOperand (t : Token) : Bool := t.isSign || t = operator ")"

end Token

/-- Literals are spelled as operands, and operators as signs. -/
structure IsSpelling (ofLiteral : Literal → List Token) (ofOperator : ArithmeticOperator → String) : Prop where
  begins : ∀ l, ∃ t rest, ofLiteral l = t :: rest ∧ t.beginsOperand
  ends : ∀ l, ∃ front t, ofLiteral l = front ++ [t] ∧ t.endsOperand
  signs : ∀ op, (Token.operator (ofOperator op)).isSign

namespace Writing

variable {ofLiteral : Literal → List Token} {ofOperator : ArithmeticOperator → String}

theorem spell_begins (h : IsSpelling ofLiteral ofOperator) (w : Writing) :
    ∃ t rest, w.spell ofLiteral ofOperator = t :: rest ∧ t.beginsOperand := by
  induction w with
  | literal l => exact h.begins l
  | name word => exact ⟨.name word, [], rfl, rfl⟩
  | negation operand => exact ⟨.operator "-", _, rfl, rfl⟩
  | operation op left right ihl _ =>
    obtain ⟨t, rest, hleft, ht⟩ := ihl
    exact ⟨t, rest ++ .operator (ofOperator op) :: right.spell ofLiteral ofOperator, by simp [spell, hleft], ht⟩
  | bracket inside => exact ⟨.operator "(", _, rfl, rfl⟩

theorem spell_ends (h : IsSpelling ofLiteral ofOperator) (w : Writing) :
    ∃ front t, w.spell ofLiteral ofOperator = front ++ [t] ∧ t.endsOperand := by
  induction w with
  | literal l => exact h.ends l
  | name word => exact ⟨[], .name word, rfl, rfl⟩
  | negation operand ih =>
    obtain ⟨front, t, hoperand, ht⟩ := ih
    exact ⟨.operator "-" :: front, t, by simp [spell, hoperand], ht⟩
  | operation op left right _ ihr =>
    obtain ⟨front, t, hright, ht⟩ := ihr
    exact ⟨left.spell ofLiteral ofOperator ++ .operator (ofOperator op) :: front, t, by simp [spell, hright], ht⟩
  | bracket inside => exact ⟨.operator "(" :: inside.spell ofLiteral ofOperator, .operator ")", rfl, rfl⟩

theorem beginsOperand_head? (h : IsSpelling ofLiteral ofOperator) {w : Writing} {t : Token}
    (ht : t ∈ (w.spell ofLiteral ofOperator).head?) : t.beginsOperand := by
  obtain ⟨first, rest, hw, hfirst⟩ := w.spell_begins h
  rw [hw] at ht
  obtain rfl : first = t := by simpa using ht
  exact hfirst

theorem endsOperand_getLast? (h : IsSpelling ofLiteral ofOperator) {w : Writing} {t : Token}
    (ht : t ∈ (w.spell ofLiteral ofOperator).getLast?) : t.endsOperand := by
  obtain ⟨front, last, hw, hlast⟩ := w.spell_ends h
  rw [hw] at ht
  obtain rfl : last = t := by simpa using ht
  exact hlast

/-- A relation that holds inside the literals, between a sign and the operand behind it, and between an operand and
    what follows it, holds between all neighbours. -/
theorem isChain_spell {R : Token → Token → Prop} (h : IsSpelling ofLiteral ofOperator)
    (hliteral : ∀ l, (ofLiteral l).IsChain R)
    (hasks : ∀ a b : Token, a.asksOperand → b.beginsOperand → R a b)
    (hfollows : ∀ a b : Token, a.endsOperand → b.followsOperand → R a b) (w : Writing) :
    (w.spell ofLiteral ofOperator).IsChain R := by
  induction w with
  | literal l => exact hliteral l
  | name word => exact List.isChain_singleton _
  | negation operand ih =>
    rw [spell, List.isChain_cons]
    exact ⟨fun t ht => hasks _ t rfl (beginsOperand_head? h ht), ih⟩
  | operation op left right ihl ihr =>
    have hsign := h.signs op
    rw [spell, List.isChain_append, List.isChain_cons]
    refine ⟨ihl, ⟨fun t ht => hasks _ t ?_ (beginsOperand_head? h ht), ihr⟩, ?_⟩
    · simp [Token.asksOperand, hsign]
    · intro a ha b hb
      obtain rfl : .operator (ofOperator op) = b := by simpa using hb
      exact hfollows a _ (endsOperand_getLast? h ha) (by simp [Token.followsOperand, hsign])
  | bracket inside ih =>
    rw [spell, List.cons_append, List.isChain_cons, List.isChain_append]
    obtain ⟨first, rest, hinside, hfirst⟩ := inside.spell_begins h
    refine ⟨?_, ih, List.isChain_singleton _, ?_⟩
    · intro t ht
      obtain rfl : first = t := by simpa [hinside] using ht
      exact hasks _ first rfl hfirst
    · intro a ha b hb
      obtain rfl : .operator ")" = b := by simpa using hb
      exact hfollows a _ (endsOperand_getLast? h ha) rfl

/-- A property of tokens that holds of brackets, signs and the minus, of the names of a writing and inside its literals
    holds of all its tokens. -/
theorem forall_mem_spell {P : Token → Prop} (w : Writing) (hliteral : ∀ l ∈ w.tree.literals, ∀ t ∈ ofLiteral l, P t)
    (hname : ∀ word ∈ w.tree.names, P (.name word)) (hopen : P (.operator "(")) (hclose : P (.operator ")"))
    (hminus : P (.operator "-")) (hsign : ∀ op, P (.operator (ofOperator op))) :
    ∀ t ∈ w.spell ofLiteral ofOperator, P t := by
  induction w with
  | literal l => exact hliteral l (by simp [tree, Arithmetic.literals])
  | name word =>
    intro t ht
    obtain rfl : t = .name word := by simpa [spell] using ht
    exact hname word (by simp [tree, Arithmetic.names])
  | negation operand ih =>
    intro t ht
    rcases List.mem_cons.mp ht with rfl | ht
    · exact hminus
    · exact ih hliteral hname t ht
  | operation op left right ihl ihr =>
    intro t ht
    simp only [spell, List.mem_append, List.mem_cons] at ht
    simp only [tree, Arithmetic.literals, Arithmetic.names, List.mem_append] at hliteral hname
    rcases ht with ht | rfl | ht
    · exact ihl (fun l hl => hliteral l (.inl hl)) (fun word hword => hname word (.inl hword)) t ht
    · exact hsign op
    · exact ihr (fun l hl => hliteral l (.inr hl)) (fun word hword => hname word (.inr hword)) t ht
  | bracket inside ih =>
    intro t ht
    simp only [spell, List.cons_append, List.mem_cons, List.mem_append, List.not_mem_nil, or_false] at ht
    rcases ht with rfl | ht | rfl
    · exact hopen
    · exact ih hliteral hname t ht
    · exact hclose

theorem mem_names_of_mem_tokens {w : Writing} {word : String} (h : Token.name word ∈ w.tokens) :
    word ∈ w.tree.names := by
  have hall : ∀ t ∈ w.tokens, ∀ word, t = .name word → word ∈ w.tree.names := by
    refine w.forall_mem_spell ?_ ?_ ?_ ?_ ?_ ?_
    · intro l _ t ht word heq
      subst heq
      simp at ht
    · intro name hname word heq
      cases heq
      exact hname
    all_goals
      intros
      contradiction
  exact hall _ h word rfl

end Writing

end Reckoner.Expression
