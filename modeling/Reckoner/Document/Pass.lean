import Reckoner.Document.LineClass
import Reckoner.Document.LineResult
import Reckoner.Document.Percent
import Reckoner.Document.Validation
import Reckoner.Expression.Engine

/-!
# Passes over a document

A document is evaluated line by line from the top.  Each line sees what the lines above it have left, and a line that
fails leaves the rest of the pass to go on.
-/

namespace Reckoner.Document

open Reckoner.Expression Reckoner.Text

/-! ### Preparation -/

/-- Why a line could not be prepared: it was rejected, or the previous answer has no text. -/
inductive PreparationFault
  | rejected (r : Rejection)
  | previousAnswer (fault : DisplayFault)
  deriving DecidableEq, Repr

/-- A line that begins with an operator continues the previous answer, whose text is put in front. -/
def chain (settings : Settings) (previous : Option Value) (line : List Char) : Except DisplayFault (List Char) :=
  match previous, line with
  | some v, c :: _ =>
    if chainOperators.contains c then
      ((DisplayStyle.ofSettings settings).displayValue v).map fun text => text.toList ++ line
    else .ok line
  | _, _ => .ok line

/-- A trimmed line as an expression, and the state afterwards. -/
def prepare (settings : Settings) (context : Context) (line : List Char) :
    Except PreparationFault (List Char × Context) :=
  match reject? settings line with
  | some r => .error (.rejected r)
  | none =>
    match chain settings context.previous (expandPercent line) with
    | .error fault => .error (.previousAnswer fault)
    | .ok chained =>
      let bound := context.bindAnswer
      let (text, aliases) := bound.aliases.substitute chained
      .ok (text, { bound with aliases := aliases })

/-! ### Lines -/

/-- What happened to a line, for a log. -/
inductive Event
  | roundedEvaluation (text : String)
  | failure (message code line : String)
  | unexpectedFailure
  | noDisplay (line : String)
  deriving DecidableEq, Repr

/-- What a line gives: its result, the state afterwards, and what happened. -/
structure LineReport where
  result : LineResult
  context : Context
  events : List Event

def failureReport (context : Context) (events : List Event) (line : List Char) (f : Failure) : LineReport :=
  match f.code? with
  | some code =>
    ⟨.failed f.message, context, events ++ [.failure f.message code.text (String.ofList line)]⟩
  | none => ⟨.failed f.message, context, events ++ [.unexpectedFailure]⟩

/-- The message shown for a number without a text. -/
def noDisplayMessage : String := "Could not format result"

def answerReport (settings : Settings) (context : Context) (events : List Event) (line : List Char) (answer : Answer) :
    LineReport :=
  match answer with
  | .other _ => ⟨.blank, context, events⟩
  | .numeric t =>
    match (DisplayStyle.ofSettings settings).display t with
    | .ok text => ⟨.display text (toDouble t), { context with previous := some (.number t) }, events⟩
    | .error _ => ⟨.failed noDisplayMessage, context, events ++ [.noDisplay (String.ofList line)]⟩

def evaluateTrimmed (settings : Settings) (context : Context) (line : List Char) : LineReport :=
  if classify context line ≠ .evaluate then ⟨.blank, context, []⟩
  else
    match prepare settings context line with
    | .error (.rejected r) =>
      ⟨.failed r.message, context, [.failure r.message r.code (String.ofList line)]⟩
    | .error (.previousAnswer _) => ⟨.failed "Evaluation failed", context, [.unexpectedFailure]⟩
    | .ok (text, prepared) =>
      let report := evaluateExpression settings prepared.scope text
      let left := { prepared with scope := report.scope }
      let events := report.roundedText.toList.map .roundedEvaluation
      match report.answer with
      | .error f => failureReport left events line f
      | .ok answer => answerReport settings left events line answer

def evaluateLine (settings : Settings) (context : Context) (line : String) : LineReport :=
  evaluateTrimmed settings context (trim line.toList)

/-! ### Documents -/

def evaluateLines (settings : Settings) (context : Context) : List String → List LineReport
  | [] => []
  | line :: rest =>
    let report := evaluateLine settings context line
    report :: evaluateLines settings report.context rest

def pass (settings : Settings) (text : String) : List LineReport := evaluateLines settings .empty (linesOf text)

def calculate (settings : Settings) (text : String) : List LineResult := (pass settings text).map (·.result)

end Reckoner.Document
