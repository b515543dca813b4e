import Reckoner.Number.Double
import Reckoner.Text.Quoted

/-!
# Log records

A record is written on one line: the time, the level, the logger, the message, and then the fields of the record in the
order of their names.  A fault that belongs to the record follows on a line of its own.
-/

namespace Reckoner.Log

open Reckoner.Text Reckoner.Number

/-! ### Levels -/

/-- Levels of severity. -/
inductive Level
  | debug | info | warning | error | critical
  deriving DecidableEq, Repr

namespace Level

def name : Level → String
  | .debug => "DEBUG"
  | .info => "INFO"
  | .warning => "WARNING"
  | .error => "ERROR"
  | .critical => "CRITICAL"

def severity : Level → Nat
  | .debug => 10
  | .info => 20
  | .warning => 30
  | .error => 40
  | .critical => 50

end Level

/-- The severity that a name asks for, in capital or small letters; `WARNING` for an unknown name. -/
def severityNamed (name : String) : Nat :=
  match String.ofList (name.toList.map Char.toUpper) with
  | "NOTSET" => 0
  | "DEBUG" => 10
  | "INFO" => 20
  | "ERROR" => 40
  | "FATAL" => 50
  | "CRITICAL" => 50
  | _ => 30

/-- The severity that is asked for, or else the one that the settings ask for. -/
def severityFor (asked : Option String) (standard : String) : Nat :=
  match asked with
  | some name => severityNamed (if name.isEmpty then standard else name)
  | none => severityNamed standard

/-- Whether records of a level are written when a severity is asked for.  A severity of zero leaves the choice open,
    and then `WARNING` is meant. -/
def isWritten (asked : Nat) (level : Level) : Bool := (if asked = 0 then 30 else asked) ≤ level.severity

/-! ### Fields -/

/-- Values of fields. -/
inductive FieldValue
  | nothing
  | flag (b : Bool)
  | whole (n : Int)
  | number (x : Double)
  | text (s : String)
  | list (items : List FieldValue)
  | table (keys : List String) (values : List FieldValue)
  deriving Repr

instance : Inhabited FieldValue := ⟨.nothing⟩

namespace FieldValue

mutual

def describe : FieldValue → String
  | .nothing => "None"
  | .flag b => if b then "True" else "False"
  | .whole n => toString n
  | .number x => x.toText
  | .text s => quoted s
  | .list items => "[" ++ ", ".intercalate (describeAll items) ++ "]"
  | .table keys values =>
    "\x7b" ++ ", ".intercalate ((keys.zip (describeAll values)).map fun (k, v) => quoted k ++ ": " ++ v) ++ "\x7d"

def describeAll : List FieldValue → List String
  | [] => []
  | v :: rest => describe v :: describeAll rest

end

end FieldValue

/-- Names that are no fields, because they belong to every record. -/
def recordNames : List String :=
  ["name", "msg", "args", "levelname", "levelno", "pathname", "filename", "module", "exc_info", "exc_text",
    "stack_info", "lineno", "funcName", "created", "msecs", "relativeCreated", "thread", "threadName", "processName",
    "process", "message", "asctime"]

/-! ### Records -/

/-- A record without its time. -/
structure Record where
  level : String
  logger : String
  message : String
  fields : List (String × FieldValue) := []
  fault : Option String := none

namespace Record

/-- The fields of a record, in the order of their names. -/
def shownFields (r : Record) : List (String × FieldValue) :=
  (r.fields.filter fun (name, _) => !recordNames.contains name).mergeSort fun (a, _) (b, _) => a ≤ b

def render (time : String) (r : Record) : String :=
  let head := time ++ " [" ++ r.level ++ "] " ++ r.logger ++ ": " ++ r.message
  let tail := r.shownFields.map fun (name, v) => " " ++ name ++ "=" ++ v.describe
  head ++ String.join tail ++
    match r.fault with
    | some fault => "\n" ++ fault
    | none => ""

end Record

def rootName : String := "linecalc"

def loggerName (component : String) : String := rootName ++ "." ++ component

end Reckoner.Log
