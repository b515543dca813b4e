import Reckoner.Command.Host
import Reckoner.Command.Options
import Reckoner.Document.Pass
import Reckoner.Log.Record
import Reckoner.Presentation.Json
import Reckoner.Presentation.Table

/-!
# Running the command

The command reads a document, evaluates it and shows or exports its results.  What happens on the way is logged, on the
error output and, if one is named, in a file.
-/

namespace Reckoner.Command

open Reckoner.Document Reckoner.Log Reckoner.Presentation Reckoner.Text

def commandName : String := "linecalc"

def version : String := "1.0.0"

/-- How the command ends: with an exit code, or because of a fault that it does not handle. -/
inductive Ending
  | exit (code : Nat)
  /-- The document is no text. -/
  | unreadableText
  /-- The document or the export is to be at a path that no file can have. -/
  | impossiblePath
  /-- The log file cannot be opened. -/
  | noLogFile (f : FileFault)
  deriving DecidableEq, Repr

def exitDone : Nat := 0

def exitFailed : Nat := 1

def exitUsage : Nat := 2

def usage : String :=
  "usage: " ++ commandName ++ " [-h] [-e EVAL_TEXT] [--format \x7bjson,human\x7d] [--export] [-o OUTPUT] [-v]\n"
    ++ "                [--log-level \x7bDEBUG,INFO,WARNING,ERROR\x7d] [--log-file LOG_FILE]\n"
    ++ "                [file]\n"

def faultMessage (path : String) (f : FileFault) : String :=
  "[Errno " ++ toString f.code ++ "] " ++ f.text ++ ": " ++ quoted path

def plainLineEnds : List Char → List Char
  | [] => []
  | '\r' :: '\n' :: rest => '\n' :: plainLineEnds rest
  | '\r' :: rest => '\n' :: plainLineEnds rest
  | c :: rest => c :: plainLineEnds rest

/-- The text of a document, if its bytes are text. -/
def decode? (bytes : ByteArray) : Option String :=
  (String.fromUTF8? bytes).map fun s => String.ofList (plainLineEnds s.toList)

/-- In a text given as an argument, a backslash and the letter n end a line. -/
def unescapeLineEnds (text : String) : String := String.ofList (replaceAll ['\\', 'n'] ['\n'] text.toList)

/-! ### Log -/

/-- Which records are written, and the file that they are written to. -/
structure Journal where
  severity : Nat
  file : Option String

def eventRecord (settings : Settings) (e : Event) : Level × Record :=
  match e with
  | .roundedEvaluation text =>
    (.debug, { level := Level.debug.name, logger := loggerName "engine",
               message := "Evaluating " ++ quoted text ++ " at " ++ toString settings.workingDigits ++ " digits" })
  | .failure message code line =>
    (.debug, { level := Level.debug.name, logger := loggerName "evaluator", message := "Line failed: " ++ message,
               fields := [("code", .text code), ("line", .text line)] })
  | .unexpectedFailure =>
    (.error, { level := Level.error.name, logger := loggerName "evaluator",
               message := "Unexpected evaluation error" })
  | .noDisplay line =>
    (.debug, { level := Level.debug.name, logger := loggerName "evaluator",
               message := "Could not format result of " ++ quoted line })

def passRecord (results : List LineResult) : Level × Record :=
  (.debug, { level := Level.debug.name, logger := loggerName "evaluator",
             message := "Evaluated " ++ toString results.length ++ " line(s), "
               ++ toString (results.filter LineResult.isError).length ++ " error(s)" })

def commandRecord (level : Level) (message : String) : Level × Record :=
  (level, { level := level.name, logger := loggerName "cli", message := message })

section

variable {m : Type → Type} [Monad m] (host : Host m) (settings : Settings)

def write (journal : Journal) (entry : Level × Record) : m Unit := do
  if isWritten journal.severity entry.1 then
    let line := entry.2.render (← host.timestamp) ++ "\n"
    host.printError line
    match journal.file with
    | some path => let _ ← host.appendFile path line
    | none => pure ()

def writeAll (journal : Journal) (entries : List (Level × Record)) : m Unit :=
  match entries with
  | [] => pure ()
  | entry :: rest => do
    write host journal entry
    writeAll journal rest

/-! ### Reading -/

/-- Where the document comes from. -/
inductive Source
  | text (s : String)
  | input
  | file (path : String)
  deriving DecidableEq, Repr

def Options.source (o : Options) : Source :=
  match o.text, o.document with
  | some s, _ => .text (unescapeLineEnds s)
  | none, none => .input
  | none, some path => if path = "-" then .input else .file path

/-- The path to the log file, with steps upwards taken away. -/
def logPath (path : String) : String :=
  (if isAbsolute path then "/" else "") ++ "/".intercalate (collapseSteps (pathSteps path))

/-! ### Running -/

def exportTo (journal : Journal) (target exported : String) (count : Nat) : m Ending := do
  let path := tidyPath target
  match ← host.writeFile path exported with
  | .error .impossiblePath => return .impossiblePath
  | .error f =>
    host.printError ("Error: cannot write " ++ target ++ ": " ++ faultMessage path f ++ "\n")
    return .exit exitFailed
  | .ok _ =>
    write host journal (commandRecord .info ("Exported " ++ toString count ++ " line(s) to " ++ target))
    host.print (target ++ "\n")
    return .exit exitDone

/-- Evaluate a document and show or export its results. -/
def present (o : Options) (journal : Journal) (text : String) : m Ending := do
  let reports := pass settings text
  let results := reports.map (·.result)
  writeAll host journal (reports.flatMap fun r => r.events.map (eventRecord settings))
  write host journal (passRecord results)
  let exported := exportText settings text results
  match o.output with
  | some target =>
    if target.isEmpty then
      host.print (if o.exports then exported else shown results)
      return .exit exitDone
    else
      let target ← if target = "auto" then (return exportFileName (← host.today)) else pure target
      exportTo host journal target exported results.length
  | none =>
    host.print (if o.exports then exported else shown results)
    return .exit exitDone
where
  /-- The results in the form that is asked for. -/
  shown (results : List LineResult) : String :=
    match o.form with
    | .json => jsonResults results ++ "\n"
    | .human => table settings text results

def readAndPresent (o : Options) (journal : Journal) : m Ending := do
  match o.source with
  | .text s => present host settings o journal s
  | .input =>
    match decode? (← host.readInput) with
    | some s => present host settings o journal s
    | none => return .unreadableText
  | .file path =>
    let tidy := tidyPath path
    match ← host.readFile tidy with
    | .error .impossiblePath => return .impossiblePath
    | .error f =>
      write host journal (commandRecord .error ("Cannot read document: " ++ faultMessage tidy f))
      host.printError ("Error: cannot read " ++ path ++ ": " ++ faultMessage tidy f ++ "\n")
      return .exit exitFailed
    | .ok bytes =>
      match decode? bytes with
      | some s => present host settings o journal s
      | none => return .unreadableText

def openJournal (o : Options) : m (Except FileFault Journal) := do
  let severity := severityFor o.logLevel settings.logLevel
  match o.logFile with
  | none => return .ok ⟨severity, none⟩
  | some path =>
    if path.isEmpty then return .ok ⟨severity, none⟩
    else
      let file := logPath path
      return (← host.appendFile file "").map fun _ => ⟨severity, some file⟩

def perform (o : Options) : m Ending := do
  match ← openJournal host settings o with
  | .error f => return .noLogFile f
  | .ok journal =>
    if o.showsVersion then
      host.print (commandName ++ " " ++ version ++ "\n")
      return .exit exitDone
    else readAndPresent host settings o journal

def run (arguments : List String) : m Ending := do
  match Options.ofArguments arguments with
  | .error fault =>
    host.printError (usage ++ commandName ++ ": error: " ++ fault.message ++ "\n")
    return .exit exitUsage
  | .ok o =>
    if o.showsHelp then
      host.print usage
      return .exit exitDone
    else perform host settings o

end

end Reckoner.Command
