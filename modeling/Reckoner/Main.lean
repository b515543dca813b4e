import Reckoner.Command.Run
import Std.Time.DateTime.Timestamp
import Std.Time.DateTime.PlainDateTime

/-!
# The command on the system

The command runs with the files, the input, the outputs and the clock of the system.
-/

namespace Reckoner

open Reckoner.Command Reckoner.Presentation

def faultOf (e : IO.Error) : FileFault :=
  match e with
  | .noFileOrDirectory _ _ _ => .missing
  | .noSuchThing _ _ _ => .missing
  | .inappropriateType _ code text =>
    if code = 20 then .notDirectory else if code = 21 then .isDirectory else .other code.toNat text
  | .permissionDenied _ code text => .other code.toNat text
  | e => .other 5 (toString e)

def attempt {α : Type} (action : IO α) : IO (Except FileFault α) := do
  try
    return .ok (← action)
  catch e =>
    return .error (faultOf e)

def currentTime : IO Std.Time.PlainDateTime := do
  let now ← Std.Time.Timestamp.now
  return .ofWallTime (.ofDuration now.toDurationSinceUnixEpoch)

/-- A number with at least `width` digits. -/
def paddedNumber (width : Nat) (n : Int) : String :=
  let digits := toString n
  "".pushn '0' (width - digits.length) ++ digits

def timeText (t : Std.Time.PlainDateTime) : String :=
  paddedNumber 4 t.year.toInt ++ "-" ++ paddedNumber 2 t.month.val ++ "-" ++ paddedNumber 2 t.day.val ++ "T"
    ++ paddedNumber 2 t.hour.val ++ ":" ++ paddedNumber 2 t.minute.val ++ ":" ++ paddedNumber 2 t.second.val ++ "."
    ++ paddedNumber 3 (t.nanosecond.val / 1000000)

def systemHost : Host IO where
  readInput := do (← IO.getStdin).readBinToEnd
  readFile path := attempt (IO.FS.readBinFile path)
  writeFile path text := attempt (IO.FS.writeFile path text)
  appendFile path text := attempt (IO.FS.withFile path .append fun h => h.putStr text)
  print := IO.print
  printError := IO.eprint
  today := do
    let t ← currentTime
    return ⟨t.year.toInt, t.month.val, t.day.val⟩
  timestamp := do return timeText (← currentTime)

/-- The entries of the environment that override settings. -/
def systemEnvironment : IO Settings.Environment := do
  let names := ["LOWER_EXP", "UPPER_EXP", "DISPLAY_PRECISION", "WORKING_PRECISION", "MAX_LINE_LENGTH",
    "MAX_EXACT_DIGITS", "MAX_DECIMAL_EXPONENT", "GROUP_SEPARATOR", "LOG_LEVEL"]
  let entries ← names.mapM fun name => do
    let full := Settings.entryStem ++ name
    return (← IO.getEnv full).map fun text => (full, text)
  return entries.filterMap id

def exitCode (ending : Ending) : UInt32 :=
  match ending with
  | .exit code => code.toUInt32
  | .unreadableText => 1
  | .impossiblePath => 1
  | .noLogFile _ => 1

end Reckoner

open Reckoner in
def main (arguments : List String) : IO UInt32 := do
  match Settings.ofEnvironment? (← systemEnvironment) with
  | none =>
    IO.eprintln "the environment holds a setting that is no integer"
    return 1
  | some settings => return exitCode (← Command.run systemHost settings arguments)
