import Reckoner.Text.Quoted

/-!
# Options of the command

The arguments of the command name a document and set switches.  A switch has a short and a long name; long names may be
shortened as long as they stay unique, and short switches without a value may be run together.  A value follows its
switch as the next argument or behind an equals sign.
-/

namespace Reckoner.Command

open Reckoner.Text

/-! ### Switches -/

/-- Switches of the command. -/
inductive Switch
  | help | evaluate | format | exportText | output | version | logLevel | logFile
  deriving DecidableEq, Repr

namespace Switch

def names : Switch → List String
  | .help => ["-h", "--help"]
  | .evaluate => ["-e", "--eval"]
  | .format => ["--format"]
  | .exportText => ["--export"]
  | .output => ["-o", "--output"]
  | .version => ["-v", "--version"]
  | .logLevel => ["--log-level"]
  | .logFile => ["--log-file"]

def takesValue : Switch → Bool
  | .help => false
  | .exportText => false
  | .version => false
  | _ => true

/-- The values that a switch is limited to; none if every value will do. -/
def choices : Switch → List String
  | .format => ["json", "human"]
  | .logLevel => ["DEBUG", "INFO", "WARNING", "ERROR"]
  | _ => []

def all : List Switch := [.help, .evaluate, .format, .exportText, .output, .version, .logLevel, .logFile]

def table : List (String × Switch) := all.flatMap fun s => s.names.map fun name => (name, s)

def named? (name : String) : Option Switch := table.lookup name

/-- The names of a switch as they are written in messages. -/
def title (s : Switch) : String := "/".intercalate s.names

end Switch

/-! ### Faults -/

/-- What can be wrong with arguments. -/
inductive UsageFault
  | ambiguous (argument : String) (candidates : List String)
  | missingValue (s : Switch)
  | needlessValue (s : Switch) (value : String)
  | badChoice (s : Switch) (value : String)
  | unrecognized (arguments : List String)
  deriving DecidableEq, Repr

def UsageFault.message : UsageFault → String
  | .ambiguous argument candidates =>
    "ambiguous option: " ++ argument ++ " could match " ++ ", ".intercalate candidates
  | .missingValue s => "argument " ++ s.title ++ ": expected one argument"
  | .needlessValue s value => "argument " ++ s.title ++ ": ignored explicit argument " ++ quoted value
  | .badChoice s value =>
    "argument " ++ s.title ++ ": invalid choice: " ++ quoted value ++ " (choose from "
      ++ ", ".intercalate (s.choices.map quoted) ++ ")"
  | .unrecognized arguments => "unrecognized arguments: " ++ " ".intercalate arguments

/-! ### Reading arguments -/

/-- What an argument is: plain text, the mark after which everything is plain, or a switch with its name and the value
    behind it, if there is one.  A switch that does not exist is kept to be reported. -/
inductive Mark
  | plain
  | separator
  | switch (s : Switch) (name : String) (value : Option String)
  | unknown
  deriving DecidableEq, Repr

/-- Whether an argument is a negative number; a line end may follow. -/
def isNegativeNumber (argument : List Char) : Bool :=
  match argument with
  | '-' :: rest =>
    let body := if rest.getLast? = some '\n' then rest.dropLast else rest
    match body.dropWhile isDigit with
    | [] => !body.isEmpty
    | '.' :: fraction => !fraction.isEmpty && fraction.all isDigit
    | _ => false
  | _ => false

/-- The switches that an argument may stand for: those whose long name it begins, or a short one with its value
    directly behind it. -/
def candidates (argument : String) : List (String × Switch × Option String) :=
  match argument.toList with
  | '-' :: '-' :: _ =>
    let (stem, mark, value) := partition '=' argument.toList
    Switch.table.filterMap fun (name, s) =>
      if stem.isPrefixOf name.toList then
        some (name, s, if mark.isEmpty then none else some (String.ofList value))
      else none
  | '-' :: c :: rest =>
    Switch.table.filterMap fun (name, s) =>
      if name.toList = ['-', c] then some (name, s, some (String.ofList rest))
      else if argument.toList.isPrefixOf name.toList then some (name, s, none)
      else none
  | _ => []

def classify (argument : String) : Except UsageFault Mark :=
  match argument.toList with
  | '-' :: _ :: _ =>
    match Switch.named? argument with
    | some s => .ok (.switch s argument none)
    | none =>
      let (stem, mark, value) := partition '=' argument.toList
      match if mark.isEmpty then none else Switch.named? (String.ofList stem) with
      | some s => .ok (.switch s (String.ofList stem) (some (String.ofList value)))
      | none =>
        match candidates argument with
        | [(name, s, value)] => .ok (.switch s name value)
        | [] =>
          if isNegativeNumber argument.toList || argument.toList.contains ' ' then .ok .plain else .ok .unknown
        | several => .error (.ambiguous argument (several.map (·.1)))
  | _ => .ok .plain

def markAll : List String → Except UsageFault (List (String × Mark))
  | [] => .ok []
  | "--" :: rest => .ok (("--", .separator) :: rest.map fun argument => (argument, .plain))
  | argument :: rest => do
    let m ← classify argument
    return (argument, m) :: (← markAll rest)

/-! ### Options -/

/-- Forms of output. -/
inductive OutputForm
  | human | json
  deriving DecidableEq, Repr

/-- What the arguments ask for. -/
structure Options where
  document : Option String := none
  text : Option String := none
  form : OutputForm := .human
  exports : Bool := false
  output : Option String := none
  showsVersion : Bool := false
  showsHelp : Bool := false
  logLevel : Option String := none
  logFile : Option String := none
  deriving DecidableEq, Repr

namespace Options

def setFlag (o : Options) (s : Switch) : Options :=
  match s with
  | .help => { o with showsHelp := true }
  | .exportText => { o with exports := true }
  | .version => { o with showsVersion := true }
  | _ => o

def setValue (o : Options) (s : Switch) (value : String) : Except UsageFault Options :=
  if !s.choices.isEmpty && !s.choices.contains value then .error (.badChoice s value)
  else
    match s with
    | .evaluate => .ok { o with text := some value }
    | .format => .ok { o with form := if value = "json" then .json else .human }
    | .output => .ok { o with output := some value }
    | .logLevel => .ok { o with logLevel := some value }
    | .logFile => .ok { o with logFile := some value }
    | _ => .ok o

end Options

/-- What remains of a run of short switches: nothing, a switch with its value, or a switch whose value is the next
    argument. -/
inductive Pending
  | nothing
  | value (s : Switch) (text : String)
  | next (s : Switch)
  deriving DecidableEq, Repr

/-- The switches without a value in a run that begins with `s`, and what remains.  `isShort` says whether further
    switches may follow. -/
def unfoldRun (s : Switch) (isShort : Bool) : List Char → Except UsageFault (List Switch × Pending)
  | [] => .ok (if s.takesValue then ([], .next s) else ([s], .nothing))
  | c :: rest =>
    if s.takesValue then .ok ([], .value s (String.ofList (c :: rest)))
    else
      match if isShort then Switch.named? (String.ofList ['-', c]) else none with
      | some next => (unfoldRun next true rest).map fun (flags, pending) => (s :: flags, pending)
      | none => .error (.needlessValue s (String.ofList (c :: rest)))

/-- The switches that one argument sets, and what remains. -/
def unfold (s : Switch) (name : String) (value : Option String) : Except UsageFault (List Switch × Pending) :=
  match value with
  | none => unfoldRun s false []
  | some "" => if s.takesValue then .ok ([], .value s "") else .error (.needlessValue s "")
  | some text => unfoldRun s (name.length = 2) text.toList

/-- The arguments after the last switch: the first plain one is the document, unless there is one already; the others
    are left over. -/
def finish (o : Options) (hasDocument : Bool) (extras : List String) (rest : List (String × Mark)) :
    Options × List String :=
  let afterMark := fun (l : List (String × Mark)) =>
    match l with
    | (_, .separator) :: l => l
    | l => l
  if hasDocument then (o, extras ++ rest.map (·.1))
  else
    match afterMark rest with
    | [] => (o, extras)
    | (argument, _) :: l => ({ o with document := some argument }, extras ++ (afterMark l).map (·.1))

def isSwitch : String × Mark → Bool
  | (_, .switch _ _ _) => true
  | (_, .unknown) => true
  | _ => false

/-- Work through arguments from left to right.  The result holds the arguments that are left over. -/
def work (o : Options) (hasDocument : Bool) (extras : List String) (rest : List (String × Mark)) :
    Except UsageFault (Options × List String) :=
  if !rest.any isSwitch then .ok (finish o hasDocument extras rest)
  else
    match rest with
    | [] => .ok (o, extras)
    | (argument, .unknown) :: rest => work o hasDocument (extras ++ [argument]) rest
    | (_, .switch s name value) :: rest => do
      let (flags, pending) ← unfold s name value
      match pending with
      | .nothing =>
        let o := flags.foldl Options.setFlag o
        if o.showsHelp then return (o, []) else work o hasDocument extras rest
      | .value s text =>
        let o ← (flags.foldl Options.setFlag o).setValue s text
        if o.showsHelp then return (o, []) else work o hasDocument extras rest
      | .next s =>
        match rest with
        | (text, .plain) :: rest =>
          let o ← (flags.foldl Options.setFlag o).setValue s text
          if o.showsHelp then return (o, []) else work o hasDocument extras rest
        | _ => throw (.missingValue s)
    | (argument, _) :: rest =>
      if hasDocument then work o hasDocument (extras ++ [argument]) rest
      else work { o with document := some argument } true extras rest

def Options.ofArguments (arguments : List String) : Except UsageFault Options := do
  let marked ← markAll arguments
  let (o, extras) ← work {} false [] marked
  if extras.isEmpty || o.showsHelp then return o else throw (.unrecognized extras)

end Reckoner.Command
