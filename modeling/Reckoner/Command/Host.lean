import Reckoner.Command.Files
import Reckoner.Presentation.Export

/-!
# Hosts

What the command needs from the place where it runs: files, an input, two outputs and a clock.  A host may be the real
system or a directory held in memory.
-/

namespace Reckoner.Command

open Reckoner.Presentation

/-- The abilities of a host. -/
structure Host (m : Type → Type) where
  readInput : m ByteArray
  readFile : String → m (Except FileFault ByteArray)
  writeFile : String → String → m (Except FileFault Unit)
  appendFile : String → String → m (Except FileFault Unit)
  print : String → m Unit
  printError : String → m Unit
  today : m Day
  timestamp : m String

/-! ### A host in memory -/

/-- A host in memory: its files, what can be read from its input, what has been written to its outputs, and its
    clock. -/
structure World where
  files : Files
  input : ByteArray
  output : String
  errors : String
  today : Day
  timestamp : String

namespace World

def modifyFile (path : String) (change : ByteArray → ByteArray) : StateM World (Except FileFault Unit) :=
  fun world =>
    match world.files.modify path change with
    | .ok files => (.ok (), { world with files := files })
    | .error f => (.error f, world)

def host : Host (StateM World) where
  readInput := fun world => (world.input, world)
  readFile path := fun world => (world.files.read path, world)
  writeFile path text := modifyFile path fun _ => text.toUTF8
  appendFile path text := modifyFile path fun old => old ++ text.toUTF8
  print text := fun world => ((), { world with output := world.output ++ text })
  printError text := fun world => ((), { world with errors := world.errors ++ text })
  today := fun world => (world.today, world)
  timestamp := fun world => (world.timestamp, world)

end World

end Reckoner.Command
