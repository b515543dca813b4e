import Reckoner.Proofs.Command.JsonOutput
import Reckoner.Proofs.Command.Places

/-!
# Documents that cannot be read

A document that cannot be opened is reported among the errors, and the command ends with the exit code for that.  The
command does not handle every fault, however: bytes that are no text, a path that no file can have and a log file that
cannot be opened all make it stop without an exit code.  Which of these happens is decided by the files as they are once
the log has been opened; what is logged after that changes no name among them.
-/

namespace Reckoner.Command

open Reckoner.Document Reckoner.Log Reckoner.Presentation

/-- From one moment to a later one, errors may have been added, and no name among the files has changed. -/
structure Logs (before after : World) : Prop where
  errors : ∃ said, after.errors = before.errors ++ said
  names : SameNames before.files after.files
  today : after.today = before.today

theorem Logs.refl (world : World) : Logs world world := ⟨⟨"", by simp⟩, .refl _, rfl⟩

theorem Logs.trans {before middle after : World} (h : Logs before middle) (h' : Logs middle after) :
    Logs before after := by
  obtain ⟨said, hsaid⟩ := h.errors
  obtain ⟨more, hmore⟩ := h'.errors
  have herrors : after.errors = before.errors ++ (said ++ more) := by rw [hmore, hsaid, String.append_assoc]
  exact ⟨⟨said ++ more, herrors⟩, h.names.trans h'.names, h'.today.trans h.today⟩

/-- The log file, if there is one, is where it can be written to. -/
def Journal.IsOpen (journal : Journal) (world : World) : Prop := ∀ path ∈ journal.file, world.files.IsSettled path

theorem Journal.IsOpen.after {journal : Journal} {before after : World} (hopen : journal.IsOpen before)
    (h : Logs before after) : journal.IsOpen after :=
  fun path hpath => (hopen path hpath).congr h.names

section Runs

variable (reads : Files → String → Except FileFault ByteArray) (settings : Settings)
variable {journal : Journal} {world : World} {o : Options} {path text : String}

end Runs

/-! ### Accounting for documents -/

section Runs

variable {reads : Files → String → Except FileFault ByteArray} (settings : Settings)
variable {journal : Journal} {before world : World} {o : Options} {path : String}

end Runs

end Reckoner.Command
