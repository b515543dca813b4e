import Reckoner.Command.Files

/-!
# Where paths lead

Where a path leads depends on the names in the directory, not on the contents of the files.  A path that a file can be
made at leads to that file as soon as something has been written to it, and from then on writing to it changes no name.
-/

namespace Reckoner.Command

/-- Directories with the same names, of files and of directories. -/
structure SameNames (before after : Files) : Prop where
  files : after.contents.map Prod.fst = before.contents.map Prod.fst
  directories : after.directories = before.directories

theorem SameNames.refl (files : Files) : SameNames files files := ⟨rfl, rfl⟩

theorem SameNames.trans {before middle after : Files} (h : SameNames before middle) (h' : SameNames middle after) :
    SameNames before after :=
  ⟨h'.files.trans h.files, h'.directories.trans h.directories⟩

namespace Files

variable {files before after : Files} {name path : String}

/-! ### Names -/

theorem hasFile_eq_contains (files : Files) (name : String) :
    files.hasFile name = (files.contents.map Prod.fst).contains name := by
  rw [hasFile, List.contains_eq_any_beq, List.any_map]
  congr 1
  funext entry
  simp [Bool.beq_eq_decide_eq, eq_comm]

theorem hasFile_congr (h : SameNames before after) : after.hasFile = before.hasFile := by
  funext name
  rw [hasFile_eq_contains, hasFile_eq_contains, h.files]

theorem hasDirectory_congr (h : SameNames before after) : after.hasDirectory = before.hasDirectory := by
  funext name
  rw [hasDirectory, hasDirectory, h.files, h.directories]

theorem follow_congr (h : SameNames before after) (trail steps : List String) :
    after.follow trail steps = before.follow trail steps := by
  induction steps generalizing trail with
  | nil => rfl
  | cons step rest ih =>
    unfold follow
    simp only [hasFile_congr h, hasDirectory_congr h, ih]

theorem place_congr (h : SameNames before after) (path : String) : after.place path = before.place path := by
  rw [place, place, follow_congr h]

/-! ### Writing -/

theorem sameNames_put (h : files.hasFile name) (bytes : ByteArray) : SameNames files (files.put name bytes) := by
  rw [put, if_pos h]
  constructor
  · simp [List.map_map, Function.comp_def]
  · rfl

theorem hasFile_of_follow {trail steps : List String} (h : files.follow trail steps = .file name) :
    files.hasFile name := by
  fun_induction follow files trail steps <;> simp_all

/-- A path is followed in every directory, or else it leads to no file and to no place for one in any directory. -/
theorem place_cases (path : String) :
    (∀ files : Files, files.place path = files.follow [] (pathSteps path)) ∨
      ∀ (files : Files) (name : String), files.place path ≠ .file name ∧ files.place path ≠ .vacant name := by
  by_cases hend : path.toList.contains pathEnd
  · right
    intro files name
    simp only [place, if_pos hend, ne_eq, reduceCtorEq, not_false_eq_true, and_self]
  · by_cases hroot : isAbsolute path
    · right
      intro files name
      rw [place, if_neg hend, if_pos hroot]
      split <;> simp
    · left
      intro files
      rw [place, if_neg hend, if_neg hroot]

theorem hasFile_of_place (h : files.place path = .file name) : files.hasFile name := by
  obtain hfollow | hno := place_cases path
  · exact hasFile_of_follow ((hfollow files).symm.trans h)
  · exact absurd h (hno files name).1

/-- Something can be written to a path, and no name is made for it. -/
def IsSettled (files : Files) (path : String) : Prop :=
  (∃ name, files.place path = .file name) ∨ files.place path = .outside

theorem IsSettled.congr (h : SameNames before after) (hsettled : before.IsSettled path) : after.IsSettled path := by
  rwa [IsSettled, place_congr h]

theorem IsSettled.modify (h : files.IsSettled path) (change : ByteArray → ByteArray) :
    ∃ written, files.modify path change = .ok written ∧ SameNames files written := by
  unfold Files.modify
  obtain ⟨name, hplace⟩ | hplace := h
  · rw [hplace]
    exact ⟨_, rfl, sameNames_put (hasFile_of_place hplace) _⟩
  · rw [hplace]
    exact ⟨files, rfl, .refl files⟩

end Files

end Reckoner.Command
