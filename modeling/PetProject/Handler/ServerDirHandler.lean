import PetProject.Framework.FileSystem
import PetProject.Handler.Lookup

/-!
# The handler of a folder

`Server_dir_handler` serves the regular files of one folder: it lists them, and it looks a target
up among them in the order in which the directory iterator yields them. Some targets are not
looked up: they ask for the listing, or they are refused. The lookup itself is in
`DirectoryLookup`.
-/

namespace PetProject.Handler

open Framework Database

def FileName (name : Text) : Prop := name ≠ [] ∧ '/' ∉ name

structure DirEntry where
  name : Text
  isRegularFile : Bool
  deriving DecidableEq, Repr

/-- The contents of a folder, in the order of one iteration. -/
structure Folder where
  entries : List DirEntry
  names : ∀ e ∈ entries, FileName e.name

/-- A request vector in which only the target and the fields of the client are filled. -/
def ReqInfo.ask (info : ReqInfo) (target : Text) : ReqInfo :=
  { info with target := target, result := [], error := [] }

namespace ServerDirHandler

def fileNames (entries : List DirEntry) : List Text :=
  (entries.filter DirEntry.isRegularFile).map DirEntry.name

/-- `Server_dir_handler::number_of_digits`. -/
def numberOfDigits (n : Nat) : Nat := if n / 10 = 0 then 1 else 1 + numberOfDigits (n / 10)
termination_by n
decreasing_by omega

/-- `Server_dir_handler::forming_files_table`. -/
def formingFilesTable (entries : List DirEntry) : Text :=
  let names := fileNames entries
  let width := max (numberOfDigits names.length) 3
  "Pos".toList ++ List.replicate (width - 3 + 1) ' ' ++ "File name\n".toList ++
    names.zipIdx.flatMap fun name =>
      let pos := name.2 + 1
      decimal pos ++ List.replicate (width - numberOfDigits pos + 1) ' ' ++ name.1 ++ ['\n']

/-- A trailing `*` of a longer target stands for any ending. -/
def IsStem (target : Text) : Prop := 1 < target.length ∧ target.getLast? = some '*'

instance (target : Text) : Decidable (IsStem target) := inferInstanceAs (Decidable (_ ∧ _))

/-- The function `compare` of a lookup. -/
def compareFile (target currFile : Text) : Bool :=
  if IsStem target then target.dropLast.isPrefixOf currFile else currFile = target

/-- The targets that ask for the listing. -/
def AsksForTable (target : Text) : Prop :=
  target = [] ∨ target = ['/'] ∨ target = "files_table".toList ∨ target = "Files_table".toList

instance (target : Text) : Decidable (AsksForTable target) :=
  inferInstanceAs (Decidable (_ ∨ _))

theorem head_ne_slash {name : Text} (h : FileName name) : name.head? ≠ some '/' := by
  intro hhead
  exact h.2 (List.mem_of_head? hhead)

theorem fileName_of_mem {folder : Folder} {name : Text} (h : name ∈ fileNames folder.entries) :
    FileName name := by
  obtain ⟨e, he, rfl⟩ := List.mem_map.mp h
  exact folder.names e (List.mem_filter.mp he).1

theorem compareFile_self (name : Text) : compareFile name name := by
  unfold compareFile
  split
  · simpa using List.dropLast_prefix name
  · simp

end ServerDirHandler

end PetProject.Handler
