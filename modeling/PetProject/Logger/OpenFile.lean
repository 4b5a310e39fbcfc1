import PetProject.Framework.FileSystem

/-!
# The choice of the log file

`Logger::open_file`. The most recently written regular file of the log directory is opened to
append to it while it is small enough; otherwise a new file is opened to write, under the number
one above the number of regular files.
-/

namespace PetProject.Logger

open Framework

/-- The regular files of a directory, with their paths, in the order of iteration. -/
def entries (fs : FileSystem) (logDir : Text) (names : List Text) : List (Text × File) :=
  names.filterMap fun name =>
    (fs.fileAt (joinPath logDir name)).map fun f => (joinPath logDir name, f)

/-- `Logger::compare`. -/
def compare (first second : Text × File) : Bool := first.2.lastWriteTime < second.2.lastWriteTime

/-- `std::max_element` with `compare`: the first one of the latest entries. -/
def lastModifiedFile : List (Text × File) → Option (Text × File)
  | [] => none
  | first :: entries =>
    some (entries.foldl (fun largest entry => if compare largest entry then entry else largest) first)

/-- Whether `file_size` succeeds with at most the maximum. -/
def HasRoom (maxLogFileSize : Nat) (f : File) : Prop := ∃ n ∈ f.size, n ≤ maxLogFileSize

instance (maxLogFileSize : Nat) (f : File) : Decidable (HasRoom maxLogFileSize f) := by
  unfold HasRoom
  infer_instance

def newLogFile (service logDir : Text) (n : Nat) : Text :=
  joinPath logDir (service ++ "_log".toList ++ Nat.toDigits 10 n ++ ".log".toList)

inductive LogFile
  | app (path : Text)
  | out (path : Text)
  deriving DecidableEq, Repr

/-- The file that is opened; `none` where the end of an empty vector is dereferenced. -/
def chooseFile (fs : FileSystem) (service logDir : Text) (maxLogFileSize : Nat)
    (names : List Text) : Option LogFile :=
  let n := 1 + (entries fs logDir names).length
  if names = [] then some (.out (newLogFile service logDir n))
  else
    (lastModifiedFile (entries fs logDir names)).map fun entry =>
      if HasRoom maxLogFileSize entry.2 then .app entry.1
      else .out (newLogFile service logDir n)

/-- How `open_file` ends. -/
inductive Opening
  | returned (fs : FileSystem)
  | threw (fs : FileSystem)
  | undefined

/-- The log directory as it is or as it has been created; `none` when it has not. -/
def logDirectory (fs : FileSystem) (logDir : Text) (created : Option (fs.NewDirectory logDir)) :
    Option FileSystem :=
  if (fs.lookup logDir).isSome then some fs else created.map (·.after)

def openFile (fs : FileSystem) (service logDir : Text) (maxLogFileSize : Nat)
    (created : Option (fs.NewDirectory logDir)) : Opening :=
  match logDirectory fs logDir created with
  | none => .returned fs
  | some fs =>
    match fs.listing logDir with
    | none => .threw fs
    | some names =>
      match chooseFile fs service logDir maxLogFileSize names with
      | none => .undefined
      | some (.app path) => .returned (fs.openApp path)
      | some (.out path) => .returned (fs.openOut path)

/-- Every regular file is still there, with its content. -/
def Opening.Keeps (fs : FileSystem) : Opening → Prop
  | .returned fs' | .threw fs' => fs.Keeps fs'
  | .undefined => False

/-- The log directory is empty or has a regular file, and where a new file is opened its name
does not belong to a file with content. -/
structure RoomForLog (fs : FileSystem) (service logDir : Text) (maxLogFileSize : Nat)
    (names : List Text) : Prop where
  regular : names = [] ∨ entries fs logDir names ≠ []
  unused : (∀ entry ∈ lastModifiedFile (entries fs logDir names),
      ¬HasRoom maxLogFileSize entry.2) →
    ∀ f, fs.fileAt (newLogFile service logDir (1 + (entries fs logDir names).length)) = some f →
      f.writable → f.content = []

private theorem logDirectory_sameFiles {fs fs' : FileSystem} {logDir : Text}
    {created : Option (fs.NewDirectory logDir)} (h : logDirectory fs logDir created = some fs') :
    fs.SameFiles fs' := by
  unfold logDirectory at h
  split at h
  case isTrue => exact Option.some.inj h ▸ .refl fs
  case isFalse =>
    obtain ⟨d, -, rfl⟩ := Option.map_eq_some_iff.mp h
    exact d.sameFiles

private theorem lastModifiedFile_eq_none {entries : List (Text × File)} :
    lastModifiedFile entries = none ↔ entries = [] := by
  cases entries <;> simp [lastModifiedFile]

private theorem roomForLog_iff {fs fs' : FileSystem} {service logDir : Text} {maxLogFileSize : Nat}
    {names : List Text} (hsame : fs.SameFiles fs') :
    RoomForLog fs' service logDir maxLogFileSize names ↔
      match chooseFile fs' service logDir maxLogFileSize names with
      | none => False
      | some (.app path) => fs.Keeps (fs'.openApp path)
      | some (.out path) => fs.Keeps (fs'.openOut path) := by
  unfold chooseFile
  by_cases hnames : names = []
  · have hlast : lastModifiedFile (entries fs' logDir names) = none := by
      rw [hnames]
      rfl
    rw [if_pos hnames]
    dsimp only
    rw [hsame.keeps_openOut_iff]
    exact ⟨fun h => h.unused (by simp [hlast]), fun h => ⟨Or.inl hnames, fun _ => h⟩⟩
  · rw [if_neg hnames]
    cases hlast : lastModifiedFile (entries fs' logDir names) with
    | none =>
      refine iff_of_false (fun h => ?_) id
      exact h.regular.elim hnames fun hne => hne (lastModifiedFile_eq_none.mp hlast)
    | some entry =>
      have hne : entries fs' logDir names ≠ [] := fun hnil =>
        nomatch hlast.symm.trans (lastModifiedFile_eq_none.mpr hnil)
      rw [Option.map_some]
      by_cases hroom : HasRoom maxLogFileSize entry.2
      · rw [if_pos hroom]
        refine iff_of_true ⟨Or.inr hne, fun hfull => ?_⟩ (hsame.keeps (fs'.keeps_openApp _))
        exact absurd hroom (hfull entry hlast)
      · rw [if_neg hroom]
        dsimp only
        rw [hsame.keeps_openOut_iff]
        refine ⟨fun h => h.unused fun entry' hentry' => ?_, fun h => ⟨Or.inr hne, fun _ => h⟩⟩
        rwa [Option.some.inj (hentry'.symm.trans hlast)]

private theorem openFile_keeps_iff_roomForLog {fs fs' : FileSystem} {service logDir : Text}
    {maxLogFileSize : Nat} {created : Option (fs.NewDirectory logDir)} {names : List Text}
    (hdir : logDirectory fs logDir created = some fs') (hlisting : fs'.listing logDir = some names) :
    (openFile fs service logDir maxLogFileSize created).Keeps fs ↔
      RoomForLog fs' service logDir maxLogFileSize names := by
  unfold openFile
  rw [hdir, roomForLog_iff (logDirectory_sameFiles hdir)]
  dsimp only
  rw [hlisting]
  dsimp only
  cases chooseFile fs' service logDir maxLogFileSize names with
  | none => exact Iff.rfl
  | some log => cases log <;> exact Iff.rfl

/-- Starting a logger keeps the files that there are exactly if a new file gets a name that is not
in use. -/
theorem open_file_keeps_files_iff (fs : FileSystem) (service logDir : Text) (maxLogFileSize : Nat)
    (created : Option (fs.NewDirectory logDir)) :
    (openFile fs service logDir maxLogFileSize created).Keeps fs ↔
      ∀ fs' ∈ logDirectory fs logDir created, ∀ names ∈ fs'.listing logDir,
        RoomForLog fs' service logDir maxLogFileSize names := by
  cases hdir : logDirectory fs logDir created with
  | none =>
    unfold openFile
    rw [hdir]
    exact iff_of_true (FileSystem.Keeps.refl fs) nofun
  | some fs' =>
    simp only [Option.mem_def, Option.some.injEq, forall_eq']
    cases hlisting : fs'.listing logDir with
    | none =>
      unfold openFile
      rw [hdir]
      dsimp only
      rw [hlisting]
      exact iff_of_true ((logDirectory_sameFiles hdir).keeps (FileSystem.Keeps.refl fs')) nofun
    | some names =>
      simp only [Option.some.injEq, forall_eq']
      exact openFile_keeps_iff_roomForLog hdir hlisting

/-- The second of two logs of the service `"s"` is left over, with a byte more than the maximum. -/
def leftOver : FileSystem where
  canonical := some
  inode p := if p = ['d'] then some 0 else if p = newLogFile ['s'] ['d'] 2 then some 1 else none
  file n := if n = 1 then some ⟨[0], 0, true, true⟩ else none
  listing p := if p = ['d'] then some ["s_log2.log".toList] else none
  mayCreate _ := true
  clock := 1
  newInode := 2
  fresh n hn := if_neg (by omega)

theorem open_file_erases_log :
    ¬∀ (fs : FileSystem) (service logDir : Text) (maxLogFileSize : Nat) (names : List Text),
      fs.listing logDir = some names → (∀ name ∈ names, (fs.fileAt (joinPath logDir name)).isSome) →
      (openFile fs service logDir maxLogFileSize none).Keeps fs := by
  intro hclaim
  have hkeeps := hclaim leftOver ['s'] ['d'] 0 _ rfl (by decide +kernel)
  have hdir : logDirectory leftOver ['d'] none = some leftOver := rfl
  have hroom := (openFile_keeps_iff_roomForLog hdir rfl).mp hkeeps
  have hunused := hroom.unused (by decide +kernel) ⟨[0], 0, true, true⟩ (by decide +kernel) rfl
  exact nomatch hunused

end PetProject.Logger
