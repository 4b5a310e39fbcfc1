import Mathlib.Data.Int.Order.Basic
import PetProject.Framework.Outcome
import PetProject.Logger.OpenFile

/-!
# The choice of the log file in any directory

`Logger::open_file` over what an iteration over the log directory yields, with the calls in it that
may throw. It asks whether the directory has an entry, and then takes the most recently written of
its regular files, of which there may be none.
-/

namespace PetProject.Logger

open Framework

/-- An entry of the log directory; `last_write_time` throws when there is no time, and `file_size`
fails when there is no size. -/
structure LogEntry where
  path : Text
  isRegularFile : Bool
  lastWriteTime : Option Int
  fileSize : Option Nat
  deriving DecidableEq

/-- A log directory: what an iteration yields, and which paths denote something before the log file
is opened. -/
structure LogFolder where
  path : Text
  iteration : Iteration LogEntry
  present : Text → Bool

namespace LogFolder

/-- The vector `entries`. -/
def regularFiles (folder : LogFolder) : List LogEntry :=
  folder.iteration.entries.filter LogEntry.isRegularFile

/-- The next file of the service, under the number one above that of the regular files. -/
def nextLog (folder : LogFolder) (service : Text) : Text :=
  newLogFile service folder.path (1 + folder.regularFiles.length)

end LogFolder

/-- `file_size(ec)`, and whether `ec` is set; a failure yields the greatest number. -/
def LogEntry.fileSizeEc (e : LogEntry) : Nat × Bool :=
  match e.fileSize with
  | some n => (n, false)
  | none => (18446744073709551615, true)

/-- `Logger::compare`, which throws when it cannot read a time. -/
def compareTimes : LogEntry → LogEntry → Option Bool := lessBy LogEntry.lastWriteTime

/-- `Logger::open_file`, from the iteration over the directory to the file that is opened. -/
def selectFile (service : Text) (maxLogFileSize : Nat) (folder : LogFolder) : Outcome LogFile :=
  if folder.iteration.complete then
    if folder.iteration.entries = [] then .returns (.out (folder.nextLog service))
    else
      match maxElement compareTimes folder.regularFiles with
      | none => .throws
      -- `max_element` of an empty vector is its end, which has no entry to look at
      | some none => .undefined
      | some (some lastModifiedFile) =>
        let size := lastModifiedFile.fileSizeEc
        if size.1 ≤ maxLogFileSize ∧ size.2 = false then .returns (.app lastModifiedFile.path)
        else .returns (.out (folder.nextLog service))
  else .throws

def LogEntry.HasRoom (maxLogFileSize : Nat) (e : LogEntry) : Prop :=
  ∃ n ∈ e.fileSize, n ≤ maxLogFileSize

instance (maxLogFileSize : Nat) (e : LogEntry) : Decidable (e.HasRoom maxLogFileSize) :=
  inferInstanceAs (Decidable (∃ n ∈ e.fileSize, _))

/-- A file named after the service, which is not there yet. -/
def LogFolder.IsNewLog (folder : LogFolder) (service : Text) (file : LogFile) : Prop :=
  file = .out (folder.nextLog service) ∧ folder.present (folder.nextLog service) = false

/-- A file is opened: to append to it the most recently written regular file, if its size can be
read and is at most the maximum, and otherwise a new one. -/
def SelectsAsMeant (service : Text) (maxLogFileSize : Nat) (folder : LogFolder) : Prop :=
  ∃ file, selectFile service maxLogFileSize folder = .returns file ∧
    (folder.regularFiles = [] → folder.IsNewLog service file) ∧
    (folder.regularFiles ≠ [] →
      ∃ last, GreatestBy LogEntry.lastWriteTime folder.regularFiles last ∧
        if last.HasRoom maxLogFileSize then file = .app last.path
        else folder.IsNewLog service file)

/-- The iteration comes to its end; the directory is empty or has a regular file; the times of
several regular files can be read; and the next file of the service is not there yet, unless the
most recently written regular file has room. -/
structure LogFolder.InOrder (folder : LogFolder) (service : Text) (maxLogFileSize : Nat) : Prop where
  complete : folder.iteration.complete = true
  regular : folder.iteration.entries = [] ∨ folder.regularFiles ≠ []
  times : 2 ≤ folder.regularFiles.length → ∀ e ∈ folder.regularFiles, e.lastWriteTime.isSome
  unused : (∀ last, maxElement compareTimes folder.regularFiles = some (some last) →
    ¬last.HasRoom maxLogFileSize) → folder.present (folder.nextLog service) = false

private theorem LogEntry.fileSizeEc_iff (e : LogEntry) (maxLogFileSize : Nat) :
    e.fileSizeEc.1 ≤ maxLogFileSize ∧ e.fileSizeEc.2 = false ↔ e.HasRoom maxLogFileSize := by
  unfold LogEntry.fileSizeEc LogEntry.HasRoom
  cases e.fileSize with
  | none => simp
  | some n => simp

private theorem regularFiles_of_empty {folder : LogFolder} (h : folder.iteration.entries = []) :
    folder.regularFiles = [] := by
  rw [LogFolder.regularFiles, h]
  rfl

section Selection

variable {service : Text} {maxLogFileSize : Nat} {folder : LogFolder}

theorem selectFile_empty (hcomplete : folder.iteration.complete = true)
    (h : folder.iteration.entries = []) :
    selectFile service maxLogFileSize folder = .returns (.out (folder.nextLog service)) := by
  rw [selectFile, if_pos hcomplete, if_pos h]

theorem selectFile_last (hcomplete : folder.iteration.complete = true) {last : LogEntry}
    (h : maxElement compareTimes folder.regularFiles = some (some last)) :
    selectFile service maxLogFileSize folder =
      if last.HasRoom maxLogFileSize then .returns (.app last.path)
      else .returns (.out (folder.nextLog service)) := by
  have hentries : folder.iteration.entries ≠ [] := by
    intro hnil
    rw [regularFiles_of_empty hnil] at h
    exact nomatch h
  rw [selectFile, if_pos hcomplete, if_neg hentries, h]
  exact if_congr (last.fileSizeEc_iff maxLogFileSize) rfl rfl

private theorem selectFile_undefined (hcomplete : folder.iteration.complete = true)
    (hentries : folder.iteration.entries ≠ [])
    (h : maxElement compareTimes folder.regularFiles = some none) :
    selectFile service maxLogFileSize folder = .undefined := by
  rw [selectFile, if_pos hcomplete, if_neg hentries, h]

private theorem selectFile_returns {file : LogFile}
    (h : selectFile service maxLogFileSize folder = .returns file) :
    folder.iteration.complete = true ∧ (folder.iteration.entries = [] ∨
      ∃ last, maxElement compareTimes folder.regularFiles = some (some last)) := by
  unfold selectFile at h
  split at h
  case isTrue hcomplete =>
    refine ⟨hcomplete, ?_⟩
    split at h
    case isTrue hnil => exact Or.inl hnil
    case isFalse =>
      split at h
      case h_1 => exact nomatch h
      case h_2 => exact nomatch h
      case h_3 last hlast => exact Or.inr ⟨last, hlast⟩
  case isFalse => exact nomatch h

private theorem selectsAsMeant_empty_iff (hcomplete : folder.iteration.complete = true)
    (h : folder.iteration.entries = []) :
    SelectsAsMeant service maxLogFileSize folder ↔
      folder.present (folder.nextLog service) = false := by
  have hregular := regularFiles_of_empty h
  constructor
  · rintro ⟨file, -, hempty, -⟩
    exact (hempty hregular).2
  · intro hunused
    exact ⟨_, selectFile_empty hcomplete h, fun _ => ⟨rfl, hunused⟩,
      fun hne => absurd hregular hne⟩

private theorem selectsAsMeant_last_iff (hcomplete : folder.iteration.complete = true) {last : LogEntry}
    (h : maxElement compareTimes folder.regularFiles = some (some last)) :
    SelectsAsMeant service maxLogFileSize folder ↔
      last.HasRoom maxLogFileSize ∨ folder.present (folder.nextLog service) = false := by
  have hne : folder.regularFiles ≠ [] := by
    intro hregular
    rw [hregular] at h
    exact nomatch h
  by_cases hroom : last.HasRoom maxLogFileSize
  · refine iff_of_true ⟨.app last.path, ?_, fun hregular => absurd hregular hne, fun _ =>
      ⟨last, maxElement_greatest h, ?_⟩⟩ (Or.inl hroom)
    · rw [selectFile_last hcomplete h, if_pos hroom]
    · rw [if_pos hroom]
  · constructor
    · rintro ⟨file, hfile, -, hlast⟩
      obtain ⟨other, -, hother⟩ := hlast hne
      rw [selectFile_last hcomplete h, if_neg hroom] at hfile
      obtain rfl := Outcome.returns.inj hfile
      split at hother
      case isTrue => exact nomatch hother
      case isFalse => exact Or.inr hother.2
    · intro hunused
      refine ⟨.out (folder.nextLog service), ?_, fun hregular => absurd hregular hne, fun _ =>
        ⟨last, maxElement_greatest h, ?_⟩⟩
      · rw [selectFile_last hcomplete h, if_neg hroom]
      · rw [if_neg hroom]
        exact ⟨rfl, hunused.resolve_left hroom⟩

/-- The choice of the log file is as meant exactly in a directory that is in order. -/
theorem log_file_selected_iff (service : Text) (maxLogFileSize : Nat) (folder : LogFolder) :
    SelectsAsMeant service maxLogFileSize folder ↔ folder.InOrder service maxLogFileSize := by
  constructor
  · intro h
    obtain ⟨file, hfile, -⟩ := id h
    obtain ⟨hcomplete, hnil | ⟨last, hmax⟩⟩ := selectFile_returns hfile
    · refine ⟨hcomplete, Or.inl hnil, ?_, fun _ => (selectsAsMeant_empty_iff hcomplete hnil).mp h⟩
      rw [regularFiles_of_empty hnil]
      exact fun htwo => absurd htwo (by simp)
    · have htimes := maxElement_isSome_iff.mp (Option.isSome_of_eq_some hmax)
      refine ⟨hcomplete, Or.inr fun hregular => ?_, htimes, fun hfull => ?_⟩
      · rw [hregular] at hmax
        exact nomatch hmax
      · exact ((selectsAsMeant_last_iff hcomplete hmax).mp h).resolve_left (hfull last hmax)
  · intro h
    by_cases hnil : folder.iteration.entries = []
    · refine (selectsAsMeant_empty_iff h.complete hnil).mpr (h.unused fun last hmax => ?_)
      rw [regularFiles_of_empty hnil] at hmax
      exact nomatch hmax
    · have hne := h.regular.resolve_left hnil
      obtain ⟨found, hmax⟩ := Option.isSome_iff_exists.mp (maxElement_isSome_iff.mpr h.times)
      cases found with
      | none => exact absurd (maxElement_eq_end_iff.mp hmax) hne
      | some last =>
        refine (selectsAsMeant_last_iff h.complete hmax).mpr (or_iff_not_imp_left.mpr fun hfull => ?_)
        refine h.unused fun other hother => ?_
        obtain rfl := Option.some.inj (Option.some.inj (hother.symm.trans hmax))
        exact hfull

end Selection

/-! ## The log directory of a file system -/

section OfFileSystem

variable (fs : FileSystem) (logDir : Text)

/-- A regular file whose time can be read, as an entry. -/
def LogEntry.ofFile (entry : Text × File) : LogEntry :=
  ⟨entry.1, true, some entry.2.lastWriteTime, entry.2.size⟩

/-- A name in the directory as an entry. -/
def LogEntry.ofName (name : Text) : LogEntry :=
  match fs.fileAt (joinPath logDir name) with
  | some f => .ofFile (joinPath logDir name, f)
  | none => ⟨joinPath logDir name, false, none, none⟩

def logFolder (names : List Text) : LogFolder where
  path := logDir
  iteration := ⟨names.map (LogEntry.ofName fs logDir), true⟩
  present p := (fs.lookup p).isSome

private theorem regularFiles_logFolder (names : List Text) :
    (logFolder fs logDir names).regularFiles = (entries fs logDir names).map LogEntry.ofFile := by
  unfold LogFolder.regularFiles logFolder entries
  dsimp only
  induction names with
  | nil => rfl
  | cons name names ih =>
    rw [List.map_cons, List.filterMap_cons, List.filter_cons, ih, LogEntry.ofName]
    cases fs.fileAt (joinPath logDir name) with
    | none => rfl
    | some f => rfl

private theorem maxFrom_ofFile (first : Text × File) (files : List (Text × File)) :
    maxFrom compareTimes (LogEntry.ofFile first) (files.map LogEntry.ofFile) =
      some (LogEntry.ofFile (files.foldl
        (fun largest entry => if compare largest entry then entry else largest) first)) := by
  induction files generalizing first with
  | nil => rfl
  | cons file files ih =>
    have hless : compareTimes (LogEntry.ofFile first) (LogEntry.ofFile file) =
        some (compare first file) := rfl
    rw [List.map_cons, maxFrom, hless, Option.bind_some, List.foldl_cons, ← ih]
    cases compare first file with
    | false => rfl
    | true => rfl

private theorem maxElement_ofFile (files : List (Text × File)) :
    maxElement compareTimes (files.map LogEntry.ofFile) =
      some ((lastModifiedFile files).map LogEntry.ofFile) := by
  cases files with
  | nil => rfl
  | cons file files =>
    rw [List.map_cons, maxElement, maxFrom_ofFile]
    rfl

/-- In the directory of a file system the choice is that of `chooseFile`. -/
theorem selectFile_logFolder (service : Text) (maxLogFileSize : Nat) (names : List Text) :
    selectFile service maxLogFileSize (logFolder fs logDir names) =
      match chooseFile fs service logDir maxLogFileSize names with
      | some file => .returns file
      | none => .undefined := by
  have hmax := maxElement_ofFile (entries fs logDir names)
  have hregular := regularFiles_logFolder fs logDir names
  have hnext : (logFolder fs logDir names).nextLog service =
      newLogFile service logDir (1 + (entries fs logDir names).length) := by
    rw [LogFolder.nextLog, hregular, List.length_map]
    rfl
  rw [← hregular] at hmax
  unfold chooseFile
  by_cases hnames : names = []
  · have hempty : (logFolder fs logDir names).iteration.entries = [] := by
      rw [hnames]
      rfl
    rw [selectFile_empty rfl hempty, hnext, if_pos hnames]
  · rw [if_neg hnames]
    cases hlast : lastModifiedFile (entries fs logDir names) with
    | none =>
      rw [hlast, Option.map_none] at hmax
      have hentries : (logFolder fs logDir names).iteration.entries ≠ [] := by
        simpa [logFolder] using hnames
      rw [selectFile_undefined rfl hentries hmax, Option.map_none]
    | some entry =>
      rw [hlast, Option.map_some] at hmax
      rw [selectFile_last rfl hmax, hnext, Option.map_some]
      have hroom : (LogEntry.ofFile entry).HasRoom maxLogFileSize ↔
          HasRoom maxLogFileSize entry.2 := Iff.rfl
      by_cases h : HasRoom maxLogFileSize entry.2
      · rw [if_pos (hroom.mpr h), if_pos h]
        rfl
      · rw [if_neg (mt hroom.mp h), if_neg h]

end OfFileSystem

/-- A log directory with a directory in it and nothing else. -/
def onlyDirectory : LogFolder where
  path := ['d']
  iteration := ⟨[⟨['d', '/', 'a'], false, some 0, none⟩], true⟩
  present _ := false

theorem log_file_undefined :
    ¬∀ (service : Text) (maxLogFileSize : Nat) (folder : LogFolder),
      folder.iteration.complete = true →
        (∀ e ∈ folder.iteration.entries, e.lastWriteTime.isSome) →
          SelectsAsMeant service maxLogFileSize folder := by
  intro hclaim
  have hselects := hclaim ['s'] 1000 onlyDirectory rfl (by decide)
  obtain ⟨file, hfile, -⟩ := hselects
  have hundefined : selectFile ['s'] 1000 onlyDirectory = .undefined := rfl
  exact nomatch hundefined.symm.trans hfile

end PetProject.Logger
