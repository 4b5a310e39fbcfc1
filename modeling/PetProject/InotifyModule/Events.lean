import Mathlib.Data.List.AList
import PetProject.Handler.InotifyDbHandler

/-!
# Events of the watched folder

The records of the kernel, the branches of `Inotify_module::read_handle_event` that turn them into
calls of the handler, and the vector with which `refresh_file_list` calls it. What reaches the
catalogue is the same change whether an entry is a file or a directory.
-/

namespace PetProject.InotifyModule

open Framework Database Handler

abbrev Mask := BitVec 32

def inMovedFrom : Mask := 0x40
def inMovedTo : Mask := 0x80
def inCreate : Mask := 0x100
def inDelete : Mask := 0x200
def inDeleteSelf : Mask := 0x400
def inMoveSelf : Mask := 0x800
def inIsDir : Mask := 0x40000000

structure InotifyEvent where
  mask : Mask
  name : Text
  deriving DecidableEq, Repr

/-- What the watching thread works on; the first three fields are the vector `arguments`. -/
structure Watcher where
  filesFolder : Text
  event : Text
  entityName : Text
  done : Bool
  deriving DecidableEq, Repr

def Watcher.arguments (w : Watcher) : List Text := [w.filesFolder, w.event, w.entityName]

/-- The folder is gone. -/
def Watcher.stop (w : Watcher) : Watcher := { w with filesFolder := [], done := true }

/-- The body of the loop in `read_handle_event`: the fields afterwards, and the arguments when the
handler is called. -/
def Watcher.handleEvent (w : Watcher) (e : InotifyEvent) : Watcher × Option (List Text) :=
  let refill (event : Text) : Watcher := { w with event := event, entityName := quoted e.name }
  let add := refill "add".toList
  let delete := refill "delete".toList
  let dirDel := refill "dir_del".toList
  if e.mask &&& inCreate ≠ 0 then (add, some add.arguments)
  else if e.mask &&& inDelete ≠ 0 then (delete, some delete.arguments)
  else if e.mask &&& inMovedFrom ≠ 0 then (delete, some delete.arguments)
  else if e.mask &&& inMovedTo ≠ 0 then (add, some add.arguments)
  else if e.mask &&& inDeleteSelf ≠ 0 then (dirDel.stop, some dirDel.arguments)
  else if e.mask &&& inMoveSelf ≠ 0 then (dirDel.stop, some dirDel.arguments)
  else ({ w with event := [], entityName := [] }, none)

/-- `read_handle_event` on a batch of records: the commands that the handler issues, in order. -/
def readHandleEvent (hash : Hash) : Watcher → List InotifyEvent → Watcher × List Text
  | w, [] => (w, [])
  | w, e :: es =>
    let handled := w.handleEvent e
    let commands : List Text :=
      match handled.2 with
      | some arguments => (handle hash true arguments).1
      | none => []
    let rest := readHandleEvent hash handled.1 es
    (rest.1, commands ++ rest.2)

/-! ## Entries -/

/-- The kinds of entries, of which the kernel marks the directories. A symbolic link comes with the
answer to whether it leads to a regular file. -/
inductive EntryKind
  | regular
  | directory
  | link (leads : Bool)
  | other
  deriving DecidableEq, Repr

/-- `is_regular_file`, which follows a symbolic link. -/
def EntryKind.isRegularFile : EntryKind → Bool
  | .regular => true
  | .link leads => leads
  | .directory | .other => false

inductive Notice
  | created
  | deleted
  | movedFrom
  | movedTo
  deriving DecidableEq, Repr

namespace Notice

def mask : Notice → Mask
  | .created => inCreate
  | .deleted => inDelete
  | .movedFrom => inMovedFrom
  | .movedTo => inMovedTo

/-- The kernel marks directories. -/
def maskFor (notice : Notice) (kind : EntryKind) : Mask :=
  notice.mask ||| if kind = .directory then inIsDir else 0

private theorem maskFor_bits (notice : Notice) (kind : EntryKind) :
    (notice.maskFor kind &&& inCreate ≠ 0 ↔ notice = .created) ∧
    (notice.maskFor kind &&& inDelete ≠ 0 ↔ notice = .deleted) ∧
    (notice.maskFor kind &&& inMovedFrom ≠ 0 ↔ notice = .movedFrom) ∧
    (notice.maskFor kind &&& inMovedTo ≠ 0 ↔ notice = .movedTo) := by
  have hmark : (if kind = .directory then inIsDir else 0) = inIsDir ∨
      (if kind = .directory then inIsDir else 0) = 0 := by
    split
    · exact Or.inl rfl
    · exact Or.inr rfl
  unfold maskFor
  rcases hmark with hmark | hmark <;> rw [hmark] <;> cases notice <;> decide

def watchEvent : Notice → WatchEvent
  | .created => .add
  | .deleted => .delete
  | .movedFrom => .delete
  | .movedTo => .add

end Notice

/-- What the kernel reports on an entry of the folder. -/
structure Report where
  notice : Notice
  kind : EntryKind
  name : Text
  deriving DecidableEq, Repr

namespace Report

def record (r : Report) : InotifyEvent := ⟨r.notice.maskFor r.kind, r.name⟩

/-- The change of the catalogue that a report brings about; the kind of the entry is lost. -/
def bagOp (r : Report) : BagOp Text :=
  match r.notice.watchEvent with
  | .add => .add r.name
  | .delete => .drop r.name
  | .dirDel => .clear

theorem handleEvent_record (w : Watcher) (r : Report) :
    w.handleEvent r.record =
      ({ w with event := r.notice.watchEvent.text, entityName := quoted r.name },
        some [w.filesFolder, r.notice.watchEvent.text, quoted r.name]) := by
  obtain ⟨notice, kind, name⟩ := r
  obtain ⟨hcreated, hdeleted, hmovedFrom, hmovedTo⟩ := notice.maskFor_bits kind
  cases notice <;>
    simp only [Watcher.handleEvent, record, hcreated, hdeleted, hmovedFrom, hmovedTo] <;> rfl

end Report

/-- Reports on entries with safe names change the catalogue in their order. -/
theorem readHandleEvent_reports (hash : Hash) {w : Watcher} (hfolder : SafeLiteral w.filesFolder)
    {reports : List Report} (hnames : ∀ r ∈ reports, SafeLiteral r.name) :
    (readHandleEvent hash w (reports.map Report.record)).2.flatMap commandOps =
        reports.map Report.bagOp ∧
      (readHandleEvent hash w (reports.map Report.record)).1.filesFolder = w.filesFolder := by
  induction reports generalizing w with
  | nil => exact ⟨rfl, rfl⟩
  | cons r reports ih =>
    obtain ⟨hname, hrest⟩ := List.forall_mem_cons.mp hnames
    let call : WatchCall := ⟨⟨w.filesFolder, hfolder⟩, r.notice.watchEvent, ⟨r.name, hname⟩⟩
    have hhandle : (handle hash true
        [w.filesFolder, r.notice.watchEvent.text, quoted r.name]).1 = [call.command hash] :=
      congrArg Prod.fst (handle_watchCall hash true call)
    let w' : Watcher := { w with event := r.notice.watchEvent.text, entityName := quoted r.name }
    have hfolder' : SafeLiteral w'.filesFolder := hfolder
    obtain ⟨hops, hsame⟩ := ih hfolder' hrest
    simp only [List.map_cons, readHandleEvent, Report.handleEvent_record]
    constructor
    · rw [hhandle, List.flatMap_append, hops, List.flatMap_singleton, commandOps_watchCall]
      rfl
    · exact hsame

/-! ## The list of files -/

abbrev Entry := Sigma fun _ : Text => EntryKind

def regularFiles (entries : List Entry) : List Text :=
  (entries.filter fun e => e.2.isRegularFile).map Sigma.fst

/-- The vector that `refresh_file_list` passes to the handler. -/
def refreshFileList (filesFolder : Text) (entries : List Entry) : List Text :=
  [filesFolder, "refresh".toList] ++ (regularFiles entries).map quoted

theorem handle_refreshFileList (hash : Hash) (filesFolder : Text) (entries : List Entry) :
    (handle hash true (refreshFileList filesFolder entries)).1 = refreshCommand ::
      (regularFiles entries).map fun name => addCommand hash filesFolder (quoted name) := by
  have hadd : ∀ name, (entryCommand hash [filesFolder, "add".toList, quoted name]).toList =
      [addCommand hash filesFolder (quoted name)] := fun _ => rfl
  have hrest : ((regularFiles entries).map quoted).flatMap (fun entity =>
      (entryCommand hash [filesFolder, "add".toList, entity]).toList) =
      (regularFiles entries).map fun name => addCommand hash filesFolder (quoted name) := by
    rw [List.flatMap_map, List.map_eq_flatMap]
    simp only [hadd]
  exact congrArg (refreshCommand :: ·) hrest

/-- A refresh clears the catalogue and adds the regular files. -/
theorem commandOps_refreshFileList (hash : Hash) {filesFolder : Text} {entries : List Entry}
    (hfolder : SafeLiteral filesFolder) (hnames : ∀ name ∈ regularFiles entries, SafeLiteral name) :
    (handle hash true (refreshFileList filesFolder entries)).1.flatMap commandOps =
      .clear :: (regularFiles entries).map BagOp.add := by
  have hadds : ((regularFiles entries).map fun name =>
      addCommand hash filesFolder (quoted name)).flatMap commandOps =
      (regularFiles entries).map BagOp.add := by
    rw [List.flatMap_map, List.map_eq_flatMap]
    exact List.flatMap_congr fun name hname => commandOps_add hash hfolder (hnames name hname)
  rw [handle_refreshFileList, List.flatMap_cons, commandOps_refresh, hadds]
  rfl

end PetProject.InotifyModule
