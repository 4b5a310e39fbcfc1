import PetProject.Database.Command

/-!
# The handler of folder events

`Inotify_DB_handler::handle` turns an event of the watched folder into one command string. The
entity name arrives between quotes. For names and folders that are safe between quotes each
command is the change of the catalogue that the event stands for.
-/

namespace PetProject.Handler

open Framework Database

/-- Positions in the argument vector. -/
def argsFilesFolder : Nat := 0
def argsEvent : Nat := 1
def argsEntityName : Nat := 2

/-- A name as the watching thread passes it. -/
def quoted (name : Text) : Text := '\'' :: (name ++ ['\''])

/-- `std::hash<std::string>`, which the library is free to choose. -/
abbrev Hash := Text → UInt64

/-- The fixed pieces of the commands. -/
def addHead : Text :=
  ("LOCK TABLE song_table IN ACCESS EXCLUSIVE MODE; " ++
    "INSERT INTO song_table (id, song_name, song_uid, song_URL) VALUES (DEFAULT, ").toList

def addSeparator : Text := ", ".toList

def addTail : Text := ")".toList

def deleteHead : Text :=
  ("LOCK TABLE song_table IN ACCESS EXCLUSIVE MODE; " ++
    "DELETE FROM song_table WHERE song_name = ").toList

def deleteTail : Text :=
  ("; ALTER SEQUENCE song_seq RESTART;" ++ " UPDATE song_table SET ID = DEFAULT").toList

section Commands

variable (hash : Hash)

def addCommand (folder entity : Text) : Text :=
  addHead ++ entity ++ addSeparator ++ ['\''] ++ decimal (hash entity).toNat ++ ['\''] ++
    addSeparator ++ ['\''] ++ folder ++ ['\''] ++ addTail

def deleteCommand (entity : Text) : Text := deleteHead ++ entity ++ deleteTail

def dirDelCommand : Text :=
  ("LOCK TABLE song_table IN ACCESS EXCLUSIVE MODE; TRUNCATE song_table RESTART IDENTITY;" ++
    " ALTER SEQUENCE song_seq RESTART; UPDATE song_table SET ID = DEFAULT").toList

def refreshCommand : Text :=
  ("LOCK TABLE song_table IN ACCESS EXCLUSIVE MODE; TRUNCATE song_table RESTART IDENTITY;" ++
    " ALTER SEQUENCE song_seq RESTART").toList

/-- The command of a single event, `none` for other events. -/
def entryCommand (arguments : List Text) : Option Text :=
  let folder := arguments.getD argsFilesFolder []
  let event := arguments.getD argsEvent []
  let entity := arguments.getD argsEntityName []
  if event = "add".toList then some (addCommand hash folder entity)
  else if event = "delete".toList then some (deleteCommand entity)
  else if event = "dir_del".toList then some dirDelCommand
  else none

/-- `Inotify_DB_handler::handle`: the commands in the order in which they are issued, and the
result. A refresh waits for its first command and gives up when that one fails. -/
def handle (refreshed : Bool) (arguments : List Text) : List Text × Bool :=
  match entryCommand hash arguments with
  | some command => ([command], true)
  | none =>
    if arguments.getD argsEvent [] = "refresh".toList then
      if refreshed then
        (refreshCommand :: (arguments.drop 2).flatMap fun entity =>
          (entryCommand hash
            [arguments.getD argsFilesFolder [], "add".toList, entity]).toList, true)
      else ([refreshCommand], false)
    else ([], false)

end Commands

/-- The effect of a command on the database; a rejected command has none. -/
def execCommand (choice : Choice) (db : Db) (command : Text) : Db :=
  match runCommand choice command db with
  | some r => r.1
  | none => db

/-! ## Calls of the watching thread -/

/-- A text that may stand between quotes. -/
abbrev SafeText := { t : Text // SafeLiteral t }

inductive WatchEvent
  | add | delete | dirDel
  deriving DecidableEq, Repr

def WatchEvent.text : WatchEvent → Text
  | .add => "add".toList
  | .delete => "delete".toList
  | .dirDel => "dir_del".toList

/-- A call of `handle` with the arguments that the watching thread passes. -/
structure WatchCall where
  folder : SafeText
  event : WatchEvent
  name : SafeText
  deriving DecidableEq

namespace WatchCall

def arguments (c : WatchCall) : List Text := [c.folder.1, c.event.text, quoted c.name.1]

def command (hash : Hash) (c : WatchCall) : Text :=
  match c.event with
  | .add => addCommand hash c.folder.1 (quoted c.name.1)
  | .delete => deleteCommand (quoted c.name.1)
  | .dirDel => dirDelCommand

/-- The change of the catalogue that a call stands for. -/
def bagOp (c : WatchCall) : BagOp Text :=
  match c.event with
  | .add => .add c.name.1
  | .delete => .drop c.name.1
  | .dirDel => .clear

end WatchCall

theorem handle_watchCall (hash : Hash) (refreshed : Bool) (c : WatchCall) :
    handle hash refreshed c.arguments = ([c.command hash], true) := by
  obtain ⟨folder, event, name⟩ := c
  cases event <;> rfl

theorem decimal_safe (n : Nat) : SafeLiteral (decimal n) := by
  intro c hc
  have hdigit : c.isDigit := Nat.isDigit_of_mem_toDigits (by decide) (by decide) hc
  constructor <;> rintro rfl <;> exact absurd hdigit (by decide)

private theorem add_readsAs :
    ReadsAs addHead [addSeparator, addSeparator, addTail] [.lockSongs, .insertSong] := by
  refine readsAs_of_fixed [("LOCK TABLE song_table IN ACCESS EXCLUSIVE MODE", .lockSongs),
    (insertSongText, .insertSong)]
    (by simp only [fixedKinds, insertSongText, List.cons_subset, List.nil_subset, List.mem_cons,
      true_or, or_true, and_self]) ?_
  unfold addHead addSeparator addTail insertSongText
  simp only [shapeOf, List.map_cons, List.map_nil, String.toList_append,
    -String.reduceAppend, -String.reduceToList]
  repeat rw [String.toList_ofList]
  decide +kernel

private theorem delete_readsAs :
    ReadsAs deleteHead [deleteTail] [.lockSongs, .deleteSong, .restartSongSeq, .renumberSongs] := by
  refine readsAs_of_fixed [("LOCK TABLE song_table IN ACCESS EXCLUSIVE MODE", .lockSongs),
    ("DELETE FROM song_table WHERE song_name = ''", .deleteSong),
    ("ALTER SEQUENCE song_seq RESTART", .restartSongSeq),
    ("UPDATE song_table SET ID = DEFAULT", .renumberSongs)]
    (by simp only [fixedKinds, List.cons_subset, List.nil_subset, List.mem_cons, true_or, or_true,
      and_self]) ?_
  unfold deleteHead deleteTail
  simp only [shapeOf, List.map_cons, List.map_nil, String.toList_append,
    -String.reduceAppend, -String.reduceToList]
  repeat rw [String.toList_ofList]
  decide +kernel

private theorem dirDel_readsAs :
    ReadsAs dirDelCommand [] [.lockSongs, .truncateSongs, .restartSongSeq, .renumberSongs] := by
  refine readsAs_of_fixed [("LOCK TABLE song_table IN ACCESS EXCLUSIVE MODE", .lockSongs),
    ("TRUNCATE song_table RESTART IDENTITY", .truncateSongs),
    ("ALTER SEQUENCE song_seq RESTART", .restartSongSeq),
    ("UPDATE song_table SET ID = DEFAULT", .renumberSongs)]
    (by simp only [fixedKinds, List.cons_subset, List.nil_subset, List.mem_cons, true_or, or_true,
      and_self]) ?_
  unfold dirDelCommand
  simp only [shapeOf, List.map_cons, List.map_nil, String.toList_append,
    -String.reduceAppend, -String.reduceToList]
  repeat rw [String.toList_ofList]
  decide +kernel

private theorem refresh_readsAs :
    ReadsAs refreshCommand [] [.lockSongs, .truncateSongs, .restartSongSeq] := by
  refine readsAs_of_fixed [("LOCK TABLE song_table IN ACCESS EXCLUSIVE MODE", .lockSongs),
    ("TRUNCATE song_table RESTART IDENTITY", .truncateSongs),
    ("ALTER SEQUENCE song_seq RESTART", .restartSongSeq)]
    (by simp only [fixedKinds, List.cons_subset, List.nil_subset, List.mem_cons, true_or, or_true,
      and_self]) ?_
  unfold refreshCommand
  simp only [shapeOf, List.map_cons, List.map_nil, String.toList_append,
    -String.reduceAppend, -String.reduceToList]
  repeat rw [String.toList_ofList]
  decide +kernel

theorem statementsOf_add (hash : Hash) {folder name : Text} (hfolder : SafeLiteral folder)
    (hname : SafeLiteral name) :
    statementsOf (addCommand hash folder (quoted name)) =
      some [.lockSongs, .insertSong name (decimal (hash (quoted name)).toNat) folder] := by
  have hrender : addCommand hash folder (quoted name) =
      render addHead [(name, addSeparator), (decimal (hash (quoted name)).toNat, addSeparator),
        (folder, addTail)] := by
    simp only [addCommand, render, quoted, List.append_assoc, List.cons_append, List.nil_append]
  rw [hrender]
  apply statementsOf_render add_readsAs
  · simp [hname, hfolder, decimal_safe]
  · rfl

theorem statementsOf_delete {name : Text} (hname : SafeLiteral name) :
    statementsOf (deleteCommand (quoted name)) =
      some [.lockSongs, .deleteSong name, .restartSongSeq, .renumberSongs] := by
  have hrender : deleteCommand (quoted name) = render deleteHead [(name, deleteTail)] := by
    simp only [deleteCommand, render, quoted, List.append_assoc, List.cons_append, List.nil_append]
  rw [hrender]
  apply statementsOf_render delete_readsAs
  · simp [hname]
  · rfl

theorem statementsOf_dirDel : statementsOf dirDelCommand =
    some [.lockSongs, .truncateSongs, .restartSongSeq, .renumberSongs] :=
  statementsOf_fixed dirDel_readsAs rfl

theorem statementsOf_refresh :
    statementsOf refreshCommand = some [.lockSongs, .truncateSongs, .restartSongSeq] :=
  statementsOf_fixed refresh_readsAs rfl

/-! ## What the commands do to the catalogue -/

/-- The changes of the catalogue that a command stands for; a rejected command has none. -/
def commandOps (command : Text) : List (BagOp Text) :=
  match statementsOf command with
  | some ss => ss.flatMap Statement.bagOp
  | none => []

theorem execCommand_songNames (choice : Choice) (db : Db) (command : Text) :
    (execCommand choice db command).songNames =
      BagOp.applyAll (commandOps command) db.songNames := by
  cases h : statementsOf command with
  | none => simp [execCommand, runCommand, commandOps, h, BagOp.applyAll]
  | some ss =>
    simp only [execCommand, runCommand, commandOps, h, Option.map_some]
    exact execAll_songNames choice ss db

/-- Commands that are carried out one after the other. -/
def execCommands (choice : Choice) (db : Db) (commands : List Text) : Db :=
  commands.foldl (execCommand choice) db

theorem execCommands_songNames (choice : Choice) (db : Db) (commands : List Text) :
    (execCommands choice db commands).songNames =
      BagOp.applyAll (commands.flatMap commandOps) db.songNames := by
  induction commands generalizing db with
  | nil => rfl
  | cons command commands ih =>
    have hrest := ih (execCommand choice db command)
    rw [List.flatMap_cons, BagOp.applyAll_append, ← execCommand_songNames choice]
    exact hrest

theorem commandOps_add (hash : Hash) {folder name : Text} (hfolder : SafeLiteral folder)
    (hname : SafeLiteral name) :
    commandOps (addCommand hash folder (quoted name)) = [.add name] := by
  rw [commandOps, statementsOf_add hash hfolder hname]
  rfl

theorem commandOps_delete {name : Text} (hname : SafeLiteral name) :
    commandOps (deleteCommand (quoted name)) = [.drop name] := by
  rw [commandOps, statementsOf_delete hname]
  rfl

theorem commandOps_refresh : commandOps refreshCommand = [.clear] := by
  rw [commandOps, statementsOf_refresh]
  rfl

theorem commandOps_dirDel : commandOps dirDelCommand = [.clear] := by
  rw [commandOps, statementsOf_dirDel]
  rfl

/-- The command of a call changes the catalogue as the call says. -/
theorem commandOps_watchCall (hash : Hash) (c : WatchCall) :
    commandOps (c.command hash) = [c.bagOp] := by
  obtain ⟨⟨folder, hfolder⟩, event, ⟨name, hname⟩⟩ := c
  cases event with
  | add => exact commandOps_add hash hfolder hname
  | delete => exact commandOps_delete hname
  | dirDel => exact commandOps_dirDel

theorem execCommand_watchCall (hash : Hash) (c : WatchCall) (choice : Choice) (db : Db) :
    (execCommand choice db (c.command hash)).songNames = c.bagOp.apply db.songNames := by
  rw [execCommand_songNames, commandOps_watchCall]
  rfl

end PetProject.Handler
