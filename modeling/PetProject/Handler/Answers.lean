import PetProject.Handler.LogTable

/-!
# What the handler makes of a request

`Server_HTTP_handler::handle`, one call, over whatever the database answers to its commands: the
record in the log table, the two tables as text, and the lookup of a file. An answer may be an
error; of the texts in the request vector the handler writes only `REQ_TARGET`, `REQ_RESULT` and
`REQ_ERROR`.
-/

namespace PetProject.Handler

open Framework Database

/-- `PG_result::get_result_single`; `none` is the null pointer that `PQgetvalue` gives for a result
without rows. -/
def PgResult.single (res : PgResult) : Option Text :=
  match res.error, res.rows with
  | none, (value :: _) :: _ => some value
  | _, _ => none

/-- One call of `update_log_table` that finds `nrows` in `log_table_nrows`: the count and the
vector that it leaves behind. `none` when `std::atoi` receives a null pointer. -/
def updateLogTable (answer : Text → PgResult) (rowsLimit rowsDelete : Nat) (nrows : Int)
    (info : ReqInfo) : Option (Int × ReqInfo) :=
  let trimmed : Option Int :=
    if nrows > rowsLimit then (answer (trimCommand rowsDelete)).single.map atoi else some nrows
  trimmed.map fun n =>
    let res := answer (insertCommand info)
    match res.error with
    | some error => (n, { info with error := info.error ++ updateError res.dbName error })
    | none => (increment n, info)

/-! ## Tables as text -/

/-- The width of a column: that of its widest cell. -/
def columnWidth (table : List (List Text)) (j : Nat) : Nat :=
  table.foldl (fun width row => max width (row.getD j []).length) 0

/-- One line of a table; the last column is not padded. -/
def tableLine (widths : List Nat) (row : List Text) : Text :=
  (widths.zipIdx.flatMap fun column =>
      row.getD column.2 [] ++
        List.replicate (column.1 - (row.getD column.2 []).length + 2) ' ') ++
    row.getD widths.length [] ++ ['\n']

/-- `forming_tables_helper` on a container whose first row is the header. -/
def formingTablesHelper (table : List (List Text)) (info : ReqInfo) : ReqInfo :=
  let nColumns := (table.headD []).length - 1
  let widths := (List.range nColumns).map (columnWidth table)
  { info with result := info.result ++ table.flatMap (tableLine widths) }

def filesCommand : Text :=
  ("LOCK TABLE song_table IN SHARE MODE; " ++
    "SELECT id, song_name, song_uid FROM song_table ORDER BY id").toList

def logCommand : Text :=
  "LOCK TABLE log_table IN SHARE MODE; SELECT * FROM log_table ORDER BY id".toList

/-- The column names of the two queries. -/
def filesHeader : List Text := ["id".toList, "song_name".toList, "song_uid".toList]

def logHeader : List Text :=
  ["id".toList, "requested_host".toList, "port".toList, "ip".toList, "user_agent".toList,
    "rest_method".toList, "target".toList, "req_date_time".toList]

def formingFilesTable (answer : Text → PgResult) (info : ReqInfo) : ReqInfo :=
  let res := answer filesCommand
  match res.error, res.rows with
  | some error, _ =>
    { info with error := info.error ++ "Database ".toList ++ res.dbName ++
        " error while forming files table: ".toList ++ error }
  | none, [] => { info with result := "No files available at that moment\n".toList }
  | none, rows => formingTablesHelper (filesHeader :: rows) info

def formingLogTable (answer : Text → PgResult) (info : ReqInfo) : ReqInfo :=
  let res := answer logCommand
  match res.error, res.rows with
  | some error, _ =>
    { info with error := info.error ++ "Database ".toList ++ res.dbName ++
        " error while forming log table: ".toList ++ error }
  | none, [] =>
    { info with result := info.result ++ "Log table have no records at that moment\n".toList }
  | none, rows => formingTablesHelper (logHeader :: rows) info

/-! ## The targets -/

/-- What `Server_HTTP_handler::handle` takes a target for. -/
inductive TargetKind
  | bothTables
  | filesTable
  | logTable
  | file
  deriving DecidableEq, Repr

def targetKind (target : Text) : TargetKind :=
  if target = [] ∨ target = ['/'] then .bothTables
  else if target = "files_table".toList ∨ target = "Files_table".toList then .filesTable
  else if target = "log_table".toList ∨ target = "Log_table".toList then .logTable
  else .file

/-- `Server_HTTP_handler`, between two calls. -/
structure ServerHttpHandler where
  rowsLimit : Nat
  rowsDelete : Nat
  logTableNrows : Int

/-- The part of `Server_HTTP_handler::handle` that follows the record in the log table: whether the
request is for a file, and the vector. -/
def answerTarget (answer : Text → PgResult) (info : ReqInfo) : Bool × ReqInfo :=
  match targetKind info.target with
  | .bothTables => (false, formingLogTable answer (formingFilesTable answer info))
  | .filesTable => (false, formingFilesTable answer info)
  | .logTable => (false, formingLogTable answer info)
  | .file => (true, (getFileUri answer info).2)

/-- `Server_HTTP_handler::handle`. -/
def ServerHttpHandler.handle (h : ServerHttpHandler) (answer : Text → PgResult) (info : ReqInfo) :
    Option (Bool × ReqInfo) :=
  (updateLogTable answer h.rowsLimit h.rowsDelete h.logTableNrows info).map fun logged =>
    answerTarget answer logged.2

/-! ## The commands are told apart by their fixed heads -/

private theorem append_ne_append {p q : Text} (k : Nat) (hp : k < p.length) (hq : k < q.length)
    (hne : p[k]? ≠ q[k]?) (s t : Text) : p ++ s ≠ q ++ t := by
  intro h
  have hk : (p ++ s)[k]? = (q ++ t)[k]? := by rw [h]
  rw [List.getElem?_append_left hp, List.getElem?_append_left hq] at hk
  exact hne hk

theorem uidCommand_ne_nameCommand (target target' : Text) :
    uidCommand target ≠ nameCommand target' := by
  unfold uidCommand nameCommand
  rw [List.append_assoc, List.append_assoc]
  have hheads : 54 < uidHead.length ∧ 54 < nameHead.length ∧ uidHead[54]? ≠ nameHead[54]? := by
    unfold uidHead nameHead
    repeat rw [String.toList_ofList]
    decide +kernel
  exact append_ne_append 54 hheads.1 hheads.2.1 hheads.2.2 _ _

private theorem insertCommand_eq (info : ReqInfo) : ∃ rest, insertCommand info = insertHead ++ rest :=
  ⟨_, by unfold insertCommand; simp only [List.append_assoc]; rfl⟩

theorem trimCommand_ne_insertCommand (n : Nat) (info : ReqInfo) :
    trimCommand n ≠ insertCommand info := by
  obtain ⟨rest, hrest⟩ := insertCommand_eq info
  rw [hrest]
  unfold trimCommand
  rw [List.append_assoc]
  have hheads : 47 < trimHead.length ∧ 47 < insertHead.length ∧ trimHead[47]? ≠ insertHead[47]? := by
    unfold trimHead insertHead
    simp only [String.toList_append, -String.reduceAppend, -String.reduceToList]
    repeat rw [String.toList_ofList]
    decide +kernel
  exact append_ne_append 47 hheads.1 hheads.2.1 hheads.2.2 _ _

theorem nameCommand_ne_insertCommand (target : Text) (info : ReqInfo) :
    nameCommand target ≠ insertCommand info := by
  obtain ⟨rest, hrest⟩ := insertCommand_eq info
  rw [hrest]
  unfold nameCommand
  rw [List.append_assoc]
  have hheads : 0 < nameHead.length ∧ 0 < insertHead.length ∧ nameHead[0]? ≠ insertHead[0]? := by
    unfold nameHead insertHead
    simp only [String.toList_append, -String.reduceAppend, -String.reduceToList]
    repeat rw [String.toList_ofList]
    decide +kernel
  exact append_ne_append 0 hheads.1 hheads.2.1 hheads.2.2 _ _

theorem uidCommand_ne_insertCommand (target : Text) (info : ReqInfo) :
    uidCommand target ≠ insertCommand info := by
  obtain ⟨rest, hrest⟩ := insertCommand_eq info
  rw [hrest]
  unfold uidCommand
  rw [List.append_assoc]
  have hheads : 0 < uidHead.length ∧ 0 < insertHead.length ∧ uidHead[0]? ≠ insertHead[0]? := by
    unfold uidHead insertHead
    simp only [String.toList_append, -String.reduceAppend, -String.reduceToList]
    repeat rw [String.toList_ofList]
    decide +kernel
  exact append_ne_append 0 hheads.1 hheads.2.1 hheads.2.2 _ _

end PetProject.Handler
