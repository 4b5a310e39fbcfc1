import PetProject.DbModule.PgResult
import PetProject.Handler.Answers

/-!
# A trim that fails

One call of `update_log_table`, action by action, over the results that libpq hands out. When the
trim has failed the call makes a record of it and then goes on to convert the value of its result.
The call is harmless exactly when there is a value.
-/

namespace PetProject.Handler

open Framework Database

/-- What a call does, in order; `none` is the null pointer. -/
inductive LogAction
  | execCommand (command : Text) (outOfTurn : Bool)
  | makeRecord (message : Text)
  | atoi (value : Option Text)
  | compareExchange (expected desired : Int)
  | increment
  deriving DecidableEq, Repr

/-- The actions of a call and what it leaves behind; it has not returned when it ends in
`std::atoi`. -/
structure LogCall where
  actions : List LogAction
  logTableNrows : Int
  reqInfo : ReqInfo
  returned : Bool
  deriving DecidableEq, Repr

def trimMessage (command : Text) (res : DbModule.PgResult) : Text :=
  "Database ".toList ++ res.dbName ++ " error: ".toList ++ res.resError ++
    ", executing: ".toList ++ command ++ " query\n".toList

/-- The first half of `update_log_table`, with the count that it leaves. -/
def trimRecords (logger : Bool) (rowsDelete : Nat) (nrows : Int) (res : DbModule.PgResult) :
    List LogAction × Option Int :=
  let command := trimCommand rowsDelete
  let recorded : List LogAction :=
    if res.success = false ∧ logger then [.makeRecord (trimMessage command res)] else []
  match res.getResultSingle with
  | none => (.execCommand command true :: recorded ++ [.atoi none], none)
  | some value =>
    (.execCommand command true :: recorded ++
      [.atoi (some value), .compareExchange nrows (atoi value)], some (atoi value))

/-- The second half of `update_log_table`. -/
def insertRecord (nrows : Int) (res : DbModule.PgResult) (info : ReqInfo) : LogCall :=
  if res.success then
    ⟨[.execCommand (insertCommand info) false, .increment], increment nrows, info, true⟩
  else
    ⟨[.execCommand (insertCommand info) false], nrows,
      { info with error := info.error ++ updateError res.dbName res.resError }, true⟩

/-- `Server_HTTP_handler::update_log_table`, undisturbed by other calls. -/
def callUpdateLogTable (logger : Bool) (rowsLimit rowsDelete : Nat) (nrows : Int)
    (trim insert : DbModule.PgResult) (info : ReqInfo) : LogCall :=
  let trimmed : List LogAction × Option Int :=
    if nrows > rowsLimit then trimRecords logger rowsDelete nrows trim else ([], some nrows)
  match trimmed.2 with
  | none => ⟨trimmed.1, nrows, info, false⟩
  | some n =>
    let inserted := insertRecord n insert info
    { inserted with actions := trimmed.1 ++ inserted.actions }

/-! ## The outcomes of a trim -/

/-- A value, an error result without rows, or no result at all. -/
inductive TrimOutcome
  | value (text : Text)
  | error (status : DbModule.ExecStatus) (message : Text)
      (failed : DbModule.pqResStatus status ∈ DbModule.PgResult.notSucceed)
  | null

def TrimOutcome.result (dbName : Text) : TrimOutcome → DbModule.PgResult
  | .value text => .make (some ⟨.tuplesOk, 1, [[text]], []⟩) dbName
  | .error status message _ => .make (some ⟨status, 0, [], message⟩) dbName
  | .null => .make none dbName

private theorem TrimOutcome.result_spec (dbName : Text) (outcome : TrimOutcome) :
    (∃ text, outcome = .value text ∧ (outcome.result dbName).success = true ∧
        (outcome.result dbName).getResultSingle = some text) ∨
      (∀ text, outcome ≠ .value text) ∧ (outcome.result dbName).success = false ∧
        (outcome.result dbName).getResultSingle = none := by
  cases outcome with
  | value text =>
    refine Or.inl ⟨text, rfl, ?_, ?_⟩
    · have hsucceeds : DbModule.pqResStatus .tuplesOk ∉ DbModule.PgResult.notSucceed := by decide
      exact (DbModule.PgResult.make_success _ _).mpr hsucceeds
    · simp [result, DbModule.PgResult.getResultSingle, DbModule.pqGetvalue]
  | error status message failed =>
    refine Or.inr ⟨nofun, ?_, ?_⟩
    · rw [← Bool.not_eq_true, result, DbModule.PgResult.make_success]
      exact not_not.mpr failed
    · simp [result, DbModule.PgResult.getResultSingle, DbModule.pqGetvalue]
  | null =>
    refine Or.inr ⟨nofun, DbModule.PgResult.make_null dbName, ?_⟩
    simp [result, DbModule.PgResult.getResultSingle, DbModule.pqGetvalue]

/-- A result as it is answered to a command. -/
def answerOf (res : DbModule.PgResult) : PgResult :=
  ⟨res.dbName, if res.success then none else some res.resError,
    (res.result.elim [] DbModule.PGresult.tuples)⟩

private theorem answerOf_single (dbName : Text) (outcome : TrimOutcome) :
    (answerOf (outcome.result dbName)).single = (outcome.result dbName).getResultSingle := by
  rcases outcome.result_spec dbName with ⟨text, rfl, hsuccess, hvalue⟩ | ⟨-, hfailed, hvalue⟩
  · rw [hvalue, answerOf, hsuccess]
    simp [PgResult.single, TrimOutcome.result]
  · rw [hvalue, answerOf, hfailed]
    simp [PgResult.single]

/-- The call is that of `updateLogTable`, over the answers that the results amount to. -/
theorem callUpdateLogTable_eq {answer : Text → PgResult} {rowsDelete : Nat} {dbName : Text}
    {outcome : TrimOutcome} {insert : DbModule.PgResult} {info : ReqInfo}
    (htrim : answer (trimCommand rowsDelete) = answerOf (outcome.result dbName))
    (hinsert : answer (insertCommand info) = answerOf insert) (logger : Bool) (rowsLimit : Nat)
    (nrows : Int) :
    let call := callUpdateLogTable logger rowsLimit rowsDelete nrows (outcome.result dbName) insert
      info
    updateLogTable answer rowsLimit rowsDelete nrows info =
      if call.returned then some (call.logTableNrows, call.reqInfo) else none := by
  have hrecord : ∀ n actions, (let inserted := insertRecord n insert info
      let call : LogCall := { inserted with actions := actions ++ inserted.actions }
      if call.returned then some (call.logTableNrows, call.reqInfo) else none) =
        some ((answerOf insert).error.elim (increment n, info) fun error =>
          (n, { info with error := info.error ++ updateError (answerOf insert).dbName error })) := by
    intro n actions
    unfold insertRecord answerOf
    cases insert.success <;> rfl
  unfold updateLogTable callUpdateLogTable
  dsimp only
  rw [hinsert, htrim, answerOf_single]
  by_cases hlimit : nrows > rowsLimit
  · rw [if_pos hlimit, if_pos hlimit]
    unfold trimRecords
    cases (outcome.result dbName).getResultSingle with
    | none => rfl
    | some value =>
      refine Eq.trans ?_ (hrecord _ _).symm
      rw [Option.map_some, Option.map_some]
      cases (answerOf insert).error <;> rfl
  · rw [if_neg hlimit, if_neg hlimit]
    refine Eq.trans ?_ (hrecord _ _).symm
    rw [Option.map_some]
    cases (answerOf insert).error <;> rfl

/-- The call converts a value that is there, keeps the count when the trim has failed, and inserts
the record of the request. -/
structure Harmless (nrows : Int) (trim insert : DbModule.PgResult) (info : ReqInfo)
    (call : LogCall) : Prop where
  converts : LogAction.atoi none ∉ call.actions
  counter : trim.success = false → call.logTableNrows = (insertRecord nrows insert info).logTableNrows
  inserts : LogAction.execCommand (insertCommand info) false ∈ call.actions

section Trim

variable (logger : Bool) (rowsLimit rowsDelete : Nat) (dbName : Text) (insert : DbModule.PgResult)
  (info : ReqInfo)

private theorem insertRecord_inserts (n : Int) :
    LogAction.execCommand (insertCommand info) false ∈ (insertRecord n insert info).actions ∧
      LogAction.atoi none ∉ (insertRecord n insert info).actions := by
  unfold insertRecord
  cases insert.success <;> simp

/-- A call that trims is harmless exactly when the trim has succeeded with a value. -/
theorem failed_trim_harmless_iff {nrows : Int} (hlimit : rowsLimit < nrows)
    (outcome : TrimOutcome) :
    Harmless nrows (outcome.result dbName) insert info (callUpdateLogTable logger rowsLimit
        rowsDelete nrows (outcome.result dbName) insert info) ↔
      ∃ text, outcome = .value text := by
  unfold callUpdateLogTable
  rw [if_pos hlimit]
  unfold trimRecords
  rcases outcome.result_spec dbName with ⟨text, rfl, hsuccess, hvalue⟩ | ⟨hno, hfailed, hvalue⟩
  · refine iff_of_true ?_ ⟨text, rfl⟩
    obtain ⟨hinserts, hconverts⟩ := insertRecord_inserts insert info (atoi text)
    rw [hvalue]
    constructor
    · simp [hconverts, hsuccess]
    · simp [hsuccess]
    · simp [hinserts]
  · refine iff_of_false (fun hharmless => ?_) fun ⟨text, htext⟩ => hno text htext
    have hconverts := hharmless.converts
    rw [hvalue] at hconverts
    simp at hconverts

end Trim

theorem failed_trim_harmless_value :
    Harmless 3 ((TrimOutcome.value ['2']).result []) (.make none []) .blank
      (callUpdateLogTable true 2 1 3 ((TrimOutcome.value ['2']).result []) (.make none []) .blank) :=
  (failed_trim_harmless_iff true 2 1 [] (.make none []) .blank (by decide) (.value ['2'])).mpr
    ⟨['2'], rfl⟩

/-- The connection is lost while the table is trimmed. -/
theorem failed_trim_converts_null :
    ¬∀ (logger : Bool) (rowsLimit rowsDelete : Nat) (dbName : Text) (insert : DbModule.PgResult)
        (info : ReqInfo) (nrows : Int) (outcome : TrimOutcome), (rowsLimit : Int) < nrows →
      Harmless nrows (outcome.result dbName) insert info (callUpdateLogTable logger rowsLimit
        rowsDelete nrows (outcome.result dbName) insert info) := by
  intro hclaim
  have hharmless := hclaim true 2 1 [] (.make none []) .blank 3 .null (by decide)
  exact hharmless.converts (by decide +kernel)

end PetProject.Handler
