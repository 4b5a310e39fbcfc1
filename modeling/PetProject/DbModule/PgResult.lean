import PetProject.Framework.SqlText

/-!
# Results of the database

`PG_result` around the `PGresult` of libpq, which may be a null pointer. Whether a command has
succeeded is read off the name of its status, and a value is read from the tuples without a look
at it.
-/

namespace PetProject.DbModule

open Framework

/-- `ExecStatusType`. -/
inductive ExecStatus
  | emptyQuery
  | commandOk
  | tuplesOk
  | copyOut
  | copyIn
  | badResponse
  | nonfatalError
  | fatalError
  | copyBoth
  | singleTuple
  | pipelineSync
  | pipelineAborted
  deriving DecidableEq, Repr

/-- `PQresStatus`. -/
def pqResStatus : ExecStatus → String
  | .emptyQuery => "PGRES_EMPTY_QUERY"
  | .commandOk => "PGRES_COMMAND_OK"
  | .tuplesOk => "PGRES_TUPLES_OK"
  | .copyOut => "PGRES_COPY_OUT"
  | .copyIn => "PGRES_COPY_IN"
  | .badResponse => "PGRES_BAD_RESPONSE"
  | .nonfatalError => "PGRES_NONFATAL_ERROR"
  | .fatalError => "PGRES_FATAL_ERROR"
  | .copyBoth => "PGRES_COPY_BOTH"
  | .singleTuple => "PGRES_SINGLE_TUPLE"
  | .pipelineSync => "PGRES_PIPELINE_SYNC"
  | .pipelineAborted => "PGRES_PIPELINE_ABORTED"

/-- What libpq knows of a command; a field that is NULL has the empty text as its value. -/
structure PGresult where
  status : ExecStatus
  nFields : Nat
  tuples : List (List Text)
  errorMessage : Text
  deriving DecidableEq, Repr

/-- The accessors of libpq; `none` is the null pointer, as argument and as value. -/
def pqResultStatus (res : Option PGresult) : ExecStatus := res.elim .fatalError PGresult.status

def pqNfields (res : Option PGresult) : Nat := res.elim 0 PGresult.nFields

def pqNtuples (res : Option PGresult) : Nat := res.elim 0 fun r => r.tuples.length

def pqResultErrorMessage (res : Option PGresult) : Text := res.elim [] PGresult.errorMessage

def pqGetvalue (res : Option PGresult) (row field : Nat) : Option Text :=
  res.bind fun r => r.tuples[row]?.bind fun tuple => tuple[field]?

/-- `PG_result`. -/
structure PgResult where
  result : Option PGresult
  dbName : Text
  success : Bool
  nFields : Nat
  nTuples : Nat
  deriving DecidableEq, Repr

namespace PgResult

def notSucceed : List String :=
  ["PGRES_EMPTY_QUERY", "PGRES_BAD_RESPONSE", "PGRES_NONFATAL_ERROR", "PGRES_FATAL_ERROR"]

/-- The constructor of `PG_result`. -/
def make (res : Option PGresult) (dbName : Text) : PgResult :=
  if pqResStatus (pqResultStatus res) ∈ notSucceed then ⟨res, dbName, false, 0, 0⟩
  else ⟨res, dbName, true, pqNfields res, pqNtuples res⟩

/-- `get_result_single`. -/
def getResultSingle (r : PgResult) : Option Text := pqGetvalue r.result 0 0

/-- `res_error`. -/
def resError (r : PgResult) : Text := pqResultErrorMessage r.result

@[simp] theorem make_result (res : Option PGresult) (dbName : Text) :
    (make res dbName).result = res := by
  unfold make
  split <;> rfl

@[simp] theorem make_dbName (res : Option PGresult) (dbName : Text) :
    (make res dbName).dbName = dbName := by
  unfold make
  split <;> rfl

theorem make_success (res : Option PGresult) (dbName : Text) :
    (make res dbName).success = true ↔ pqResStatus (pqResultStatus res) ∉ notSucceed := by
  unfold make
  split <;> simp_all

theorem make_null (dbName : Text) : (make none dbName).success = false := by
  rw [← Bool.not_eq_true, make_success]
  decide

end PgResult

end PetProject.DbModule
