import PetProject.Handler.Lookup
import PetProject.ServerHttp.HandleRequest

/-!
# The file service

`Handle_request::handle` with a `Server_HTTP_handler` behind it. The status of an answer is read
off the first word of `REQ_ERROR`, which the record in the log table, the tables and the lookup
have written to in turn.
-/

namespace PetProject.ServerHttp

open Framework Database Handler

/-- The answers of a server whose handler finds the given answers of the database. -/
def Server.serve (server : Server) (handler : ServerHttpHandler) (answer : Text → PgResult)
    (req : Request) : Option (List Response) :=
  server.handle (handler.handle answer) req

/-- The target that the handler sees. -/
def Request.handlerTarget (req : Request) : Text := req.target.drop 1

/-! ## The record in the log table -/

/-- `update_log_table` comes to its `INSERT`: there is nothing to trim, or the trim yields a
value. -/
def ComesToInsert (handler : ServerHttpHandler) (answer : Text → PgResult) : Prop :=
  handler.logTableNrows ≤ handler.rowsLimit ∨ (answer (trimCommand handler.rowsDelete)).single ≠ none

private theorem comesToInsert_iff (handler : ServerHttpHandler) (answer : Text → PgResult)
    (info : ReqInfo) : ComesToInsert handler answer ↔
      updateLogTable answer handler.rowsLimit handler.rowsDelete handler.logTableNrows info ≠
        none := by
  unfold ComesToInsert updateLogTable
  by_cases hlimit : handler.logTableNrows > handler.rowsLimit
  · simp [hlimit, Int.not_le.mpr hlimit]
  · simp [hlimit, Int.not_lt.mp hlimit]

private theorem logged_of_updateLogTable {answer : Text → PgResult} {rowsLimit rowsDelete : Nat}
    {nrows : Int} {peer : Peer} {req : HttpRequest} {logged : Int × ReqInfo}
    (h : updateLogTable answer rowsLimit rowsDelete nrows (handlerVectorFill peer req) =
      some logged) : logged.2.Logged ∧ logged.2.target = req.target.drop 1 := by
  obtain ⟨n, -, rfl⟩ := Option.map_eq_some_iff.mp h
  dsimp only
  split
  · exact ⟨⟨rfl, Or.inr ⟨_, _, rfl⟩⟩, rfl⟩
  · exact ⟨⟨rfl, Or.inl rfl⟩, rfl⟩

/-! ## The first word of an error -/

private theorem not_prefix_of_head {p t : Text} {c d : Char} (hp : p.head? = some c)
    (ht : t.head? = some d) (hcd : c ≠ d) : ¬p <+: t := by
  rintro ⟨rest, rfl⟩
  rw [List.head?_append, hp, Option.some_or] at ht
  exact hcd (Option.some.inj ht)

private theorem head_newline {t : Text} {c : Char} (ht : t.head? = some c) :
    (t ++ ['\n']).head? = some c := by
  rw [List.head?_append, ht, Option.some_or]

theorem errorStatus_several (target : Text) :
    Server.errorStatus (severalFilesError target ++ ['\n']) = .multipleChoices := by
  have hhead := head_newline (severalFilesError_head target)
  have hillegal : "Illegal request".toList.head? = some 'I' := by decide +kernel
  have hword : "Several files match the requested target(".toList =
      "Several".toList ++ " files match the requested target(".toList := by
    decide +kernel
  have hseveral : "Several".toList <+: severalFilesError target ++ ['\n'] := by
    unfold severalFilesError
    rw [hword]
    simp only [List.append_assoc]
    exact List.prefix_append _ _
  unfold Server.errorStatus
  rw [if_neg (not_prefix_of_head hillegal hhead (by decide)), if_pos hseveral]

theorem errorStatus_notFound (target : Text) :
    Server.errorStatus (notFoundError target ++ ['\n']) = .notFound := by
  have hhead := head_newline (notFoundError_head target)
  have hillegal : "Illegal request".toList.head? = some 'I' := by decide +kernel
  have hseveral : "Several".toList.head? = some 'S' := by decide +kernel
  have hdatabase : "Database".toList.head? = some 'D' := by decide +kernel
  unfold Server.errorStatus
  rw [if_neg (not_prefix_of_head hillegal hhead (by decide)),
    if_neg (not_prefix_of_head hseveral hhead (by decide)),
    if_neg (not_prefix_of_head hdatabase hhead (by decide))]

private theorem errorStatus_database (text : Text) :
    Server.errorStatus ("Database ".toList ++ text) = .internalServerError := by
  have hword : "Database ".toList = "Database".toList ++ [' '] := by decide +kernel
  have hhead : ("Database ".toList ++ text).head? = some 'D' := by
    have hfirst : "Database ".toList.head? = some 'D' := by decide +kernel
    rw [List.head?_append, hfirst, Option.some_or]
  have hillegal : "Illegal request".toList.head? = some 'I' := by decide +kernel
  have hseveral : "Several".toList.head? = some 'S' := by decide +kernel
  have hdatabase : "Database".toList <+: "Database ".toList ++ text := by
    rw [hword, List.append_assoc]
    exact List.prefix_append _ _
  unfold Server.errorStatus
  rw [if_neg (not_prefix_of_head hillegal hhead (by decide)),
    if_neg (not_prefix_of_head hseveral hhead (by decide)), if_pos hdatabase]

private theorem errorStatus_illegal :
    Server.errorStatus ("Illegal request-target".toList ++ ['\n']) = .badRequest := by
  decide +kernel

/-! ## The status of a file request -/

/-- The status of an answer to a lookup that ends in the given way. -/
def Server.lookupStatus (server : Server) : LookupOutcome → Status
  | .failed => .internalServerError
  | .several => .multipleChoices
  | .notFound => .notFound
  | .found row =>
    match server.openFile (row.getD 1 [] ++ '/' :: row.getD 0 []) with
    | .ok _ => .ok
    | .error _ => .internalServerError

section Respond

variable (server : Server) {req : Request} {info out : ReqInfo}

private theorem respond_error (req : Request) (hresult : out.result = []) :
    ∃ res, server.respond req true out = [res] ∧
      res.status = Server.errorStatus (out.error ++ ['\n']) := by
  refine ⟨server.stringBodyRes req (Server.errorStatus (out.error ++ ['\n']))
    (out.error ++ ['\n']), ?_, rfl⟩
  simp only [Server.respond, Bool.true_eq_false, if_false, hresult, if_true]

private theorem respond_found (hverb : req.verb ≠ .other) (hresult : out.result ≠ []) :
    ∃ res, server.respond req true out = [res] ∧
      res.status = match server.openFile out.result with
        | .ok _ => .ok
        | .error _ => .internalServerError := by
  simp only [Server.respond, Bool.true_eq_false, if_false, hresult]
  cases hopen : server.openFile out.result with
  | error message => exact ⟨_, rfl, rfl⟩
  | ok body =>
    cases hmethod : req.verb with
    | get => exact ⟨_, rfl, rfl⟩
    | head => exact ⟨_, rfl, rfl⟩
    | other => exact absurd hmethod hverb

private theorem respond_leaves (hverb : req.verb ≠ .other) (hinfo : info.Logged) {o : LookupOutcome}
    (hout : o.Leaves info out) :
    ∃ res, server.respond req true out = [res] ∧ res.status = server.lookupStatus o := by
  cases o with
  | failed =>
    obtain ⟨hresult, text, herror⟩ := hout
    obtain ⟨res, hres, hstatus⟩ := respond_error server req (hresult.trans hinfo.1)
    refine ⟨res, hres, hstatus.trans ?_⟩
    rcases hinfo.2 with hempty | ⟨dbName, resError, hlog⟩
    · rw [herror, hempty, List.nil_append, List.append_assoc]
      exact errorStatus_database _
    · have hfirst : out.error ++ ['\n'] = "Database ".toList ++
          (dbName ++ " error while updating log table: ".toList ++ resError ++
            "Database ".toList ++ text ++ ['\n']) := by
        rw [herror, hlog]
        unfold updateError
        simp only [List.append_assoc]
      rw [hfirst]
      exact errorStatus_database _
  | several =>
    obtain ⟨hresult, target, herror⟩ := hout
    obtain ⟨res, hres, hstatus⟩ := respond_error server req (hresult.trans hinfo.1)
    refine ⟨res, hres, hstatus.trans ?_⟩
    rw [herror]
    exact errorStatus_several target
  | notFound =>
    obtain ⟨hresult, target, herror⟩ := hout
    obtain ⟨res, hres, hstatus⟩ := respond_error server req (hresult.trans hinfo.1)
    refine ⟨res, hres, hstatus.trans ?_⟩
    rw [herror]
    exact errorStatus_notFound target
  | found row =>
    obtain ⟨hresult, -, -⟩ := hout
    obtain ⟨res, hres, hstatus⟩ := respond_found server hverb
      (show out.result ≠ [] by simp [hresult])
    refine ⟨res, hres, hstatus.trans ?_⟩
    rw [hresult]
    rfl

private theorem respond_file (hverb : req.verb ≠ .other) (hinfo : info.Logged) (answer : Text → PgResult) :
    ∃ res, server.respond req true (getFileUri answer info).2 = [res] ∧
      res.status = if illegalTarget info.target then .badRequest
        else server.lookupStatus
          (lookupOutcome (answer (nameCommand (wildcard info.target)))
            (answer (uidCommand (wildcard info.target)))) := by
  by_cases hillegal : illegalTarget info.target
  · have hout : (getFileUri answer info).2 =
        { info with error := "Illegal request-target".toList } := by
      unfold getFileUri
      rw [if_pos hillegal]
    rw [hout, if_pos hillegal]
    have hresult : { info with error := "Illegal request-target".toList }.result = [] := hinfo.1
    obtain ⟨res, hres, hstatus⟩ := respond_error server req hresult
    exact ⟨res, hres, hstatus.trans errorStatus_illegal⟩
  · rw [if_neg hillegal]
    exact respond_leaves server hverb hinfo (getFileUri_leaves answer hillegal)

end Respond

/-- The server handles a request by recording it and answering its target. -/
theorem serve_eq (server : Server) {req : Request} (hverb : req.verb ≠ .other)
    {handler : ServerHttpHandler} {answer : Text → PgResult}
    (hinsert : ComesToInsert handler answer) :
    ∃ info : ReqInfo, info.Logged ∧ info.target = req.handlerTarget ∧
      server.serve handler answer req = some (server.respond req (answerTarget answer info).1
        (answerTarget answer info).2) := by
  have hlogged := (comesToInsert_iff handler answer
    (handlerVectorFill server.peer req.toHttpRequest)).mp hinsert
  obtain ⟨logged, hlogged⟩ := Option.ne_none_iff_exists'.mp hlogged
  obtain ⟨hinfo, htarget⟩ := logged_of_updateLogTable hlogged
  refine ⟨logged.2, hinfo, htarget, ?_⟩
  rw [Server.serve, server.handle_of_verb hverb, ServerHttpHandler.handle, hlogged]
  rfl

private theorem serve_eq_none {server : Server} {req : Request} (hverb : req.verb ≠ .other)
    {handler : ServerHttpHandler} {answer : Text → PgResult}
    (hinsert : ¬ComesToInsert handler answer) : server.serve handler answer req = none := by
  have hlogged := (comesToInsert_iff handler answer
    (handlerVectorFill server.peer req.toHttpRequest)).not.mp hinsert
  rw [Server.serve, server.handle_of_verb hverb, ServerHttpHandler.handle, not_not.mp hlogged]
  rfl

private theorem serve_file (server : Server) {req : Request} (hverb : req.verb ≠ .other)
    (hfile : targetKind req.handlerTarget = .file) {handler : ServerHttpHandler}
    {answer : Text → PgResult} (hinsert : ComesToInsert handler answer) :
    ∃ res, server.serve handler answer req = some [res] ∧
      res.status = if illegalTarget req.handlerTarget then .badRequest
        else server.lookupStatus
          (lookupOutcome (answer (nameCommand (wildcard req.handlerTarget)))
            (answer (uidCommand (wildcard req.handlerTarget)))) := by
  obtain ⟨info, hinfo, htarget, hserve⟩ := serve_eq server hverb hinsert
  have hanswer : answerTarget answer info = (true, (getFileUri answer info).2) := by
    rw [answerTarget, htarget, hfile]
  obtain ⟨res, hres, hstatus⟩ := respond_file server hverb hinfo answer
  rw [htarget] at hstatus
  rw [hserve, hanswer, hres]
  exact ⟨res, rfl, hstatus⟩

/-! ## Failures of the database -/

/-- The queries whose rows the response to a target is built from. -/
def decidingQueries (answer : Text → PgResult) (target : Text) : List Text :=
  match targetKind target with
  | .bothTables => [filesCommand, logCommand]
  | .filesTable => [filesCommand]
  | .logTable => [logCommand]
  | .file =>
    let name := nameCommand (wildcard target)
    if illegalTarget target then []
    else if ConsultsUid (answer name) then [name, uidCommand (wildcard target)]
    else [name]

private theorem lookupFailed_iff (answer : Text → PgResult) {target : Text}
    (hfile : targetKind target = .file) :
    (∃ query ∈ decidingQueries answer target, (answer query).error ≠ none) ↔
      ¬illegalTarget target ∧ LookupFailed (answer (nameCommand (wildcard target)))
        (answer (uidCommand (wildcard target))) := by
  unfold decidingQueries LookupFailed
  rw [hfile]
  dsimp only
  split
  case isTrue hillegal => simp [hillegal]
  case isFalse hlegal =>
    split
    case isTrue hconsults => simp [hlegal, hconsults]
    case isFalse hconsults => simp [hlegal, hconsults]

private theorem respond_table (server : Server) {req : Request} (hverb : req.verb ≠ .other)
    (info : ReqInfo) : ∃ res, server.respond req false info = [res] ∧ res.status = .ok := by
  unfold Server.respond
  rw [if_pos rfl]
  cases hmethod : req.verb with
  | get => exact ⟨_, rfl, rfl⟩
  | head => exact ⟨_, rfl, rfl⟩
  | other => exact absurd hmethod hverb

private theorem answerTarget_fst (answer : Text → PgResult) (info : ReqInfo) :
    (answerTarget answer info).1 = decide (targetKind info.target = .file) := by
  unfold answerTarget
  cases targetKind info.target <;> rfl

/-- A failure of the database is answered as one exactly when there is none, or the request is for
a file and the server survives its record in the log table. -/
theorem database_failure_reported_iff (server : Server) (handler : ServerHttpHandler)
    (answer : Text → PgResult) (req : Request) (hverb : req.verb ≠ .other) :
    ((∃ query ∈ decidingQueries answer req.handlerTarget, (answer query).error ≠ none) →
        ∃ res, server.serve handler answer req = some [res] ∧
          res.status = .internalServerError ∧ res.status ≠ .ok) ↔
      (∀ query ∈ decidingQueries answer req.handlerTarget, (answer query).error = none) ∨
        targetKind req.handlerTarget = .file ∧ ComesToInsert handler answer := by
  by_cases hfailed : ∃ query ∈ decidingQueries answer req.handlerTarget, (answer query).error ≠ none
  case neg =>
    refine iff_of_true (fun h => absurd h hfailed) (Or.inl fun query hquery => ?_)
    by_contra hne
    exact hfailed ⟨query, hquery, hne⟩
  have hsucceeded : ¬∀ query ∈ decidingQueries answer req.handlerTarget,
      (answer query).error = none := by
    obtain ⟨query, hquery, hne⟩ := hfailed
    exact fun h => hne (h query hquery)
  simp only [hfailed, forall_const, hsucceeded, false_or]
  by_cases hinsert : ComesToInsert handler answer
  case neg =>
    refine iff_of_false ?_ fun h => hinsert h.2
    rintro ⟨res, hres, -⟩
    rw [serve_eq_none hverb hinsert] at hres
    exact nomatch hres
  by_cases hfile : targetKind req.handlerTarget = .file
  · -- the error of the lookup decides
    refine iff_of_true ?_ ⟨hfile, hinsert⟩
    obtain ⟨hlegal, hlookup⟩ := (lookupFailed_iff answer hfile).mp hfailed
    obtain ⟨res, hres, hstatus⟩ := serve_file server hverb hfile hinsert
    have houtcome := (lookupOutcome_failed_iff _ _).mpr hlookup
    rw [if_neg hlegal, houtcome] at hstatus
    exact ⟨res, hres, hstatus, by rw [hstatus]; exact nofun⟩
  · -- a table is sent as if nothing had happened
    refine iff_of_false ?_ fun h => hfile h.1
    rintro ⟨res, hres, hstatus, -⟩
    obtain ⟨info, hinfo, htarget, hserve⟩ := serve_eq server hverb hinsert
    obtain ⟨res', hres', hok⟩ := respond_table server hverb (answerTarget answer info).2
    rw [hserve, answerTarget_fst, htarget, decide_eq_false hfile, hres', Option.some.injEq] at hres
    rw [← List.singleton_inj.mp hres, hok] at hstatus
    exact nomatch hstatus

def getRequest (target : String) : Request :=
  ⟨⟨target.toList, "host".toList, "agent".toList, "GET".toList⟩, 11, true⟩

/-- A handler whose log table is far from its limit. -/
def calmHandler : ServerHttpHandler := ⟨10, 5, 0⟩

def databaseDown (_ : Text) : PgResult := ⟨"db".toList, some "down".toList, []⟩

theorem database_failure_reported_lookup :
    ∃ res, emptyServer.serve calmHandler databaseDown (getRequest "/a") = some [res] ∧
      res.status = .internalServerError ∧ res.status ≠ .ok := by
  have hfile : targetKind (getRequest "/a").handlerTarget = .file := by decide +kernel
  have hlegal : ¬illegalTarget (getRequest "/a").handlerTarget := by decide +kernel
  refine (database_failure_reported_iff emptyServer calmHandler databaseDown (getRequest "/a")
    (by decide +kernel)).mpr (Or.inr ⟨hfile, Or.inl (by decide)⟩) ?_
  exact (lookupFailed_iff databaseDown hfile).mpr ⟨hlegal, Or.inl nofun⟩

/-- With the database down, both tables are answered with an empty text and the status `ok`. -/
theorem tables_hide_database_failure :
    ¬∀ (server : Server) (handler : ServerHttpHandler) (answer : Text → PgResult) (req : Request),
      req.verb ≠ .other →
      (∃ query ∈ decidingQueries answer req.handlerTarget, (answer query).error ≠ none) →
        ∃ res, server.serve handler answer req = some [res] ∧
          res.status = .internalServerError ∧ res.status ≠ .ok := by
  intro hclaim
  have hkind : targetKind (getRequest "/").handlerTarget = .bothTables := by decide +kernel
  have hquery : filesCommand ∈ decidingQueries databaseDown (getRequest "/").handlerTarget := by
    rw [decidingQueries, hkind]
    exact List.mem_cons_self
  have hok : (emptyServer.serve calmHandler databaseDown (getRequest "/")).any
      (fun sent => sent.all fun res => res.status = .ok) = true := by
    decide +kernel
  obtain ⟨res, hres, hstatus, -⟩ :=
    hclaim emptyServer calmHandler databaseDown (getRequest "/") (by decide +kernel)
      ⟨filesCommand, hquery, nofun⟩
  rw [hres] at hok
  simp [hstatus] at hok

/-! ## Failures to log -/

/-- The full path of the row that a lookup has found. -/
def foundPath (name uid : PgResult) : Text :=
  let row := (name.rows ++ uid.rows).headD []
  row.getD 1 [] ++ '/' :: row.getD 0 []

/-- The status that a file request calls for. -/
structure FileStatus (server : Server) (target : Text) (name uid : PgResult) (status : Status) :
    Prop where
  illegal : illegalTarget target → status = .badRequest
  several : ¬illegalTarget target → SeveralReached name uid → status = .multipleChoices
  failed : ¬illegalTarget target → LookupFailed name uid → status = .internalServerError
  notFound : ¬illegalTarget target → NothingFound name uid → status = .notFound
  found : ¬illegalTarget target → ¬SeveralReached name uid → ¬LookupFailed name uid →
    ¬NothingFound name uid →
      (∀ message, server.openFile (foundPath name uid) = .error message →
        status = .internalServerError) ∧
      ∀ body, server.openFile (foundPath name uid) = .ok body → status = .ok

private theorem fileStatus_of_lookupStatus (server : Server) (target : Text) (name uid : PgResult) :
    FileStatus server target name uid
      (if illegalTarget target then .badRequest
        else server.lookupStatus (lookupOutcome name uid)) := by
  by_cases hillegal : illegalTarget target
  · rw [if_pos hillegal]
    exact ⟨fun _ => rfl, absurd hillegal, absurd hillegal, absurd hillegal, absurd hillegal⟩
  rw [if_neg hillegal]
  rcases lookupOutcome_cases name uid with ⟨hfailed, hseveral, hnothing, ho⟩ |
    ⟨hfailed, hseveral, hnothing, ho⟩ | ⟨hfailed, hseveral, hnothing, ho⟩ |
    ⟨hfailed, hseveral, hnothing, ho⟩
  · rw [ho]
    exact ⟨fun h => absurd h hillegal, fun _ h => absurd h hseveral, fun _ _ => rfl,
      fun _ h => absurd h hnothing, fun _ _ h => absurd hfailed h⟩
  · rw [ho]
    exact ⟨fun h => absurd h hillegal, fun _ _ => rfl, fun _ h => absurd h hfailed,
      fun _ h => absurd h hnothing, fun _ h => absurd hseveral h⟩
  · rw [ho]
    exact ⟨fun h => absurd h hillegal, fun _ h => absurd h hseveral, fun _ h => absurd h hfailed,
      fun _ _ => rfl, fun _ _ _ h => absurd hnothing h⟩
  · rw [ho]
    refine ⟨fun h => absurd h hillegal, fun _ h => absurd h hseveral, fun _ h => absurd h hfailed,
      fun _ h => absurd h hnothing, fun _ _ _ _ => ⟨fun message hopen => ?_, fun body hopen => ?_⟩⟩
    · rw [Server.lookupStatus, ← foundPath, hopen]
    · rw [Server.lookupStatus, ← foundPath, hopen]

/-- Two runs of a file request that differ in what the `INSERT` of the record yields end in one
response each, with the same status, which is the one that the lookup calls for. -/
theorem failure_to_log_is_harmless (server : Server) (handler : ServerHttpHandler)
    {answer answer' : Text → PgResult} {req : Request} (hverb : req.verb ≠ .other)
    (hfile : targetKind req.handlerTarget = .file) (hinsert : ComesToInsert handler answer)
    (hsame : ∀ query,
      query ≠ insertCommand (handlerVectorFill server.peer req.toHttpRequest) →
        answer query = answer' query) :
    ∃ res res', server.serve handler answer req = some [res] ∧
      server.serve handler answer' req = some [res'] ∧ res.status = res'.status ∧
      FileStatus server req.handlerTarget (answer (nameCommand (wildcard req.handlerTarget)))
        (answer (uidCommand (wildcard req.handlerTarget))) res.status := by
  have hinsert' : ComesToInsert handler answer' := by
    unfold ComesToInsert at hinsert ⊢
    rwa [← hsame _ (trimCommand_ne_insertCommand _ _)]
  obtain ⟨res, hres, hstatus⟩ := serve_file server hverb hfile hinsert
  obtain ⟨res', hres', hstatus'⟩ := serve_file server hverb hfile hinsert'
  rw [← hsame _ (nameCommand_ne_insertCommand _ _), ← hsame _ (uidCommand_ne_insertCommand _ _)]
    at hstatus'
  refine ⟨res, res', hres, hres', hstatus.trans hstatus'.symm, ?_⟩
  rw [hstatus]
  exact fileStatus_of_lookupStatus server _ _ _

/-- A database without songs, which takes the records of requests or does not. -/
def noSongs (takesRecords : Bool) (info : ReqInfo) (command : Text) : PgResult :=
  if command = insertCommand info ∧ takesRecords = false then databaseDown command
  else ⟨"db".toList, none, []⟩

theorem failure_to_log_is_harmless_no_songs :
    let info := handlerVectorFill emptyServer.peer (getRequest "/a").toHttpRequest
    ∃ res res', emptyServer.serve calmHandler (noSongs true info) (getRequest "/a") = some [res] ∧
      emptyServer.serve calmHandler (noSongs false info) (getRequest "/a") = some [res'] ∧
      res.status = res'.status ∧
      FileStatus emptyServer (getRequest "/a").handlerTarget
        (noSongs true info (nameCommand (wildcard (getRequest "/a").handlerTarget)))
        (noSongs true info (uidCommand (wildcard (getRequest "/a").handlerTarget))) res.status := by
  intro info
  refine failure_to_log_is_harmless emptyServer calmHandler (by decide +kernel) (by decide +kernel)
    (Or.inl (by decide)) fun query hquery => ?_
  simp [noSongs, show query ≠ insertCommand info from hquery]

end PetProject.ServerHttp
