import Mathlib.Data.List.TakeWhile
import PetProject.Database.Command
import PetProject.Framework.InputStream
import PetProject.Handler.InotifyDbHandler

/-!
# The handler of HTTP requests

`Server_HTTP_handler` between the request vector that `Handle_request` fills and the database:
the record of the request in `log_table`, the trim of that table, and the lookup of a file by
its name and by its uid. A remote client chooses four of the fields that enter the commands.
-/

namespace PetProject.Handler

open Framework Database

/-- The request vector, `REQ_TARGET` to `REQ_ERROR`. -/
structure ReqInfo where
  target : Text
  host : Text
  port : Text
  ipAddress : Text
  userAgent : Text
  method : Text
  result : Text
  error : Text
  deriving DecidableEq, Repr

/-- The other end of a connection; the text of an address has neither quotes nor NULs. -/
structure Peer where
  address : SafeText
  port : UInt16

/-- What a request brings: `req.target()`, two header fields and `method_string()`. -/
structure HttpRequest where
  target : Text
  host : Text
  userAgent : Text
  method : Text

/-- `Handle_request::handler_vector_fill`; the target loses its first character. -/
def handlerVectorFill (peer : Peer) (req : HttpRequest) : ReqInfo where
  target := req.target.drop 1
  host := req.host
  port := decimal peer.port.toNat
  ipAddress := peer.address.1
  userAgent := req.userAgent
  method := req.method
  result := []
  error := []

/-! ## The log table -/

def insertHead : Text :=
  ("LOCK TABLE log_table IN ACCESS EXCLUSIVE MODE; " ++
    "INSERT INTO log_table (id, requested_host, port, ip, user_agent, rest_method, target, " ++
    "req_date_time) VALUES(DEFAULT, ").toList

def insertSeparator : Text := ", ".toList

def inetSeparator : Text := "::inet, ".toList

def insertTail : Text := ", LOCALTIMESTAMP)".toList

/-- The command with which `update_log_table` records a request. -/
def insertCommand (info : ReqInfo) : Text :=
  insertHead ++ quoted info.host ++ insertSeparator ++ quoted info.port ++ insertSeparator ++
    quoted info.ipAddress ++ inetSeparator ++ quoted info.userAgent ++ insertSeparator ++
    quoted info.method ++ insertSeparator ++ quoted info.target ++ insertTail

example : insertCommand ⟨"a.mp3".toList, "host".toList, "80".toList, "10.0.0.1".toList,
      "agent".toList, "GET".toList, [], []⟩ =
    ("LOCK TABLE log_table IN ACCESS EXCLUSIVE MODE; INSERT INTO log_table (id, requested_host, " ++
      "port, ip, user_agent, rest_method, target, req_date_time) VALUES(DEFAULT, 'host', '80', " ++
      "'10.0.0.1'::inet, 'agent', 'GET', 'a.mp3', LOCALTIMESTAMP)").toList := by
  unfold insertCommand insertHead insertSeparator inetSeparator insertTail
  simp only [String.toList_append, -String.reduceAppend, -String.reduceToList]
  repeat rw [String.toList_ofList]
  decide +kernel

/-- The fields that enter the record of a request, in the order of the columns. -/
def ReqInfo.fields (info : ReqInfo) : List Text :=
  [info.host, info.port, info.ipAddress, info.userAgent, info.method, info.target]

def ReqInfo.blank : ReqInfo := ⟨[], [], [], [], [], [], [], []⟩

/-- The fields of the record, each with the fixed text that follows it. -/
def ReqInfo.pieces (info : ReqInfo) : List (Text × Text) :=
  [(info.host, insertSeparator), (info.port, insertSeparator), (info.ipAddress, inetSeparator),
    (info.userAgent, insertSeparator), (info.method, insertSeparator), (info.target, insertTail)]

private theorem insertCommand_eq_render (info : ReqInfo) :
    insertCommand info = render insertHead info.pieces := by
  simp only [insertCommand, ReqInfo.pieces, render, quoted, List.append_assoc, List.cons_append,
    List.nil_append]

private theorem insert_readsAs : ReadsAs insertHead [insertSeparator, insertSeparator,
    inetSeparator, insertSeparator, insertSeparator, insertTail] [.lockRecords, .insertRecord] := by
  refine readsAs_of_fixed [("LOCK TABLE log_table IN ACCESS EXCLUSIVE MODE", .lockRecords),
    ("INSERT INTO log_table (id, requested_host, port, ip, user_agent, rest_method, target, " ++
      "req_date_time) VALUES(DEFAULT, '', '', ''::inet, '', '', '', LOCALTIMESTAMP)",
      .insertRecord)]
    (by simp only [fixedKinds, List.cons_subset, List.nil_subset, List.mem_cons, true_or, or_true,
      and_self]) ?_
  unfold insertHead insertSeparator inetSeparator insertTail
  simp only [shapeOf, List.map_cons, List.map_nil, String.toList_append,
    -String.reduceAppend, -String.reduceToList]
  repeat rw [String.toList_ofList]
  decide +kernel

/-- The record of a request without quotes and NULs is inserted as it is. -/
theorem statementsOf_insert {info : ReqInfo} (hsafe : ∀ f ∈ info.fields, SafeLiteral f) :
    statementsOf (insertCommand info) = some [.lockRecords, .insertRecord info.host info.port
      info.ipAddress info.userAgent info.method info.target] := by
  have hpieces : ∀ r ∈ info.pieces, SafeLiteral r.1 := by
    simpa [ReqInfo.fields, ReqInfo.pieces] using hsafe
  have hreads : ReadsAs insertHead (info.pieces.map Prod.snd) [.lockRecords, .insertRecord] :=
    insert_readsAs
  rw [insertCommand_eq_render]
  exact statementsOf_render hreads hpieces rfl

theorem runCommand_insert {info : ReqInfo} (hsafe : ∀ f ∈ info.fields, SafeLiteral f)
    (choice : Choice) (db : Db) :
    runCommand choice (insertCommand info) db =
      some (execAll choice [.lockRecords, .insertRecord info.host info.port info.ipAddress
        info.userAgent info.method info.target] db) :=
  runCommand_of_statements (statementsOf_insert hsafe) choice db

def trimHead : Text :=
  ("LOCK TABLE log_table IN ACCESS EXCLUSIVE MODE; " ++
    "DELETE FROM log_table WHERE id <= ").toList

def trimTail : Text :=
  ("; ALTER SEQUENCE log_seq RESTART;" ++
    " UPDATE log_table SET ID = DEFAULT; SELECT last_value FROM log_seq").toList

/-- The command with which `update_log_table` deletes the first records. -/
def trimCommand (rowsDelete : Nat) : Text := trimHead ++ decimal rowsDelete ++ trimTail

/-- `std::atoi` of a number that an `int` holds: white space, a sign, and digits up to the first
other character. It is given what the database prints for `last_value`. -/
def atoi (text : Text) : Int :=
  let digits (t : Text) : Int := Nat.ofDigitChars 10 (t.takeWhile Char.isDigit) 0
  match text.dropWhile isspace with
  | '-' :: t => -digits t
  | '+' :: t => digits t
  | t => digits t

theorem decimal_isDigit (n : Nat) : ∀ c ∈ decimal n, c.isDigit := fun _ hc =>
  Nat.isDigit_of_mem_toDigits (by decide) (by decide) hc

private theorem isspace_of_isDigit {c : Char} (hc : c.isDigit) : isspace c = false := by
  have hrange : 48 ≤ c.toNat ∧ c.toNat ≤ 57 := by simpa [Char.isDigit, UInt32.le_iff_toNat_le] using hc
  have hblank : c ≠ ' ' := by
    rintro rfl
    exact absurd hc (by decide)
  have hcontrol : ¬c.toNat ≤ 13 := by omega
  simp [isspace, hblank, hcontrol]

theorem atoi_decimal (n : Nat) : atoi (decimal n) = n := by
  have hdigit := decimal_isDigit n
  have htake : (decimal n).takeWhile Char.isDigit = decimal n :=
    List.takeWhile_eq_self_iff.mpr hdigit
  have hvalue : Nat.ofDigitChars 10 (decimal n) 0 = n := Nat.ofDigitChars_ten_toDigits
  have hne : decimal n ≠ [] := Nat.toDigits_ne_nil
  cases hn : decimal n with
  | nil => exact absurd hn hne
  | cons c t =>
    rw [hn] at htake hvalue
    have hc : c.isDigit := hdigit c (by simp [hn])
    have hminus : c ≠ '-' := by
      rintro rfl
      exact absurd hc (by decide)
    have hplus : c ≠ '+' := by
      rintro rfl
      exact absurd hc (by decide)
    unfold atoi
    rw [List.dropWhile_cons_of_neg (by simp [isspace_of_isDigit hc])]
    dsimp only
    split
    · simp_all
    · simp_all
    · rw [htake, hvalue]

private def trimLock : List Token := shapeOf "LOCK TABLE log_table IN ACCESS EXCLUSIVE MODE"

private def trimDelete : List Token := shapeOf "DELETE FROM log_table WHERE id <="

private def trimRest : List Token :=
  shapeOf ("ALTER SEQUENCE log_seq RESTART; UPDATE log_table SET ID = DEFAULT; " ++
    "SELECT last_value FROM log_seq")

private theorem lexRun_trimHead :
    lexRun .ground trimHead = (.ground, trimLock ++ .sym ';' :: trimDelete) := by
  unfold trimHead trimLock trimDelete shapeOf
  simp only [String.toList_append, -String.reduceAppend, -String.reduceToList]
  repeat rw [String.toList_ofList]
  decide +kernel

private theorem nul_notMem_trimHead : '\x00' ∉ trimHead := by
  unfold trimHead
  simp only [String.toList_append, -String.reduceAppend, -String.reduceToList]
  repeat rw [String.toList_ofList]
  decide +kernel

private theorem lex_trimTail : lex trimTail = some (.sym ';' :: trimRest) := by
  unfold trimTail trimRest shapeOf
  simp only [String.toList_append, -String.reduceAppend, -String.reduceToList]
  repeat rw [String.toList_ofList]
  decide +kernel

private theorem trimTail_eq_cons : trimTail = ';' :: trimTail.tail := by
  unfold trimTail
  simp only [String.toList_append, -String.reduceAppend, -String.reduceToList]
  repeat rw [String.toList_ofList]
  decide +kernel

private theorem kindOf_trimLock : kindOf trimLock = some .lockRecords :=
  kindOf_fixed (k := ("LOCK TABLE log_table IN ACCESS EXCLUSIVE MODE", .lockRecords))
    (by simp only [fixedKinds, List.mem_cons, true_or, or_true])

private theorem kindsOf_trimRest :
    kindsOf trimRest = some [.restartLogSeq, .renumberRecords, .selectLogSeq] := by
  let ks : List (String × Kind) := [("ALTER SEQUENCE log_seq RESTART", .restartLogSeq),
    ("UPDATE log_table SET ID = DEFAULT", .renumberRecords),
    ("SELECT last_value FROM log_seq", .selectLogSeq)]
  have hks : ks ⊆ fixedKinds := by
    simp only [ks, fixedKinds, List.cons_subset, List.nil_subset, List.mem_cons, true_or, or_true,
      and_self]
  have hrest : trimRest = [.sym ';'].intercalate (ks.map fun k => shapeOf k.1) := by
    unfold trimRest shapeOf
    simp only [ks, List.map_cons, List.map_nil, String.toList_append, -String.reduceAppend,
      -String.reduceToList]
    repeat rw [String.toList_ofList]
    decide +kernel
  rw [hrest, kindsOf_fixed hks]
  rfl

theorem numeral_decimal (n : Nat) : numeral (.word (decimal n)) = some n := by
  have hdigit : (decimal n).all Char.isDigit := List.all_eq_true.mpr (decimal_isDigit n)
  have hne : decimal n ≠ [] := Nat.toDigits_ne_nil
  have hvalue : Nat.ofDigitChars 10 (decimal n) 0 = n := Nat.ofDigitChars_ten_toDigits
  simp [numeral, hdigit, hne, hvalue]

private theorem kindOf_trimDelete (n : Nat) :
    kindOf (trimDelete ++ [.word (decimal n)]) = some (.deleteRecords n) := by
  rw [kindOf, List.dropLast_concat, if_pos (show trimDelete = shapeOf _ from rfl),
    List.getLast?_concat, Option.bind_some, numeral_decimal, Option.map_some]

private def trimTokens (n : Nat) : List Token :=
  trimLock ++ .sym ';' :: ((trimDelete ++ [.word (decimal n)]) ++ .sym ';' :: trimRest)

private theorem lex_trimCommand (n : Nat) : lex (trimCommand n) = some (trimTokens n) := by
  have hword : ∀ c ∈ decimal n, isWordChar c := fun c hc => by
    have hdigit := decimal_isDigit n c hc
    simp [isWordChar, Char.isAlphanum, hdigit]
  have hne : decimal n ≠ [] := Nat.toDigits_ne_nil
  obtain ⟨t, ht⟩ : ∃ t, trimTail = ';' :: t := ⟨trimTail.tail, trimTail_eq_cons⟩
  have hrest := lex_trimTail
  rw [lex, ht, serverText_cons (by decide)] at hrest
  rw [lex, trimCommand, List.append_assoc, serverText_append nul_notMem_trimHead,
    serverText_append (decimal_safe n).nul_notMem, ht, serverText_cons (by decide), lexFrom_append,
    lexRun_trimHead]
  dsimp only
  rw [lexFrom_word hne hword (by decide), hrest]
  simp [trimTokens]

private theorem trimTokens_plain (n : Nat) :
    shape (trimTokens n) = trimTokens n ∧ literals (trimTokens n) = [] := by
  have hplain : (shape trimLock = trimLock ∧ shape trimDelete = trimDelete ∧
      shape trimRest = trimRest) ∧
      literals trimLock = [] ∧ literals trimDelete = [] ∧ literals trimRest = [] := by
    unfold trimLock trimDelete trimRest shapeOf
    simp only [String.toList_append, -String.reduceAppend, -String.reduceToList]
    repeat rw [String.toList_ofList]
    decide +kernel
  obtain ⟨⟨hlock, hdelete, hrest⟩, hlock', hdelete', hrest'⟩ := hplain
  constructor
  · simp only [shape, trimTokens, List.map_append, List.map_cons, List.map_nil]
      at hlock hdelete hrest ⊢
    rw [hlock, hdelete, hrest]
  · simp only [literals, trimTokens, List.filterMap_append, List.filterMap_cons,
      List.filterMap_nil] at hlock' hdelete' hrest' ⊢
    rw [hlock', hdelete', hrest']
    rfl

private theorem kindsOf_trimTokens (n : Nat) :
    kindsOf (trimTokens n) = some [.lockRecords, .deleteRecords n, .restartLogSeq,
      .renumberRecords, .selectLogSeq] := by
  have hstatements : (trimLock ≠ [] ∧ ∀ t ∈ trimLock, t ≠ .sym ';') ∧
      ∀ t ∈ trimDelete, t ≠ .sym ';' := by
    unfold trimLock trimDelete shapeOf
    repeat rw [String.toList_ofList]
    decide +kernel
  obtain ⟨hlock, hdelete⟩ := hstatements
  have hdelete' : ∀ t ∈ trimDelete ++ [.word (decimal n)], t ≠ .sym ';' := by
    intro t ht
    rcases List.mem_append.mp ht with ht | ht
    · exact hdelete t ht
    · rw [List.mem_singleton.mp ht]
      exact Token.noConfusion
  rw [trimTokens, kindsOf_append_semicolon hlock.1 hlock.2,
    kindsOf_append_semicolon (by simp) hdelete', kindOf_trimLock, kindOf_trimDelete,
    kindsOf_trimRest]
  rfl

theorem statementsOf_trim (n : Nat) : statementsOf (trimCommand n) = some
    [.lockRecords, .deleteRecords n, .restartLogSeq, .renumberRecords, .selectLogSeq] := by
  obtain ⟨hshape, hliterals⟩ := trimTokens_plain n
  rw [statementsOf, lex_trimCommand, Option.bind_some, parse, hshape, hliterals,
    kindsOf_trimTokens]
  rfl

/-- The trim succeeds, whatever the table holds. -/
theorem runCommand_trim (n : Nat) (choice : Choice) (db : Db) :
    runCommand choice (trimCommand n) db =
      some (execAll choice
        [.lockRecords, .deleteRecords n, .restartLogSeq, .renumberRecords, .selectLogSeq] db) :=
  runCommand_of_statements (statementsOf_trim n) choice db

/-! ## The lookup of a file -/

/-- A result of the database: its error text unless it succeeded, and its rows. -/
structure PgResult where
  dbName : Text
  error : Option Text
  rows : List (List Text)
  deriving DecidableEq, Repr

inductive ResHandled
  | dbError
  | resultIsOk
  | severalFiles
  | notFound
  deriving DecidableEq, Repr

/-- Returning back the `*` character. -/
def starBack (target : Text) : Text :=
  if target.getLast? = some '%' then target.dropLast ++ ['*'] else target

def severalFilesError (target : Text) : Text :=
  "Several files match the requested target(".toList ++ target ++ ") at once".toList

/-- `Server_HTTP_handler::res_handle`. -/
def resHandle (info : ReqInfo) (res : PgResult) : ReqInfo × ResHandled :=
  match res.error, res.rows with
  | some error, _ =>
    ({ info with error := info.error ++ "Database ".toList ++ res.dbName ++
        " error while searching for target ".toList ++ info.target ++ ": ".toList ++ error },
      .dbError)
  | none, [] => (info, .notFound)
  | none, [_] => (info, .resultIsOk)
  | none, _ :: _ :: _ =>
    let target := starBack info.target
    ({ info with target := target, error := severalFilesError target }, .severalFiles)

def illegalTarget (target : Text) : Prop :=
  target.getLast? = some '/' ∨ ['.', '.'] <:+: target

instance (target : Text) : Decidable (illegalTarget target) :=
  inferInstanceAs (Decidable (_ ∨ _))

/-- A trailing `*` of a longer target becomes `%`. -/
def wildcard (target : Text) : Text :=
  if 1 < target.length ∧ target.getLast? = some '*' then target.dropLast ++ ['%'] else target

def nameHead : Text :=
  "SELECT song_name, song_url FROM song_table WHERE song_name SIMILAR TO ".toList

def uidHead : Text :=
  "SELECT song_name, song_url FROM song_table WHERE song_uid SIMILAR TO ".toList

def selectTail : Text := ";".toList

def nameCommand (target : Text) : Text := nameHead ++ quoted target ++ selectTail

def uidCommand (target : Text) : Text := uidHead ++ quoted target ++ selectTail

/-- The end of `get_file_URI`, once both results have been handled. -/
def chooseResult (info : ReqInfo) (name uid : PgResult) (handledName handledUid : ResHandled) :
    ReqInfo :=
  let found (res : PgResult) : ReqInfo :=
    let row := res.rows.headD []
    { info with target := row.getD 0 [],
                result := row.getD 1 [] ++ '/' :: row.getD 0 [] }
  if handledName = .notFound ∧ handledUid = .notFound then
    { info with error := "File ".toList ++ info.target ++ " not found".toList }
  else if handledName = .resultIsOk ∧ handledUid ≠ .resultIsOk then found name
  else if handledName ≠ .resultIsOk ∧ handledUid = .resultIsOk then found uid
  else
    let target := starBack info.target
    { info with target := target, error := severalFilesError target }

/-- `Server_HTTP_handler::get_file_URI`: the commands that it issues, and the vector that it
leaves behind when the database answers as `lookup` says. -/
def getFileUri (lookup : Text → PgResult) (info : ReqInfo) : List Text × ReqInfo :=
  if illegalTarget info.target then
    ([], { info with error := "Illegal request-target".toList })
  else
    let target := wildcard info.target
    let info := { info with target := target }
    let name := lookup (nameCommand target)
    let uid := lookup (uidCommand target)
    let afterName := resHandle info name
    let afterUid := resHandle afterName.1 uid
    ([nameCommand target, uidCommand target],
      if afterName.2 = .dbError ∨ afterName.2 = .severalFiles then afterName.1
      else if afterUid.2 = .dbError ∨ afterUid.2 = .severalFiles then afterUid.1
      else chooseResult afterUid.1 name uid afterName.2 afterUid.2)

/-! ## Hostile requests -/

theorem getFileUri_commands (lookup : Text → PgResult) (info : ReqInfo) :
    (getFileUri lookup info).1 =
      if illegalTarget info.target then []
      else [nameCommand (wildcard info.target), uidCommand (wildcard info.target)] := by
  unfold getFileUri
  split <;> rfl

private theorem name_fixedPieces : FixedPieces nameHead [selectTail] := by
  unfold nameHead selectTail
  repeat rw [String.toList_ofList]
  decide +kernel

private theorem uid_fixedPieces : FixedPieces uidHead [selectTail] := by
  unfold uidHead selectTail
  repeat rw [String.toList_ofList]
  decide +kernel

private theorem insertCommand_readsAsMeant_iff (info : ReqInfo) :
    ReadsAsMeant (insertCommand info) (insertCommand .blank) info.fields ↔
      ∀ f ∈ info.fields, SafeLiteral f := by
  have hfixed : FixedPieces insertHead (info.pieces.map Prod.snd) := insert_readsAs.1
  rw [insertCommand_eq_render, insertCommand_eq_render]
  exact hfixed.readsAsMeant_iff.trans (by simp [ReqInfo.pieces, ReqInfo.fields])

private theorem select_readsAsMeant_iff {p : Text} (hfixed : FixedPieces p [selectTail])
    (target : Text) : ReadsAsMeant (p ++ quoted target ++ selectTail)
      (p ++ quoted [] ++ selectTail) [target] ↔ SafeLiteral target := by
  have hrender : ∀ f, p ++ quoted f ++ selectTail = render p [(f, selectTail)] := by
    intro f
    simp only [render, quoted, List.append_assoc, List.cons_append, List.nil_append]
  have hpieces : FixedPieces p ([(target, selectTail)].map Prod.snd) := hfixed
  have hiff := hpieces.readsAsMeant_iff
  rw [hrender, hrender]
  simpa using hiff

theorem nameCommand_readsAsMeant_iff (target : Text) :
    ReadsAsMeant (nameCommand target) (nameCommand []) [target] ↔ SafeLiteral target :=
  select_readsAsMeant_iff name_fixedPieces target

private theorem uidCommand_readsAsMeant_iff (target : Text) :
    ReadsAsMeant (uidCommand target) (uidCommand []) [target] ↔ SafeLiteral target :=
  select_readsAsMeant_iff uid_fixedPieces target

private theorem wildcard_safe {target : Text} (h : SafeLiteral target) : SafeLiteral (wildcard target) := by
  unfold wildcard
  split
  · intro c hc
    rcases List.mem_append.mp hc with hc | hc
    · exact h c (List.dropLast_subset target hc)
    · rw [List.mem_singleton.mp hc]
      decide
  · exact h

/-- Every command that is built from a request, whatever the database answers, reads as meant
exactly when no quote and no NUL stands in the fields that the client chooses. -/
theorem commands_readAsMeant_iff (lookup : Text → PgResult) (peer : Peer) (req : HttpRequest) :
    (ReadsAsMeant (insertCommand (handlerVectorFill peer req)) (insertCommand .blank)
        (handlerVectorFill peer req).fields ∧
      ∀ command ∈ (getFileUri lookup (handlerVectorFill peer req)).1,
        ∃ build ∈ [nameCommand, uidCommand],
          command = build (wildcard (req.target.drop 1)) ∧
            ReadsAsMeant command (build []) [wildcard (req.target.drop 1)]) ↔
      ∀ f ∈ [req.host, req.userAgent, req.method, req.target.drop 1], SafeLiteral f := by
  have hport : SafeLiteral (decimal peer.port.toNat) := decimal_safe _
  have hfields : (∀ f ∈ (handlerVectorFill peer req).fields, SafeLiteral f) ↔
      ∀ f ∈ [req.host, req.userAgent, req.method, req.target.drop 1], SafeLiteral f := by
    simp [ReqInfo.fields, handlerVectorFill, hport, peer.address.2]
  rw [insertCommand_readsAsMeant_iff, hfields, and_iff_left_iff_imp]
  intro hsafe command hcommand
  have htarget : SafeLiteral (wildcard (req.target.drop 1)) :=
    wildcard_safe (hsafe _ (by simp))
  have hmem : command ∈ [nameCommand (wildcard (req.target.drop 1)),
      uidCommand (wildcard (req.target.drop 1))] := by
    rw [getFileUri_commands] at hcommand
    split at hcommand
    · exact nomatch hcommand
    · exact hcommand
  rcases List.mem_cons.mp hmem with rfl | hmem
  · exact ⟨nameCommand, by simp, rfl, (nameCommand_readsAsMeant_iff _).mpr htarget⟩
  · obtain rfl := List.mem_singleton.mp hmem
    exact ⟨uidCommand, by simp, rfl, (uidCommand_readsAsMeant_iff _).mpr htarget⟩

/-- An ordinary name with an apostrophe in it ends its string constant early. -/
theorem apostrophe_breaks_commands :
    ¬∀ (lookup : Text → PgResult) (peer : Peer) (req : HttpRequest),
      ReadsAsMeant (insertCommand (handlerVectorFill peer req)) (insertCommand .blank)
          (handlerVectorFill peer req).fields ∧
        ∀ command ∈ (getFileUri lookup (handlerVectorFill peer req)).1,
          ∃ build ∈ [nameCommand, uidCommand],
            command = build (wildcard (req.target.drop 1)) ∧
              ReadsAsMeant command (build []) [wildcard (req.target.drop 1)] := by
  intro h
  have hbroken : ¬ReadsAsMeant
      (insertCommand (handlerVectorFill ⟨⟨"10.0.0.1".toList, by decide⟩, 8080⟩
        ⟨"/don't.mp3".toList, "host".toList, "agent".toList, "GET".toList⟩))
      (insertCommand .blank)
      (handlerVectorFill ⟨⟨"10.0.0.1".toList, by decide⟩, 8080⟩
        ⟨"/don't.mp3".toList, "host".toList, "agent".toList, "GET".toList⟩).fields := by
    rw [insertCommand_readsAsMeant_iff]
    decide +kernel
  exact hbroken (h (fun _ => ⟨[], none, []⟩) _ _).1

end PetProject.Handler
