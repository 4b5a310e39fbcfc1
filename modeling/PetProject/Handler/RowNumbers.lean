import PetProject.Database.Numbering
import PetProject.Framework.Machine
import PetProject.Handler.ServerHttpHandler

/-!
# The numbers of the rows

The commands of the two handlers, with those of the constructor of `Server_HTTP_handler`, as
they are carried out one after the other in any order. Each of them is one transaction and leaves
the ids of both tables consecutive.
-/

namespace PetProject.Handler

open Framework Database

/-! ## The commands of the constructor -/

def renumberCommand : Text :=
  ("LOCK TABLE song_table IN ACCESS EXCLUSIVE MODE; ALTER SEQUENCE song_seq RESTART; " ++
    "UPDATE song_table SET ID = DEFAULT;" ++
    "LOCK TABLE log_table IN ACCESS EXCLUSIVE MODE; ALTER SEQUENCE log_seq RESTART; " ++
    "UPDATE log_table SET ID = DEFAULT").toList

/-- `std::to_string` of an `int`. -/
def signedDecimal (n : Int) : Text :=
  if n < 0 then '-' :: decimal n.natAbs else decimal n.natAbs

def cleanUpHead : Text :=
  ("LOCK TABLE log_table IN ACCESS EXCLUSIVE MODE;" ++
    "DELETE FROM log_table WHERE (DATE_TRUNC('days', (LOCALTIMESTAMP - req_date_time)) >= " ++
    "(INTERVAL '").toList

def cleanUpTail : Text :=
  "' DAY)); ALTER SEQUENCE log_seq RESTART; UPDATE log_table SET ID = DEFAULT".toList

def cleanUpCommand (daysLimit : Int) : Text :=
  cleanUpHead ++ signedDecimal daysLimit ++ cleanUpTail

def countCommand : Text :=
  "LOCK TABLE log_table IN ACCESS EXCLUSIVE MODE; SELECT count(*) FROM log_table".toList

private theorem renumber_readsAs : ReadsAs renumberCommand [] [.lockSongs, .restartSongSeq,
    .renumberSongs, .lockRecords, .restartLogSeq, .renumberRecords] := by
  refine readsAs_of_fixed [("LOCK TABLE song_table IN ACCESS EXCLUSIVE MODE", .lockSongs),
    ("ALTER SEQUENCE song_seq RESTART", .restartSongSeq),
    ("UPDATE song_table SET ID = DEFAULT", .renumberSongs),
    ("LOCK TABLE log_table IN ACCESS EXCLUSIVE MODE", .lockRecords),
    ("ALTER SEQUENCE log_seq RESTART", .restartLogSeq),
    ("UPDATE log_table SET ID = DEFAULT", .renumberRecords)]
    (by simp only [fixedKinds, List.cons_subset, List.nil_subset, List.mem_cons, true_or, or_true,
      and_self]) ?_
  unfold renumberCommand
  simp only [shapeOf, List.map_cons, List.map_nil, String.toList_append,
    -String.reduceAppend, -String.reduceToList]
  repeat rw [String.toList_ofList]
  decide +kernel

private theorem count_readsAs : ReadsAs countCommand [] [.lockRecords, .countRecords] := by
  refine readsAs_of_fixed [("LOCK TABLE log_table IN ACCESS EXCLUSIVE MODE", .lockRecords),
    ("SELECT count(*) FROM log_table", .countRecords)]
    (by simp only [fixedKinds, List.cons_subset, List.nil_subset, List.mem_cons, true_or, or_true,
      and_self]) ?_
  unfold countCommand
  simp only [shapeOf, List.map_cons, List.map_nil, -String.reduceToList]
  repeat rw [String.toList_ofList]
  decide +kernel

theorem statementsOf_renumber : statementsOf renumberCommand = some [.lockSongs, .restartSongSeq,
    .renumberSongs, .lockRecords, .restartLogSeq, .renumberRecords] :=
  statementsOf_fixed renumber_readsAs rfl

theorem statementsOf_count : statementsOf countCommand = some [.lockRecords, .countRecords] :=
  statementsOf_fixed count_readsAs rfl

private theorem signedDecimal_safe (n : Int) : SafeLiteral (signedDecimal n) := by
  unfold signedDecimal
  split
  · intro c hc
    rcases List.mem_cons.mp hc with rfl | hc
    · decide
    · exact decimal_safe _ c hc
  · exact decimal_safe _

private theorem signedNumeral_signedDecimal (n : Int) : signedNumeral (signedDecimal n) = some n := by
  unfold signedDecimal
  split
  case isTrue hneg =>
    rw [signedNumeral, numeral_decimal, Option.map_some]
    congr 1
    omega
  case isFalse hpos =>
    have hminus : ∀ w, decimal n.natAbs ≠ '-' :: w := by
      intro w hw
      exact absurd (decimal_isDigit n.natAbs '-' (by simp [hw])) (by decide)
    rw [signedNumeral, numeral_decimal, Option.map_some]
    · congr 1
      omega
    · exact hminus

/-- The tokens in front of the number of days and after it. -/
private def cleanUpBefore : List Token := (lexRun .ground cleanUpHead).2

private def cleanUpAfter : List Token := (lex (cleanUpTail.drop 2)).getD []

private theorem lex_cleanUpCommand (n : Int) :
    lex (cleanUpCommand n) = some (cleanUpBefore ++ .str (signedDecimal n) :: cleanUpAfter) := by
  have hsafe := signedDecimal_safe n
  have hhead : (lexRun .ground cleanUpHead).1 = .quoted [] ∧ '\x00' ∉ cleanUpHead := by
    unfold cleanUpHead
    simp only [String.toList_append, -String.reduceAppend, -String.reduceToList]
    repeat rw [String.toList_ofList]
    decide +kernel
  have htail : cleanUpTail = '\'' :: ' ' :: 'D' :: cleanUpTail.drop 3 ∧
      lex ('D' :: cleanUpTail.drop 3) = some cleanUpAfter := by
    unfold cleanUpAfter cleanUpTail
    repeat rw [String.toList_ofList]
    decide +kernel
  obtain ⟨htail, hafter⟩ := htail
  rw [lex, serverText_cons (by decide)] at hafter
  rw [lex, cleanUpCommand, List.append_assoc, serverText_append hhead.2,
    serverText_append hsafe.nul_notMem, lexFrom_append, hhead.1, lexFrom_append,
    lexRun_quoted hsafe, htail, serverText_cons (by decide), serverText_cons (by decide),
    serverText_cons (by decide)]
  dsimp only
  rw [lexFrom_quoted_space (by decide) (by decide), hafter]
  rfl

theorem statementsOf_cleanUp (n : Int) : statementsOf (cleanUpCommand n) =
    some [.lockRecords, .deleteOldRecords n, .restartLogSeq, .renumberRecords] := by
  have hshape : shape (cleanUpBefore ++ .str (signedDecimal n) :: cleanUpAfter) =
      shape cleanUpBefore ++ .str [] :: shape cleanUpAfter := by
    simp [shape]
  have hliterals : literals (cleanUpBefore ++ .str (signedDecimal n) :: cleanUpAfter) =
      literals cleanUpBefore ++ signedDecimal n :: literals cleanUpAfter := by
    simp [literals]
  let ks : List (String × Kind) := [("LOCK TABLE log_table IN ACCESS EXCLUSIVE MODE", .lockRecords),
    ("DELETE FROM log_table WHERE (DATE_TRUNC('', (LOCALTIMESTAMP - req_date_time)) >= " ++
      "(INTERVAL '' DAY))", .deleteOldRecords),
    ("ALTER SEQUENCE log_seq RESTART", .restartLogSeq),
    ("UPDATE log_table SET ID = DEFAULT", .renumberRecords)]
  have hks : ks ⊆ fixedKinds := by
    simp only [ks, fixedKinds, List.cons_subset, List.nil_subset, List.mem_cons, true_or, or_true,
      and_self]
  have htokens : shape cleanUpBefore ++ .str [] :: shape cleanUpAfter =
      [.sym ';'].intercalate (ks.map fun k => shapeOf k.1) ∧
      literals cleanUpBefore = ["days".toList] ∧ literals cleanUpAfter = [] := by
    unfold cleanUpBefore cleanUpAfter cleanUpHead cleanUpTail
    simp only [ks, shapeOf, List.map_cons, List.map_nil, String.toList_append,
      -String.reduceAppend, -String.reduceToList]
    repeat rw [String.toList_ofList]
    decide +kernel
  obtain ⟨hjoin, hfields⟩ := htokens
  have hkinds : kindsOf (shape cleanUpBefore ++ .str [] :: shape cleanUpAfter) =
      some [.lockRecords, .deleteOldRecords, .restartLogSeq, .renumberRecords] := by
    rw [hjoin, kindsOf_fixed hks]
    rfl
  rw [statementsOf, lex_cleanUpCommand, Option.bind_some, parse, hshape, hkinds, hliterals,
    hfields.1, hfields.2]
  simp [buildAll, Kind.build, signedNumeral_signedDecimal]

/-! ## The commands -/

/-- What the two handlers have the database do. -/
inductive TableCommand
  | add (folder name : Text)
  | delete (name : Text)
  | dirDel
  | refresh
  | renumber
  | cleanUp (daysLimit : Int)
  | count
  | trim (rowsDelete : Nat)
  | insert (info : ReqInfo)

namespace TableCommand

variable (hash : Hash)

def text : TableCommand → Text
  | .add folder name => addCommand hash folder (quoted name)
  | .delete name => deleteCommand (quoted name)
  | .dirDel => dirDelCommand
  | .refresh => refreshCommand
  | .renumber => renumberCommand
  | .cleanUp daysLimit => cleanUpCommand daysLimit
  | .count => countCommand
  | .trim rowsDelete => trimCommand rowsDelete
  | .insert info => insertCommand info

def statements : TableCommand → List Statement
  | .add folder name =>
      [.lockSongs, .insertSong name (decimal (hash (quoted name)).toNat) folder]
  | .delete name => [.lockSongs, .deleteSong name, .restartSongSeq, .renumberSongs]
  | .dirDel => [.lockSongs, .truncateSongs, .restartSongSeq, .renumberSongs]
  | .refresh => [.lockSongs, .truncateSongs, .restartSongSeq]
  | .renumber => [.lockSongs, .restartSongSeq, .renumberSongs, .lockRecords, .restartLogSeq,
      .renumberRecords]
  | .cleanUp daysLimit =>
      [.lockRecords, .deleteOldRecords daysLimit, .restartLogSeq, .renumberRecords]
  | .count => [.lockRecords, .countRecords]
  | .trim rowsDelete => [.lockRecords, .deleteRecords rowsDelete, .restartLogSeq,
      .renumberRecords, .selectLogSeq]
  | .insert info => [.lockRecords, .insertRecord info.host info.port info.ipAddress
      info.userAgent info.method info.target]

def fields : TableCommand → List Text
  | .add folder name => [folder, name]
  | .delete name => [name]
  | .insert info => info.fields
  | _ => []

variable {hash} {c : TableCommand} {choice : Choice} {db : Db}

private theorem statementsOf_text (hsafe : ∀ f ∈ c.fields, SafeLiteral f) :
    statementsOf (c.text hash) = some (c.statements hash) := by
  cases c with
  | add folder name =>
    exact statementsOf_add hash (hsafe folder (by simp [fields])) (hsafe name (by simp [fields]))
  | delete name => exact statementsOf_delete (hsafe name (by simp [fields]))
  | dirDel => exact statementsOf_dirDel
  | refresh => exact statementsOf_refresh
  | renumber => exact statementsOf_renumber
  | cleanUp daysLimit => exact statementsOf_cleanUp daysLimit
  | count => exact statementsOf_count
  | trim rowsDelete => exact statementsOf_trim rowsDelete
  | insert info => exact statementsOf_insert hsafe

end TableCommand

/-! ## Runs -/

/-- A command whose turn it is; the database may reject it before it has an effect. -/
structure TableStep where
  command : TableCommand
  choice : Choice
  accepted : Bool

def TableStep.exec (hash : Hash) (db : Db) (a : TableStep) : Db :=
  if a.accepted then (execAll a.choice (a.command.statements hash) db).1 else db

/-- An accepted command with safe fields does what its command string does. -/
theorem TableStep.exec_eq_execCommand {hash : Hash} {a : TableStep} (haccepted : a.accepted)
    (hsafe : ∀ f ∈ a.command.fields, SafeLiteral f) (db : Db) :
    a.exec hash db = execCommand a.choice db (a.command.text hash) := by
  rw [execCommand, runCommand_of_statements (TableCommand.statementsOf_text hsafe), exec,
    if_pos haccepted]

end PetProject.Handler
