import PetProject.Database.Insertion
import PetProject.Handler.LogRun

/-!
# The order of the trims

Runs of the constructor of `Server_HTTP_handler` and of `update_log_table`, over a log table that
remembers when its rows were inserted. A trim deletes by id. The ids are given out anew by every
`UPDATE`, in the order in which the server happens to visit the rows.
-/

namespace PetProject.Handler

open Framework Database

/-- What a handler keeps between two calls. -/
structure LogHandler where
  rowsLimit : Nat
  logTableNrows : Int
  deriving DecidableEq, Repr

/-- The `static` of `update_log_table`, the handler once there is one, and the log table. -/
structure LogServer where
  rowsDelete : Option Nat
  handler : Option LogHandler
  log : StampedLog
  deriving DecidableEq, Repr

/-- A command and what the server chooses for it; `none` when it fails. -/
def answerStamped (choice : Option StampedChoice) (command : Text) (log : StampedLog) :
    Option (StampedLog × Option Text) :=
  choice.bind fun c => runStamped c command log

/-- The table after a command that may have failed. -/
def logAfter (choice : Option StampedChoice) (command : Text) (log : StampedLog) : StampedLog :=
  ((answerStamped choice command log).map Prod.fst).getD log

/-- A handler is constructed, in a new process or in the old one, or a call is made. -/
inductive LogEvent
  | construct (newProcess : Bool) (rowsLimit : Nat) (daysLimit : Int)
      (renumbered cleaned counted : Option StampedChoice)
  | update (info : ReqInfo) (trim insert : Option StampedChoice)

namespace LogServer

/-- The tables of the constructor: with new ids, and without the records that are too old. -/
def renumberedLog (s : LogServer) (renumbered : Option StampedChoice) : StampedLog :=
  logAfter renumbered renumberCommand s.log

def cleanedLog (s : LogServer) (daysLimit : Int) (renumbered cleaned : Option StampedChoice) :
    StampedLog :=
  logAfter cleaned (cleanUpCommand daysLimit) (s.renumberedLog renumbered)

/-- The counter that the constructor stores; it stays at zero when the rows are not counted. -/
def countedRows (counted : Option StampedChoice) (log : StampedLog) : Int :=
  match answerStamped counted countCommand log with
  | some res => atoi (res.2.getD [])
  | none => 0

/-- The number of rows that a trim of this handler deletes. -/
def trimmedIds (s : LogServer) (h : LogHandler) : Nat := s.rowsDelete.getD (h.rowsLimit / 2)

/-- The first half of a call; after a trim that fails the process does not survive `std::atoi`. -/
def trimLog (s : LogServer) (h : LogHandler) (trim : Option StampedChoice) : Option LogServer :=
  if h.logTableNrows > h.rowsLimit then
    (answerStamped trim (trimCommand (s.trimmedIds h)) s.log).map fun res =>
      ⟨some (s.trimmedIds h), some { h with logTableNrows := atoi (res.2.getD []) }, res.1⟩
  else some s

/-- The second half. -/
def recordLog (s : LogServer) (info : ReqInfo) (insert : Option StampedChoice) : LogServer :=
  match answerStamped insert (insertCommand info) s.log with
  | some res =>
    { s with handler := s.handler.map fun h =>
               { h with logTableNrows := increment h.logTableNrows }
             log := res.1 }
  | none => s

def step (s : LogServer) : LogEvent → Option LogServer
  | .construct newProcess rowsLimit daysLimit renumbered cleaned counted =>
    let log := s.cleanedLog daysLimit renumbered cleaned
    some ⟨if newProcess then none else s.rowsDelete, some ⟨rowsLimit, countedRows counted log⟩, log⟩
  | .update info trim insert =>
    match s.handler with
    | some h => (s.trimLog h trim).map fun t => t.recordLog info insert
    | none => none

/-- A trim deletes no row that was inserted after one that it keeps. -/
def TrimsOldest (s : LogServer) : LogEvent → Prop
  | .construct _ _ _ _ _ _ => True
  | .update _ _ _ =>
    ∀ h ∈ s.handler, h.logTableNrows > h.rowsLimit →
      ∀ r ∈ s.log.rows, ∀ r' ∈ s.log.rows, r.row.id ≤ s.trimmedIds h →
        ¬ r'.row.id ≤ s.trimmedIds h → r.stamp ≤ r'.stamp

instance (s : LogServer) (a : LogEvent) : Decidable (s.TrimsOldest a) :=
  match a with
  | .construct _ _ _ _ _ _ => instDecidableTrue
  | .update _ _ _ => inferInstanceAs (Decidable (∀ h ∈ s.handler, _))

/-- The rows are visited in the order of their insertion, if the command succeeds. -/
def VisitsInOrder (choice : Option StampedChoice) (rows : List StampedRow) : Prop :=
  ∀ c ∈ choice, InInsertionOrder (c.visit.order rows)

/-- Every `UPDATE` of the log table visits the rows in the order of their insertion; a handler
starts with ids in that order; an `INSERT` that succeeds is read as it was meant. -/
def UpdatesInOrder (s : LogServer) : LogEvent → Prop
  | .construct _ _ daysLimit renumbered cleaned _ =>
    VisitsInOrder renumbered s.log.rows ∧
      (∀ c ∈ cleaned, InInsertionOrder (c.visit.order
        ((s.renumberedLog renumbered).rows.filter fun r => ¬ r.row.age c.now ≥ daysLimit))) ∧
      (renumbered.isSome ∨ cleaned.isSome ∨ s.log.Sorted)
  | .update info trim insert =>
    (∀ h ∈ s.handler, VisitsInOrder trim
        (s.log.rows.filter fun r => ¬ r.row.id ≤ s.trimmedIds h)) ∧
      (insert.isSome → ReadsAsRecord info)

end LogServer

def logServerMachine : Machine LogServer LogEvent := ⟨LogServer.step⟩

/-! ## The commands -/

section Commands

variable {log : StampedLog} {choice : Option StampedChoice}

private theorem answerStamped_of_statements {command : Text} {ss : List Statement}
    (h : statementsOf command = some ss) (c : StampedChoice) (log : StampedLog) :
    answerStamped (some c) command log = some (execAllStamped c ss log) := by
  rw [answerStamped, Option.bind_some, runStamped_of_statements h]

private theorem logAfter_none (command : Text) : logAfter none command log = log := rfl

private theorem logAfter_some {command : Text} {ss : List Statement} (h : statementsOf command = some ss)
    (c : StampedChoice) :
    logAfter (some c) command log = (execAllStamped c ss log).1 := by
  rw [logAfter, answerStamped_of_statements h]
  rfl

private theorem fresh_logAfter (h : log.Fresh) (command : Text) : (logAfter choice command log).Fresh := by
  cases choice with
  | none => exact h
  | some c =>
    cases hss : statementsOf command with
    | none => simpa [logAfter, answerStamped, runStamped, hss] using h
    | some ss =>
      rw [logAfter_some hss]
      exact h.execAllStamped ss

private theorem sorted_renumberCommand {c : StampedChoice} (h : InInsertionOrder (c.visit.order log.rows)) :
    (logAfter (some c) renumberCommand log).Sorted := by
  rw [logAfter_some statementsOf_renumber]
  exact sorted_renumber h log.clock

private theorem sorted_cleanUpCommand {c : StampedChoice} {daysLimit : Int}
    (h : InInsertionOrder (c.visit.order
      (log.rows.filter fun r => ¬ r.row.age c.now ≥ daysLimit))) :
    (logAfter (some c) (cleanUpCommand daysLimit) log).Sorted := by
  rw [logAfter_some (statementsOf_cleanUp daysLimit)]
  exact sorted_renumber h log.clock

private theorem answerStamped_trim {n : Nat} {res : StampedLog × Option Text}
    (h : answerStamped choice (trimCommand n) log = some res) (hfresh : log.Fresh) :
    res.1.Fresh ∧ (LogServer.VisitsInOrder choice (log.rows.filter fun r => ¬ r.row.id ≤ n) →
      res.1.Sorted) := by
  obtain ⟨c, rfl, hrun⟩ := Option.bind_eq_some_iff.mp h
  rw [runStamped_of_statements (statementsOf_trim n), Option.some.injEq] at hrun
  subst hrun
  refine ⟨hfresh.execAllStamped _, fun hvisits => ?_⟩
  exact sorted_renumber (hvisits c rfl) log.clock

end Commands

/-! ## The invariant -/

namespace LogServer

variable {s t : LogServer}

/-- The stamps are from the past, and a handler has ids in the order of insertion. -/
structure Kept (s : LogServer) : Prop where
  fresh : s.log.Fresh
  sorted : s.handler.isSome → s.log.Sorted

theorem Kept.construct (h : s.Kept) {newProcess : Bool} {rowsLimit : Nat} {daysLimit : Int}
    {renumbered cleaned counted : Option StampedChoice}
    (horder : s.UpdatesInOrder (.construct newProcess rowsLimit daysLimit renumbered cleaned counted))
    (hstep : s.step (.construct newProcess rowsLimit daysLimit renumbered cleaned counted) =
      some t) : t.Kept := by
  obtain rfl := Option.some.inj hstep
  obtain ⟨hrenumbered, hcleaned, hstart⟩ := horder
  refine ⟨fresh_logAfter (fresh_logAfter h.fresh _) _, fun _ => ?_⟩
  change (logAfter cleaned (cleanUpCommand daysLimit) (s.renumberedLog renumbered)).Sorted
  cases cleaned with
  | some c => exact sorted_cleanUpCommand (hcleaned c rfl)
  | none =>
    rw [logAfter_none, renumberedLog]
    cases renumbered with
    | some c => exact sorted_renumberCommand (hrenumbered c rfl)
    | none =>
      rw [logAfter_none]
      simpa using hstart

private theorem Kept.trimLog {h : LogHandler} {trim : Option StampedChoice} (hkept : s.Kept)
    (hvisits : VisitsInOrder trim (s.log.rows.filter fun r => ¬ r.row.id ≤ s.trimmedIds h))
    (ht : s.trimLog h trim = some t) : t.Kept := by
  unfold LogServer.trimLog at ht
  split at ht
  case isTrue =>
    obtain ⟨res, hres, rfl⟩ := Option.map_eq_some_iff.mp ht
    obtain ⟨hfresh, hsorted⟩ := answerStamped_trim hres hkept.fresh
    exact ⟨hfresh, fun _ => hsorted hvisits⟩
  case isFalse =>
    obtain rfl := Option.some.inj ht
    exact hkept

private theorem Kept.recordLog (hkept : s.Kept) (hhandler : s.handler.isSome) {info : ReqInfo}
    {insert : Option StampedChoice} (hreads : insert.isSome → ReadsAsRecord info) :
    (s.recordLog info insert).Kept := by
  cases insert with
  | none => exact hkept
  | some c =>
    obtain ⟨host, port, ip, agent, method, target, hss⟩ := hreads rfl
    rw [LogServer.recordLog, answerStamped_of_statements hss]
    exact ⟨hkept.fresh.execAllStamped _, fun _ =>
      (hkept.sorted hhandler).insert hkept.fresh host port ip agent method target⟩

private theorem trimLog_handler {h : LogHandler} {trim : Option StampedChoice}
    (hhandler : s.handler = some h) (ht : s.trimLog h trim = some t) : t.handler.isSome := by
  unfold LogServer.trimLog at ht
  split at ht
  case isTrue =>
    obtain ⟨res, -, rfl⟩ := Option.map_eq_some_iff.mp ht
    rfl
  case isFalse =>
    obtain rfl := Option.some.inj ht
    rw [hhandler]
    rfl

theorem Kept.step (h : s.Kept) {a : LogEvent} (hstep : s.step a = some t)
    (horder : s.UpdatesInOrder a) : t.Kept := by
  cases a with
  | construct => exact h.construct horder hstep
  | update info trim insert =>
    obtain ⟨hvisits, hreads⟩ := horder
    simp only [LogServer.step] at hstep
    split at hstep
    case h_1 handler hhandler =>
      obtain ⟨u, hu, rfl⟩ := Option.map_eq_some_iff.mp hstep
      have hkept := h.trimLog (hvisits handler hhandler) hu
      exact hkept.recordLog (trimLog_handler hhandler hu) hreads
    case h_2 => exact nomatch hstep

private theorem Kept.trimsOldest (h : s.Kept) (a : LogEvent) : s.TrimsOldest a := by
  cases a with
  | construct => trivial
  | update =>
    intro handler hhandler _ r hr r' hr' hdeleted hkept
    have hsorted := h.sorted (by rw [Option.mem_def.mp hhandler]; rfl)
    exact hsorted.oldest hr hr' hdeleted hkept

end LogServer

/-- The table before the first handler. -/
structure StampedStart where
  rowsDelete : Option Nat
  log : StampedLog
  fresh : log.Fresh

def StampedStart.state (start : StampedStart) : LogServer := ⟨start.rowsDelete, none, start.log⟩

/-- When every `UPDATE` visits the rows in the order of their insertion, every trim deletes the
oldest records. -/
theorem trims_oldest (start : StampedStart) (events : List LogEvent)
    (h : logServerMachine.Guarded LogServer.UpdatesInOrder start.state events) :
    logServerMachine.Guarded LogServer.TrimsOldest start.state events :=
  h.exchange (P := LogServer.Kept)
    (fun _ _ _ hstep horder hs => hs.step hstep horder)
    (fun _ a _ _ _ hs => hs.trimsOldest a)
    ⟨start.fresh, fun hnone => nomatch hnone⟩

/-! ## Without the stamps -/

private theorem runCommand_of_stamped {command : Text} {ss : List Statement}
    (hss : statementsOf command = some ss) (hcount : ss.count .renumberRecords ≤ 1)
    (c : StampedChoice) {log : StampedLog} {db : Db} (h : log.Erases db) :
    ∃ records db', runCommand (c.withRecords records) command db =
        some (db', (execAllStamped c ss log).2) ∧ (execAllStamped c ss log).1.Erases db' := by
  obtain ⟨records, herases, hvalue⟩ := exists_execAll hcount c h
  refine ⟨records, (execAll (c.withRecords records) ss db).1, ?_, herases⟩
  rw [runCommand_of_statements hss, hvalue]

/-- A call with commands that succeed is a call of `update_log_table` on the plain table. -/
theorem update_erases {s t : LogServer} {h : LogHandler} {info : ReqInfo} {c c' : StampedChoice}
    {db : Db} (hhandler : s.handler = some h)
    (hstep : s.step (.update info (some c) (some c')) = some t) (hreads : ReadsAsRecord info)
    (herases : s.log.Erases db) :
    ∃ a t', a.info = info ∧
      LogProcess.step h.rowsLimit ⟨s.rowsDelete, h.logTableNrows, db⟩ a = some t' ∧
      t.rowsDelete = t'.rowsDelete ∧ t.handler = some ⟨h.rowsLimit, t'.logTableNrows⟩ ∧
      t.log.Erases t'.db := by
  simp only [LogServer.step, hhandler] at hstep
  obtain ⟨u, hu, rfl⟩ := Option.map_eq_some_iff.mp hstep
  have htrim : ∃ choice u', LogProcess.trimTable h.rowsLimit ⟨s.rowsDelete, h.logTableNrows, db⟩
      choice = some u' ∧ u.rowsDelete = u'.rowsDelete ∧
        u.handler = some ⟨h.rowsLimit, u'.logTableNrows⟩ ∧ u.log.Erases u'.db := by
    unfold LogServer.trimLog at hu
    unfold LogProcess.trimTable
    by_cases hlimit : h.logTableNrows > h.rowsLimit
    · rw [if_pos hlimit] at hu
      obtain ⟨res, hres, rfl⟩ := Option.map_eq_some_iff.mp hu
      rw [answerStamped_of_statements (statementsOf_trim _), Option.some.injEq] at hres
      subst hres
      obtain ⟨records, db', hrun, herases'⟩ :=
        runCommand_of_stamped (statementsOf_trim (s.trimmedIds h)) (by simp) c
          herases
      refine ⟨c.withRecords records, ⟨some (s.trimmedIds h), _, db'⟩, ?_, rfl, rfl, herases'⟩
      rw [if_pos hlimit]
      exact congrArg (Option.map _) hrun
    · rw [if_neg hlimit] at hu
      obtain rfl := Option.some.inj hu
      exact ⟨.plain, _, if_neg hlimit, rfl, hhandler, herases⟩
  obtain ⟨choice, u', hu', hdelete, hcount, hdb⟩ := htrim
  obtain ⟨host, port, ip, agent, method, target, hss⟩ := hreads
  obtain ⟨records, db', hrun, herases'⟩ := runCommand_of_stamped hss (by simp) c' hdb
  refine ⟨⟨info, choice, c'.withRecords records⟩,
    { u' with logTableNrows := increment u'.logTableNrows, db := db' }, rfl, ?_, ?_, ?_, ?_⟩
  · rw [LogProcess.step, hu', Option.bind_some, LogProcess.record, hrun, Option.map_some]
  all_goals rw [LogServer.recordLog, answerStamped_of_statements hss]
  · exact hdelete
  · rw [hcount]
    rfl
  · exact herases'

/-! ## Two runs -/

namespace LogServer

private theorem countedRows_some (c : StampedChoice) (log : StampedLog) :
    countedRows (some c) log = (log.rows.length : Int) := by
  have hanswer : answerStamped (some c) countCommand log =
      some (log, some (decimal log.rows.length)) :=
    answerStamped_of_statements statementsOf_count c log
  rw [countedRows, hanswer]
  exact atoi_decimal _

private theorem step_construct (s : LogServer) (newProcess : Bool) (rowsLimit : Nat) (daysLimit : Int)
    (c c' c'' : StampedChoice) :
    let log := (execAllStamped c' [.lockRecords, .deleteOldRecords daysLimit, .restartLogSeq,
      .renumberRecords] (execAllStamped c [.lockSongs, .restartSongSeq, .renumberSongs,
        .lockRecords, .restartLogSeq, .renumberRecords] s.log).1).1
    logServerMachine.step s
        (.construct newProcess rowsLimit daysLimit (some c) (some c') (some c'')) =
      some ⟨if newProcess then none else s.rowsDelete, some ⟨rowsLimit, log.rows.length⟩, log⟩ := by
  have hlog : s.cleanedLog daysLimit (some c) (some c') = (execAllStamped c' [.lockRecords,
      .deleteOldRecords daysLimit, .restartLogSeq, .renumberRecords] (execAllStamped c [.lockSongs,
        .restartSongSeq, .renumberSongs, .lockRecords, .restartLogSeq, .renumberRecords]
          s.log).1).1 := by
    rw [cleanedLog, renumberedLog, logAfter_some (statementsOf_cleanUp daysLimit),
      logAfter_some statementsOf_renumber]
  simp only [logServerMachine, step, hlog, countedRows_some]

private theorem step_update (s : LogServer) {h : LogHandler} (hhandler : s.handler = some h)
    (info : ReqInfo) (c : StampedChoice) (insert : Option StampedChoice) :
    ∃ t, logServerMachine.step s (.update info (some c) insert) = some t := by
  have htrim : ∃ u, s.trimLog h (some c) = some u := by
    unfold trimLog
    split
    · rw [answerStamped_of_statements (statementsOf_trim _)]
      exact ⟨_, rfl⟩
    · exact ⟨s, rfl⟩
  obtain ⟨u, hu⟩ := htrim
  refine ⟨u.recordLog info insert, ?_⟩
  simp only [logServerMachine, step, hhandler, hu, Option.map_some]

end LogServer

/-- Three records in the order of their insertion, without a handler. -/
def threeRecords : StampedStart where
  rowsDelete := none
  log := ⟨(List.range 3).map fun i => ⟨i, ⟨i + 1, [], [], [], [], [], [], 0⟩⟩, ⟨3, true⟩, 3⟩
  fresh := by decide

/-- A handler with the limit two, and a request. -/
def startAndTrim (renumbered : StampedChoice) : List LogEvent :=
  [.construct true 2 366 (some renumbered) (some .physical) (some .physical),
    .update .blank (some .physical) (some .physical)]

theorem trims_oldest_physical :
    logServerMachine.Guarded LogServer.TrimsOldest threeRecords.state
      (startAndTrim .physical) := by
  refine trims_oldest threeRecords (startAndTrim .physical) fun t ht => ⟨?_, fun u _ => ⟨?_, trivial⟩⟩
  · refine ⟨?_, ?_, Or.inl rfl⟩
    · intro c hc
      obtain rfl := Option.some.inj hc
      decide
    · intro c hc
      obtain rfl := Option.some.inj hc
      rw [LogServer.renumberedLog, logAfter_some statementsOf_renumber]
      decide
  · obtain rfl := Option.some.inj ((LogServer.step_construct _ _ _ _ _ _ _).symm.trans ht)
    refine ⟨?_, fun _ => readsAsRecord_of_safe (by decide)⟩
    intro handler hhandler c hc
    obtain rfl := Option.some.inj hc
    obtain rfl := Option.some.inj hhandler
    decide

/-- The same records, numbered from the last one on. -/
def reversedRecords : LogServer where
  rowsDelete := none
  handler := some ⟨2, 3⟩
  log := ⟨[⟨2, ⟨1, [], [], [], [], [], [], 0⟩⟩, ⟨1, ⟨2, [], [], [], [], [], [], 0⟩⟩,
    ⟨0, ⟨3, [], [], [], [], [], [], 0⟩⟩], ⟨3, true⟩, 3⟩

/-- The limits of the rows with which a trim deletes at least one. -/
def LogEvent.LimitsRows : LogEvent → Prop
  | .construct _ rowsLimit _ _ _ _ => 2 ≤ rowsLimit
  | .update _ _ _ => True

/-- The constructor numbers the rows from the last one on, and the trim deletes the newest. -/
theorem trims_not_oldest :
    ¬∀ (start : StampedStart) (events : List LogEvent), (∀ a ∈ events, a.LimitsRows) →
      logServerMachine.Guarded LogServer.TrimsOldest start.state events := by
  intro h
  have hconstruct : logServerMachine.step threeRecords.state (.construct true 2 366
      (some .backwards) (some .physical) (some .physical)) = some reversedRecords :=
    (LogServer.step_construct _ _ _ _ _ _ _).trans (by decide)
  have hrun : logServerMachine.Guarded LogServer.TrimsOldest threeRecords.state
      [.construct true 2 366 (some .backwards) (some .physical) (some .physical),
        .update .blank (some .physical) (some .physical)] :=
    h threeRecords _ (by simp [LogEvent.LimitsRows])
  have hrest := (hrun reversedRecords hconstruct).2
  obtain ⟨u, hu⟩ := reversedRecords.step_update rfl .blank .physical (some .physical)
  have hbad : ¬ reversedRecords.TrimsOldest (.update .blank (some .physical) (some .physical)) := by
    decide
  exact hbad (hrest u hu).1

end PetProject.Handler
