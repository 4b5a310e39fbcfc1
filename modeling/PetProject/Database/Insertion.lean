import Mathlib.Data.List.Pairwise
import PetProject.Database.Command
import PetProject.Database.Numbering

/-!
# The order of insertion

The log table with a stamp on every row, which counts the insertions. The stamps are ghosts: no
statement looks at them, and without them every execution is one of the plain table. An `UPDATE`
that visits the rows in the order of their stamps leaves the ids in that order.
-/

namespace PetProject.Database

open Framework

structure StampedRow where
  stamp : Nat
  row : LogRow
  deriving DecidableEq, Repr

def StampedRow.setId (i : Int) (r : StampedRow) : StampedRow := { r with row := r.row.setId i }

/-- The log table, its sequence and the stamp of the next insertion. -/
structure StampedLog where
  rows : List StampedRow
  seq : Sequence
  clock : Nat
  deriving DecidableEq, Repr

/-- What the server chooses while it executes a command on the log table. -/
structure StampedChoice where
  visit : Visit StampedRow
  now : Nat

def StampedChoice.physical : StampedChoice := ⟨Visit.physical _, 0⟩

/-- A visit that starts with the last row. -/
def StampedChoice.backwards : StampedChoice := ⟨⟨List.reverse, List.reverse_perm⟩, 0⟩

/-- The effect of one statement; those on the catalogue have none. -/
def Statement.execStamped (choice : StampedChoice) :
    Statement → StampedLog → StampedLog × Option Text
  | .insertRecord host port ip agent method target, log =>
      let seq := log.seq.nextval
      (⟨log.rows ++ [⟨log.clock, ⟨seq.lastValue, host, port, ip, agent, method, target,
          choice.now⟩⟩], seq, log.clock + 1⟩, none)
  | .deleteRecords n, log =>
      ({ log with rows := log.rows.filter fun r => ¬ r.row.id ≤ n }, none)
  | .deleteOldRecords days, log =>
      ({ log with rows := log.rows.filter fun r => ¬ r.row.age choice.now ≥ days }, none)
  | .restartLogSeq, log => ({ log with seq := .restart }, none)
  | .renumberRecords, log =>
      let numbered := renumber StampedRow.setId log.seq (choice.visit.order log.rows)
      ({ log with rows := numbered.1, seq := numbered.2 }, none)
  | .selectLogSeq, log => (log, some (decimal log.seq.lastValue))
  | .countRecords, log => (log, some (decimal log.rows.length))
  | _, log => (log, none)

def execAllStamped (choice : StampedChoice) :
    List Statement → StampedLog → StampedLog × Option Text
  | [], log => (log, none)
  | [s], log => s.execStamped choice log
  | s :: rest, log => execAllStamped choice rest (s.execStamped choice log).1

/-- Execute a command string; `none` when the server rejects it. -/
def runStamped (choice : StampedChoice) (command : Text) (log : StampedLog) :
    Option (StampedLog × Option Text) :=
  (statementsOf command).map fun ss => execAllStamped choice ss log

theorem runStamped_of_statements {command : Text} {ss : List Statement}
    (h : statementsOf command = some ss) (choice : StampedChoice) (log : StampedLog) :
    runStamped choice command log = some (execAllStamped choice ss log) := by
  rw [runStamped, h, Option.map_some]

/-! ## Without the stamps -/

/-- The database has the log table without its stamps. -/
structure StampedLog.Erases (log : StampedLog) (db : Db) : Prop where
  rows : db.logTable = log.rows.map StampedRow.row
  seq : db.logSeq = log.seq

private theorem renumber_comm {α β : Type} {setId : Int → α → α} {setId' : Int → β → β} {f : α → β}
    (hf : ∀ i a, f (setId i a) = setId' i (f a)) (seq : Sequence) (rows : List α) :
    renumber setId' seq (rows.map f) =
      ((renumber setId seq rows).1.map f, (renumber setId seq rows).2) := by
  induction rows generalizing seq with
  | nil => rfl
  | cons row rows ih => simp only [List.map_cons, renumber, ih, hf]

/-- The plain visit that goes through the given rows as the stamped one does. -/
def Visit.erased (visit : Visit StampedRow) (rows : List StampedRow) : Visit LogRow where
  order l := if l = rows.map StampedRow.row then (visit.order rows).map StampedRow.row else l
  perm l := by
    split
    case isTrue h => exact h ▸ (visit.perm rows).map _
    case isFalse => exact List.Perm.refl l

private theorem Visit.erased_order (visit : Visit StampedRow) (rows : List StampedRow) :
    (visit.erased rows).order (rows.map StampedRow.row) =
      (visit.order rows).map StampedRow.row := if_pos rfl

section Erasure

variable {log : StampedLog} {db : Db} {choice : StampedChoice} {c : Choice}

private theorem execStamped_renumber (h : log.Erases db)
    (hvisit : c.records.order (log.rows.map StampedRow.row) =
      (choice.visit.order log.rows).map StampedRow.row) :
    (Statement.renumberRecords.execStamped choice log).1.Erases
        (Statement.renumberRecords.exec c db).1 ∧
      (Statement.renumberRecords.execStamped choice log).2 =
        (Statement.renumberRecords.exec c db).2 := by
  have hrow : ∀ i (r : StampedRow), (r.setId i).row = r.row.setId i := fun _ _ => rfl
  have hcomm := renumber_comm hrow log.seq (choice.visit.order log.rows)
  refine ⟨⟨?_, ?_⟩, rfl⟩
  · simp only [Statement.exec, Statement.execStamped, h.rows, h.seq, hvisit, hcomm]
  · simp only [Statement.exec, Statement.execStamped, h.rows, h.seq, hvisit, hcomm]

private theorem execStamped_erases {s : Statement} (hs : s ≠ .renumberRecords) (h : log.Erases db)
    (hnow : c.now = choice.now) :
    (s.execStamped choice log).1.Erases (s.exec c db).1 ∧
      (s.execStamped choice log).2 = (s.exec c db).2 := by
  cases s with
  | renumberRecords => exact absurd rfl hs
  | insertRecord => exact ⟨⟨by simp [Statement.exec, Statement.execStamped, h.rows, h.seq, hnow],
      by simp [Statement.exec, Statement.execStamped, h.seq]⟩, rfl⟩
  | deleteRecords n => exact ⟨⟨by
      simp only [Statement.exec, Statement.execStamped, h.rows, List.filter_map]; rfl, h.seq⟩, rfl⟩
  | deleteOldRecords days => exact ⟨⟨by
      simp only [Statement.exec, Statement.execStamped, h.rows, List.filter_map, hnow]; rfl,
      h.seq⟩, rfl⟩
  | restartLogSeq => exact ⟨⟨h.rows, rfl⟩, rfl⟩
  | selectLogSeq => exact ⟨h, by simp [Statement.exec, Statement.execStamped, h.seq]⟩
  | countRecords => exact ⟨h, by simp [Statement.exec, Statement.execStamped, h.rows]⟩
  | lockSongs | lockRecords | insertSong | deleteSong | truncateSongs | restartSongSeq
  | renumberSongs => exact ⟨⟨h.rows, h.seq⟩, rfl⟩

private theorem execAllStamped_erases {ss : List Statement} (hss : .renumberRecords ∉ ss)
    (h : log.Erases db) (hnow : c.now = choice.now) :
    (execAllStamped choice ss log).1.Erases (execAll c ss db).1 ∧
      (execAllStamped choice ss log).2 = (execAll c ss db).2 := by
  induction ss generalizing log db with
  | nil => exact ⟨h, rfl⟩
  | cons s ss ih =>
    obtain ⟨hs, hrest⟩ := not_or.mp (mt List.mem_cons.mpr hss)
    have hstep := execStamped_erases (Ne.symm hs) h hnow
    cases ss with
    | nil => exact hstep
    | cons s' ss => exact ih hrest hstep.1

/-- The choice in which the catalogue is visited in its physical order. -/
def StampedChoice.withRecords (choice : StampedChoice) (records : Visit LogRow) : Choice :=
  ⟨Visit.physical _, records, choice.now⟩

private theorem exec_withRecords {s : Statement} (hs : s ≠ .renumberRecords) (choice : StampedChoice)
    (records records' : Visit LogRow) (db : Db) :
    s.exec (choice.withRecords records) db = s.exec (choice.withRecords records') db := by
  cases s with
  | renumberRecords => exact absurd rfl hs
  | _ => rfl

/-- Without its stamps, a transaction with one `UPDATE` of the log table is one that the server is
free to execute on the plain table. -/
theorem exists_execAll {ss : List Statement} (hss : ss.count .renumberRecords ≤ 1)
    (choice : StampedChoice) (h : log.Erases db) :
    ∃ records, (execAllStamped choice ss log).1.Erases
        (execAll (choice.withRecords records) ss db).1 ∧
      (execAllStamped choice ss log).2 = (execAll (choice.withRecords records) ss db).2 := by
  induction ss generalizing log db with
  | nil => exact ⟨Visit.physical _, h, rfl⟩
  | cons s ss ih =>
    by_cases hs : s = .renumberRecords
    · subst hs
      have hrest : .renumberRecords ∉ ss := by
        rw [List.count_cons_self] at hss
        exact List.count_eq_zero.mp (by omega)
      have hstep := execStamped_renumber (c := choice.withRecords (choice.visit.erased log.rows)) h
        (choice.visit.erased_order log.rows)
      refine ⟨choice.visit.erased log.rows, ?_⟩
      cases ss with
      | nil => exact hstep
      | cons s' ss =>
        have herases := execAllStamped_erases hrest hstep.1
          (c := choice.withRecords (choice.visit.erased log.rows)) rfl
        exact herases
    · have hrest : ss.count .renumberRecords ≤ 1 := by
        rwa [List.count_cons_of_ne hs] at hss
      have hstep := execStamped_erases (c := choice.withRecords (Visit.physical _)) hs h rfl
      cases ss with
      | nil => exact ⟨Visit.physical _, hstep⟩
      | cons s' ss =>
        obtain ⟨records, herases⟩ := ih hrest hstep.1
        refine ⟨records, ?_⟩
        rw [exec_withRecords hs choice _ records] at herases
        exact herases

end Erasure

/-! ## Ids in the order of insertion -/

/-- A row that was inserted earlier has a lower id. -/
def Chronological (rows : List StampedRow) : Prop :=
  ∀ r ∈ rows, ∀ r' ∈ rows, r.stamp < r'.stamp → r.row.id < r'.row.id

/-- The ids are in the order of insertion, and the sequence goes on behind them. -/
structure StampedLog.Sorted (log : StampedLog) : Prop where
  chronological : Chronological log.rows
  ahead : ∀ r ∈ log.rows, r.row.id < log.seq.nextval.lastValue

/-- The stamps are from the past. -/
def StampedLog.Fresh (log : StampedLog) : Prop := ∀ r ∈ log.rows, r.stamp < log.clock

instance (log : StampedLog) : Decidable log.Fresh := List.decidableBAll _ log.rows

def InInsertionOrder (rows : List StampedRow) : Prop :=
  rows.Pairwise fun r r' => r.stamp ≤ r'.stamp

instance (rows : List StampedRow) : Decidable (InInsertionOrder rows) :=
  inferInstanceAs (Decidable (List.Pairwise _ rows))

theorem sorted_renumber {rows : List StampedRow} (h : InInsertionOrder rows) (clock : Nat) :
    StampedLog.Sorted ⟨(renumber StampedRow.setId .restart rows).1,
      (renumber StampedRow.setId .restart rows).2, clock⟩ := by
  have hid : ∀ i (r : StampedRow), (r.setId i).row.id = i := fun _ _ => rfl
  have hstamp : ∀ i (r : StampedRow), (r.setId i).stamp = r.stamp := fun _ _ => rfl
  have hids : (renumber StampedRow.setId .restart rows).1.map (fun r => r.row.id) =
      (List.range' Sequence.restart.nextval.lastValue rows.length).map Nat.cast :=
    renumber_ids hid .restart rows
  have hstamps := renumber_map (f := StampedRow.stamp) hstamp .restart rows
  have hnext : (renumber StampedRow.setId .restart rows).2.nextval.lastValue =
      Sequence.restart.nextval.lastValue + rows.length := renumber_next .restart rows
  have hfirst : Sequence.restart.nextval.lastValue = 1 := rfl
  rw [hfirst] at hids hnext
  generalize (renumber StampedRow.setId .restart rows).1 = numbered at hids hstamps
  have hbelow : numbered.Pairwise fun r r' => r.row.id < r'.row.id := by
    have hrange : ((List.range' 1 rows.length).map (Nat.cast : Nat → Int)).Pairwise (· < ·) := by
      rw [List.pairwise_map]
      exact (List.pairwise_lt_range' (s := 1) (n := rows.length)).imp fun h => by exact_mod_cast h
    rw [← hids, List.pairwise_map] at hrange
    exact hrange
  have hsorted : numbered.Pairwise fun r r' => r.stamp ≤ r'.stamp := by
    have hmap : (rows.map StampedRow.stamp).Pairwise (· ≤ ·) := List.pairwise_map.mpr h
    rw [← hstamps, List.pairwise_map] at hmap
    exact hmap
  constructor
  · have hself : ∀ r ∈ numbered, r.stamp < r.stamp → r.row.id < r.row.id :=
      fun r _ h => absurd h (lt_irrefl r.stamp)
    have hfirst : numbered.Pairwise fun r r' => r.stamp < r'.stamp → r.row.id < r'.row.id := by
      apply hbelow.imp
      intro r r' h _
      exact h
    have hlater : numbered.Pairwise fun r r' => r'.stamp < r.stamp → r'.row.id < r.row.id :=
      hsorted.imp fun hle hlt => absurd hlt (by omega)
    intro r hr r' hr'
    exact List.Pairwise.forall_of_forall_of_flip hself hfirst hlater hr hr'
  · intro r hr
    have hmem : r.row.id ∈ (List.range' 1 rows.length).map (Nat.cast : Nat → Int) := by
      rw [← hids]
      exact List.mem_map_of_mem hr
    obtain ⟨k, hk, hkr⟩ := List.mem_map.mp hmem
    rw [List.mem_range'_1] at hk
    rw [← hkr, hnext]
    omega

private theorem mem_renumber_stamp {seq : Sequence} {rows : List StampedRow} {r : StampedRow}
    (h : r ∈ (renumber StampedRow.setId seq rows).1) : ∃ r' ∈ rows, r'.stamp = r.stamp := by
  have hstamp : ∀ i (r : StampedRow), (r.setId i).stamp = r.stamp := fun _ _ => rfl
  have hmem : r.stamp ∈ rows.map StampedRow.stamp := by
    rw [← renumber_map hstamp seq rows]
    exact List.mem_map_of_mem h
  exact List.mem_map.mp hmem

namespace StampedLog

variable {log : StampedLog} {choice : StampedChoice}

private theorem Fresh.execStamped (h : log.Fresh) (s : Statement) :
    (s.execStamped choice log).1.Fresh := by
  cases s with
  | insertRecord =>
    intro r hr
    rcases List.mem_append.mp hr with hr | hr
    · exact Nat.lt_succ_of_lt (h r hr)
    · rw [List.mem_singleton.mp hr]
      exact Nat.lt_succ_self _
  | deleteRecords | deleteOldRecords => exact fun r hr => h r (List.mem_of_mem_filter hr)
  | renumberRecords =>
    intro r hr
    obtain ⟨r', hr', hstamp⟩ := mem_renumber_stamp hr
    rw [← hstamp]
    exact h r' ((choice.visit.perm log.rows).subset hr')
  | _ => exact h

theorem Fresh.execAllStamped (h : log.Fresh) (ss : List Statement) :
    (Database.execAllStamped choice ss log).1.Fresh := by
  induction ss generalizing log with
  | nil => exact h
  | cons s ss ih =>
    cases ss with
    | nil => exact h.execStamped s
    | cons s' ss => exact ih (h.execStamped s)

theorem Sorted.insert (h : log.Sorted) (hfresh : log.Fresh)
    (host port ip agent method target : Text) :
    ((Statement.insertRecord host port ip agent method target).execStamped choice
      log).1.Sorted := by
  have hnext := log.seq.nextval_nextval
  constructor
  · intro r hr r' hr' hlt
    rcases List.mem_append.mp hr with hr | hr <;> rcases List.mem_append.mp hr' with hr' | hr'
    · exact h.chronological r hr r' hr' hlt
    · rw [List.mem_singleton.mp hr']
      exact h.ahead r hr
    · rw [List.mem_singleton.mp hr] at hlt
      have hold := hfresh r' hr'
      simp only at hlt
      omega
    · rw [List.mem_singleton.mp hr, List.mem_singleton.mp hr'] at hlt
      exact absurd hlt (lt_irrefl _)
  · intro r hr
    change r.row.id < (log.seq.nextval.nextval.lastValue : Int)
    rw [hnext]
    rcases List.mem_append.mp hr with hr | hr
    · have hbefore := h.ahead r hr
      omega
    · rw [List.mem_singleton.mp hr]
      exact Int.ofNat_lt.mpr (Nat.lt_succ_self _)

/-- A trim of a sorted table deletes the oldest rows. -/
theorem Sorted.oldest (h : log.Sorted) {n : Int} {r r' : StampedRow} (hr : r ∈ log.rows)
    (hr' : r' ∈ log.rows) (hdeleted : r.row.id ≤ n) (hkept : ¬ r'.row.id ≤ n) :
    r.stamp ≤ r'.stamp := by
  by_contra hlater
  have hid := h.chronological r' hr' r hr (by omega)
  omega

end StampedLog

end PetProject.Database
