import Mathlib.Data.Multiset.Filter
import PetProject.Framework.Bag
import PetProject.Framework.SqlText

/-!
# Tables and statements

The two tables and the two sequences of `pet_project_db_tables.sql`, and what the statements
that the program issues do to them. The order in which an `UPDATE` visits the rows is a choice
of the server, as is the time of day.
-/

namespace PetProject.Database

open Framework

/-- A sequence; `last_value` is handed out first when it has not been called since a restart. -/
structure Sequence where
  lastValue : Nat
  isCalled : Bool
  deriving DecidableEq, Repr

def Sequence.restart : Sequence := ⟨1, false⟩

def Sequence.nextval (s : Sequence) : Sequence :=
  if s.isCalled then ⟨s.lastValue + 1, true⟩ else ⟨s.lastValue, true⟩

structure SongRow where
  id : Int
  songName : Text
  songUid : Text
  songUrl : Text
  deriving DecidableEq, Repr

structure LogRow where
  id : Int
  requestedHost : Text
  port : Text
  ip : Text
  userAgent : Text
  restMethod : Text
  target : Text
  reqDateTime : Nat
  deriving DecidableEq, Repr

def SongRow.setId (i : Int) (row : SongRow) : SongRow := { row with id := i }

def LogRow.setId (i : Int) (row : LogRow) : LogRow := { row with id := i }

structure Db where
  songTable : List SongRow
  songSeq : Sequence
  logTable : List LogRow
  logSeq : Sequence
  deriving DecidableEq, Repr

/-- The multiset of the `song_name` column. -/
def Db.songNames (db : Db) : Multiset Text := db.songTable.map SongRow.songName

/-- An order in which a statement visits the rows of a table, each of them once. -/
structure Visit (α : Type) where
  order : List α → List α
  perm : ∀ rows, (order rows).Perm rows

def Visit.physical (α : Type) : Visit α := ⟨id, fun _ => List.Perm.refl _⟩

/-- What the server is free to choose while it executes a command. -/
structure Choice where
  songs : Visit SongRow
  records : Visit LogRow
  now : Nat

def Choice.plain : Choice := ⟨Visit.physical _, Visit.physical _, 0⟩

/-- `UPDATE ... SET ID = DEFAULT` over rows that are visited in the given order. -/
def renumber {α : Type} (setId : Int → α → α) : Sequence → List α → List α × Sequence
  | seq, [] => ([], seq)
  | seq, row :: rows =>
      let next := seq.nextval
      let rest := renumber setId next rows
      (setId next.lastValue row :: rest.1, rest.2)

inductive Statement
  | lockSongs
  | lockRecords
  | insertSong (songName songUid songUrl : Text)
  | deleteSong (songName : Text)
  | truncateSongs
  | restartSongSeq
  | renumberSongs
  | insertRecord (requestedHost port ip userAgent restMethod target : Text)
  | deleteRecords (upTo : Nat)
  | deleteOldRecords (days : Int)
  | restartLogSeq
  | renumberRecords
  | selectLogSeq
  | countRecords
  deriving DecidableEq, Repr

def decimal (n : Nat) : Text := Nat.toDigits 10 n

/-- `DATE_TRUNC('days', LOCALTIMESTAMP - req_date_time)`, in days. -/
def LogRow.age (now : Nat) (row : LogRow) : Int := ((now : Int) - row.reqDateTime).tdiv 86400

/-- The effect of one statement, and the single value it yields. -/
def Statement.exec (choice : Choice) : Statement → Db → Db × Option Text
  | .lockSongs, db => (db, none)
  | .lockRecords, db => (db, none)
  | .insertSong name uid url, db =>
      let seq := db.songSeq.nextval
      ({ db with songTable := db.songTable ++ [⟨seq.lastValue, name, uid, url⟩],
                 songSeq := seq }, none)
  | .deleteSong name, db =>
      ({ db with songTable := db.songTable.filter fun row => row.songName ≠ name }, none)
  | .truncateSongs, db => ({ db with songTable := [] }, none)
  | .restartSongSeq, db => ({ db with songSeq := .restart }, none)
  | .renumberSongs, db =>
      let rows := renumber SongRow.setId db.songSeq (choice.songs.order db.songTable)
      ({ db with songTable := rows.1, songSeq := rows.2 }, none)
  | .insertRecord host port ip agent method target, db =>
      let seq := db.logSeq.nextval
      ({ db with logTable := db.logTable ++
                   [⟨seq.lastValue, host, port, ip, agent, method, target, choice.now⟩],
                 logSeq := seq }, none)
  | .deleteRecords n, db =>
      ({ db with logTable := db.logTable.filter fun row => ¬ row.id ≤ n }, none)
  | .deleteOldRecords days, db =>
      ({ db with logTable := db.logTable.filter fun row => ¬ row.age choice.now ≥ days }, none)
  | .restartLogSeq, db => ({ db with logSeq := .restart }, none)
  | .renumberRecords, db =>
      let rows := renumber LogRow.setId db.logSeq (choice.records.order db.logTable)
      ({ db with logTable := rows.1, logSeq := rows.2 }, none)
  | .selectLogSeq, db => (db, some (decimal db.logSeq.lastValue))
  | .countRecords, db => (db, some (decimal db.logTable.length))

/-- One transaction; the result of a command is the result of its last statement. -/
def execAll (choice : Choice) : List Statement → Db → Db × Option Text
  | [], db => (db, none)
  | [s], db => s.exec choice db
  | s :: rest, db => execAll choice rest (s.exec choice db).1

/-! ## The catalogue -/

theorem renumber_map {α β : Type} {setId : Int → α → α} {f : α → β}
    (hf : ∀ i a, f (setId i a) = f a) (seq : Sequence) (rows : List α) :
    (renumber setId seq rows).1.map f = rows.map f := by
  induction rows generalizing seq with
  | nil => rfl
  | cons row rows ih => simp only [renumber, List.map_cons, hf, ih]

theorem renumber_length {α : Type} (setId : Int → α → α) (seq : Sequence) (rows : List α) :
    (renumber setId seq rows).1.length = rows.length := by
  induction rows generalizing seq with
  | nil => rfl
  | cons row rows ih => simp only [renumber, List.length_cons, ih]

theorem Sequence.nextval_nextval (s : Sequence) :
    s.nextval.nextval.lastValue = s.nextval.lastValue + 1 := by
  cases h : s.isCalled <;> simp [nextval, h]

private theorem renumber_lastValue {α : Type} (setId : Int → α → α) (seq : Sequence) (rows : List α)
    (hrows : rows ≠ []) :
    (renumber setId seq rows).2.lastValue = seq.nextval.lastValue + (rows.length - 1) := by
  induction rows generalizing seq with
  | nil => exact absurd rfl hrows
  | cons row rows ih =>
    cases rows with
    | nil => simp [renumber]
    | cons row' rows =>
      rw [renumber, ih seq.nextval (List.cons_ne_nil _ _)]
      rw [seq.nextval_nextval]
      simp only [List.length_cons]
      omega

/-- The rows that a trim keeps. -/
def Db.keptRecords (db : Db) (upTo : Nat) : List LogRow :=
  db.logTable.filter fun row => ¬row.id ≤ upTo

/-- A trim reports the number of the rows that it keeps, provided that it keeps any. -/
theorem execAll_trim (n : Nat) (choice : Choice) (db : Db) :
    (execAll choice [.lockRecords, .deleteRecords n, .restartLogSeq, .renumberRecords,
        .selectLogSeq] db).1.logTable.length = (db.keptRecords n).length ∧
    (db.keptRecords n ≠ [] →
      (execAll choice [.lockRecords, .deleteRecords n, .restartLogSeq, .renumberRecords,
          .selectLogSeq] db).2 = some (decimal (db.keptRecords n).length)) := by
  have hperm := choice.records.perm (db.keptRecords n)
  refine ⟨?_, fun hrows => ?_⟩
  · change (renumber LogRow.setId .restart (choice.records.order (db.keptRecords n))).1.length = _
    rw [renumber_length, hperm.length_eq]
  · have hvisited : choice.records.order (db.keptRecords n) ≠ [] :=
      fun hnil => hrows (hnil ▸ hperm).symm.eq_nil
    have hlast := renumber_lastValue LogRow.setId .restart _ hvisited
    have hpos := List.length_pos_iff.mpr hrows
    have hfirst : Sequence.restart.nextval.lastValue = 1 := rfl
    change some (decimal (renumber LogRow.setId .restart
      (choice.records.order (db.keptRecords n))).2.lastValue) = _
    rw [hlast, hperm.length_eq, hfirst]
    congr 2
    omega

theorem execAll_insertRecord (choice : Choice) (host port ip agent method target : Text) (db : Db) :
    (execAll choice [.lockRecords, .insertRecord host port ip agent method target]
      db).1.logTable.length = db.logTable.length + 1 := by
  simp [execAll, Statement.exec]

/-- What a statement does to the multiset of song names. -/
def Statement.bagOp : Statement → List (BagOp Text)
  | .insertSong name _ _ => [.add name]
  | .deleteSong name => [.drop name]
  | .truncateSongs => [.clear]
  | _ => []

private theorem Statement.exec_songNames (choice : Choice) (s : Statement) (db : Db) :
    (s.exec choice db).1.songNames = BagOp.applyAll s.bagOp db.songNames := by
  cases s with
  | insertSong name uid url =>
    simp only [exec, bagOp, Db.songNames, BagOp.applyAll, BagOp.apply, List.foldl_cons,
      List.foldl_nil, List.map_append, List.map_cons, List.map_nil]
    rw [Multiset.cons_coe, Multiset.coe_eq_coe]
    exact List.perm_append_singleton _ _
  | deleteSong name =>
    simp only [exec, bagOp, Db.songNames, BagOp.applyAll, BagOp.apply, List.foldl_cons,
      List.foldl_nil, Multiset.filter_coe, Multiset.coe_eq_coe]
    rw [List.filter_map]
    exact List.Perm.refl _
  | truncateSongs => rfl
  | renumberSongs =>
    simp only [exec, bagOp, Db.songNames, BagOp.applyAll, List.foldl_nil, Multiset.coe_eq_coe]
    have hnames : ∀ i (row : SongRow), (row.setId i).songName = row.songName := fun _ _ => rfl
    rw [renumber_map hnames]
    exact (choice.songs.perm _).map _
  | _ => rfl

theorem execAll_songNames (choice : Choice) (ss : List Statement) (db : Db) :
    (execAll choice ss db).1.songNames =
      BagOp.applyAll (ss.flatMap Statement.bagOp) db.songNames := by
  induction ss generalizing db with
  | nil => rfl
  | cons s ss ih =>
    rw [List.flatMap_cons, BagOp.applyAll_append, ← s.exec_songNames choice]
    cases ss with
    | nil => rfl
    | cons s' ss => rw [execAll, ih]; exact fun h => nomatch h

end PetProject.Database
