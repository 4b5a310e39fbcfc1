import PetProject.Handler.LogTable
import PetProject.Handler.RowNumbers

/-!
# Runs of `update_log_table`

One handler, and calls of `update_log_table` one after the other. The number of rows that a trim
deletes is a `static` of the function: the first handler of the process that trims fixes it for
all. The table stays bounded exactly when that number is not zero and the counter never reaches
the end of its type below the limit.
-/

namespace PetProject.Handler

open Framework Database

/-- The `static`, once it is initialised, the counter of the handler and the database. -/
structure LogProcess where
  rowsDelete : Option Nat
  logTableNrows : Int
  db : Db

/-- A call, with what the server chooses while it executes the two commands. -/
structure LogRequest where
  info : ReqInfo
  trim : Choice
  insert : Choice

namespace LogProcess

/-- The first half of `update_log_table`; `none` when the command fails. -/
def trimTable (rowsLimit : Nat) (s : LogProcess) (choice : Choice) : Option LogProcess :=
  if s.logTableNrows > rowsLimit then
    let rowsDelete := s.rowsDelete.getD (rowsLimit / 2)
    (runCommand choice (trimCommand rowsDelete) s.db).map fun res =>
      ⟨some rowsDelete, atoi (res.2.getD []), res.1⟩
  else some s

/-- The second half. -/
def record (s : LogProcess) (info : ReqInfo) (choice : Choice) : Option LogProcess :=
  (runCommand choice (insertCommand info) s.db).map fun res =>
    { s with logTableNrows := increment s.logTableNrows, db := res.1 }

/-- `update_log_table` with commands that succeed. -/
def step (rowsLimit : Nat) (s : LogProcess) (a : LogRequest) : Option LogProcess :=
  (s.trimTable rowsLimit a.trim).bind fun t => t.record a.info a.insert

def rows (s : LogProcess) : Nat := s.db.logTable.length

/-- The bound on the table that had `n` rows in the beginning. -/
def Bounded (n rowsLimit : Nat) (s : LogProcess) : Prop := s.rows ≤ max n (rowsLimit + 1)

instance (n rowsLimit : Nat) (s : LogProcess) : Decidable (s.Bounded n rowsLimit) :=
  inferInstanceAs (Decidable (_ ≤ _))

end LogProcess

def logRunMachine (rowsLimit : Nat) : Machine LogProcess LogRequest := ⟨LogProcess.step rowsLimit⟩

/-- A handler that was just constructed, in a process where another one may have trimmed before:
the records are numbered, and an `int` holds their number. -/
structure LogStart where
  rowsDelete : Option Nat
  db : Db
  numbered : RecordsNumbered db
  fits : (db.logTable.length : Int) ≤ intMax

def LogStart.state (start : LogStart) : LogProcess :=
  ⟨start.rowsDelete, start.db.logTable.length, start.db⟩

/-- The command of the call is read as one `INSERT`. -/
def ReadsAsRecord (info : ReqInfo) : Prop :=
  ∃ host port ip agent method target, statementsOf (insertCommand info) =
    some [.lockRecords, .insertRecord host port ip agent method target]

theorem readsAsRecord_of_safe {info : ReqInfo} (hsafe : ∀ f ∈ info.fields, SafeLiteral f) :
    ReadsAsRecord info :=
  ⟨_, _, _, _, _, _, statementsOf_insert hsafe⟩

/-! ## One call -/

private theorem length_keptRecords {db : Db} (h : RecordsNumbered db) (d : Nat) :
    (db.keptRecords d).length = db.logTable.length - d := by
  have hcount : (db.keptRecords d).length =
      ((List.range' 1 db.logTable.length).map Nat.cast).countP fun i : Int => ¬ i ≤ d := by
    rw [← h.ids.countP_eq, List.countP_map, List.countP_eq_length_filter]
    rfl
  have hrange : ∀ n, ((List.range' 1 n).map Nat.cast).countP (fun i : Int => ¬ i ≤ d) = n - d := by
    intro n
    induction n with
    | zero => simp
    | succ n ih =>
      rw [List.range'_1_concat, List.map_append, List.countP_append, ih, List.map_singleton,
        List.countP_singleton]
      by_cases hd : n + 1 ≤ d
      · have hle : ((1 + n : Nat) : Int) ≤ d := by omega
        simp only [hle, not_true_eq_false, decide_false, Bool.false_eq_true, if_false]
        omega
      · have hgt : ¬ ((1 + n : Nat) : Int) ≤ d := by omega
        simp only [hgt, not_false_eq_true, decide_true, if_true]
        omega
  rw [hcount, hrange]

private theorem trim_value (d : Nat) (choice : Choice) (db : Db) :
    (execAll choice [.lockRecords, .deleteRecords d, .restartLogSeq, .renumberRecords,
      .selectLogSeq] db).2 = some (decimal (max 1 (db.keptRecords d).length)) := by
  by_cases hkept : db.keptRecords d = []
  · have hvisited : choice.records.order (db.keptRecords d) = [] := by
      have hperm := choice.records.perm (db.keptRecords d)
      rw [hkept] at hperm ⊢
      exact hperm.eq_nil
    change some (decimal (renumber LogRow.setId .restart
      (choice.records.order (db.keptRecords d))).2.lastValue) = _
    rw [hvisited, hkept]
    rfl
  · have hpos := List.length_pos_iff.mpr hkept
    rw [(execAll_trim d choice db).2 hkept, Nat.max_eq_right hpos]

namespace LogProcess

variable {rowsLimit : Nat} {s t u : LogProcess} {choice : Choice} {a : LogRequest}

private theorem trimTable_spec (h : s.trimTable rowsLimit choice = some t)
    (hnumbered : RecordsNumbered s.db) :
    RecordsNumbered t.db ∧
      t.rowsDelete.getD (rowsLimit / 2) = s.rowsDelete.getD (rowsLimit / 2) ∧
      (s.logTableNrows ≤ rowsLimit ∧ t.rows = s.rows ∧ t.logTableNrows = s.logTableNrows ∨
        (rowsLimit : Int) < s.logTableNrows ∧
          t.rows = s.rows - s.rowsDelete.getD (rowsLimit / 2) ∧
          t.logTableNrows = ((max 1 t.rows : Nat) : Int)) := by
  unfold trimTable at h
  split at h
  case isTrue hlimit =>
    simp only [runCommand_trim, Option.map_some, Option.some.injEq] at h
    subst h
    have hrows := (execAll_trim (s.rowsDelete.getD (rowsLimit / 2)) choice s.db).1
    have hvalue := trim_value (s.rowsDelete.getD (rowsLimit / 2)) choice s.db
    refine ⟨numbered_renumber (fun _ _ => rfl) _, rfl, Or.inr ⟨hlimit, ?_, ?_⟩⟩
    · exact hrows.trans (length_keptRecords hnumbered _)
    · rw [rows, hrows]
      simp only [hvalue, Option.getD_some, atoi_decimal]
  case isFalse hlimit =>
    obtain rfl := Option.some.inj h
    exact ⟨hnumbered, rfl, Or.inl ⟨by omega, rfl, rfl⟩⟩

private theorem record_spec {info : ReqInfo} (hreads : ReadsAsRecord info)
    (hnumbered : RecordsNumbered s.db) :
    ∃ t, s.record info choice = some t ∧ RecordsNumbered t.db ∧ t.rowsDelete = s.rowsDelete ∧
      t.rows = s.rows + 1 ∧ t.logTableNrows = increment s.logTableNrows := by
  obtain ⟨host, port, ip, agent, method, target, hss⟩ := hreads
  have hrecord : s.record info choice = some { s with
      logTableNrows := increment s.logTableNrows
      db := (execAll choice [.lockRecords, .insertRecord host port ip agent method target] s.db).1 } := by
    rw [record, runCommand_of_statements hss, Option.map_some]
  refine ⟨_, hrecord, ?_, rfl, ?_, rfl⟩
  · exact Numbered.append hnumbered rfl
  · exact execAll_insertRecord choice host port ip agent method target s.db

/-- What a call does to numbered records: after a trim the counter starts anew from the rows that
are left. -/
theorem step_spec (h : s.step rowsLimit a = some t) (hreads : ReadsAsRecord a.info)
    (hnumbered : RecordsNumbered s.db) :
    RecordsNumbered t.db ∧
      t.rowsDelete.getD (rowsLimit / 2) = s.rowsDelete.getD (rowsLimit / 2) ∧
      (s.logTableNrows ≤ rowsLimit ∧ t.rows = s.rows + 1 ∧
          t.logTableNrows = increment s.logTableNrows ∨
        (rowsLimit : Int) < s.logTableNrows ∧
          ∃ kept, kept = s.rows - s.rowsDelete.getD (rowsLimit / 2) ∧ t.rows = kept + 1 ∧
            t.logTableNrows = increment ((max 1 kept : Nat) : Int)) := by
  obtain ⟨u, hu, hrecord⟩ := Option.bind_eq_some_iff.mp h
  obtain ⟨hnumbered', hdelete, hcases⟩ := trimTable_spec hu hnumbered
  obtain ⟨t', ht', hnumbered'', hsame, hrows, hcount⟩ :
      ∃ t', u.record a.info a.insert = some t' ∧ _ := record_spec hreads hnumbered'
  obtain rfl : t' = t := Option.some.inj (ht'.symm.trans hrecord)
  refine ⟨hnumbered'', by rw [hsame, hdelete], ?_⟩
  rcases hcases with ⟨hlimit, hkept, hcounter⟩ | ⟨hlimit, hkept, hcounter⟩
  · exact Or.inl ⟨hlimit, by rw [hrows, hkept], by rw [hcount, hcounter]⟩
  · exact Or.inr ⟨hlimit, u.rows, hkept, hrows, by rw [hcount, hcounter]⟩

private theorem step_isSome (rowsLimit : Nat) (s : LogProcess) (hreads : ReadsAsRecord a.info) :
    ∃ t, s.step rowsLimit a = some t := by
  have htrim : ∃ u, s.trimTable rowsLimit a.trim = some u := by
    unfold trimTable
    split
    · simp only [runCommand_trim, Option.map_some]
      exact ⟨_, rfl⟩
    · exact ⟨s, rfl⟩
  obtain ⟨u, hu⟩ := htrim
  obtain ⟨host, port, ip, agent, method, target, hss⟩ := hreads
  rw [step, hu, Option.bind_some, record, runCommand_of_statements hss, Option.map_some]
  exact ⟨_, rfl⟩

/-! ## Runs that stay bounded -/

private theorem increment_of_lt {n : Int} (h : n < intMax) : increment n = n + 1 := by
  rw [increment, if_neg (by omega)]

private theorem increment_le (n : Int) (h : n ≤ intMax) : increment n ≤ intMax := by
  rw [increment]
  split
  · unfold intMax
    omega
  · omega

/-- The counter covers the rows, and these keep the bound. -/
structure Covers (n rowsLimit d : Nat) (s : LogProcess) : Prop where
  numbered : RecordsNumbered s.db
  rowsDelete : s.rowsDelete.getD (rowsLimit / 2) = d
  counted : (s.rows : Int) ≤ s.logTableNrows
  bounded : s.Bounded n rowsLimit

theorem Covers.step {n d : Nat} (hd : 1 ≤ d) (hlimit : (rowsLimit : Int) < intMax)
    (hn : (n : Int) ≤ intMax) (h : s.Covers n rowsLimit d)
    (hstep : s.step rowsLimit a = some t) (hreads : ReadsAsRecord a.info) :
    t.Covers n rowsLimit d := by
  obtain ⟨hnumbered, hdelete, hcases⟩ := step_spec hstep hreads h.numbered
  have hbounded : s.rows ≤ max n (rowsLimit + 1) := h.bounded
  have hcounted := h.counted
  rw [h.rowsDelete] at hcases hdelete
  refine ⟨hnumbered, hdelete, ?_, ?_⟩
  · rcases hcases with ⟨hle, hrows, hcount⟩ | ⟨hgt, kept, hkept, hrows, hcount⟩
    · rw [hrows, hcount, increment_of_lt (by omega)]
      omega
    · rw [hrows, hcount, increment_of_lt (by unfold intMax at hlimit hn ⊢; omega)]
      omega
  · change t.rows ≤ max n (rowsLimit + 1)
    rcases hcases with ⟨hle, hrows, hcount⟩ | ⟨hgt, kept, hkept, hrows, hcount⟩ <;> omega

/-! ## Runs without bound -/

/-- No call makes the table smaller. -/
structure Grows (rowsLimit d : Nat) (s : LogProcess) : Prop where
  numbered : RecordsNumbered s.db
  rowsDelete : s.rowsDelete.getD (rowsLimit / 2) = d
  nothing : d = 0 ∨ intMax ≤ rowsLimit ∧ s.logTableNrows ≤ intMax

theorem Grows.step {d : Nat} (h : s.Grows rowsLimit d) (hstep : s.step rowsLimit a = some t)
    (hreads : ReadsAsRecord a.info) : t.Grows rowsLimit d ∧ t.rows = s.rows + 1 := by
  obtain ⟨hnumbered, hdelete, hcases⟩ := step_spec hstep hreads h.numbered
  rw [h.rowsDelete] at hcases hdelete
  rcases hcases with ⟨hle, hrows, hcount⟩ | ⟨hgt, kept, hkept, hrows, hcount⟩
  · refine ⟨⟨hnumbered, hdelete, ?_⟩, hrows⟩
    rcases h.nothing with hd | ⟨hlimit, hmax⟩
    · exact Or.inl hd
    · exact Or.inr ⟨hlimit, hcount ▸ increment_le _ hmax⟩
  · rcases h.nothing with hd | ⟨hlimit, hmax⟩
    · exact ⟨⟨hnumbered, hdelete, Or.inl hd⟩, by omega⟩
    · omega

theorem Grows.run {d : Nat} (h : s.Grows rowsLimit d) (hreads : ReadsAsRecord a.info) (k : Nat) :
    ∃ t, (logRunMachine rowsLimit).run s (List.replicate k a) = some t ∧ t.rows = s.rows + k := by
  induction k generalizing s with
  | zero => exact ⟨s, rfl, rfl⟩
  | succ k ih =>
    obtain ⟨u, hu⟩ := step_isSome rowsLimit s hreads
    obtain ⟨hgrows, hrows⟩ := h.step hu hreads
    obtain ⟨t, ht, hcount⟩ := ih hgrows
    refine ⟨t, ?_, by omega⟩
    rw [List.replicate_succ, Machine.run_cons]
    exact Option.bind_eq_some_iff.mpr ⟨u, hu, ht⟩

end LogProcess

/-- The table stays bounded in every run exactly when a trim deletes something and the limit
is not the greatest `int`. -/
theorem log_table_bounded_iff (rowsLimit : Nat) (start : LogStart) :
    (∀ calls : List LogRequest, (∀ a ∈ calls, ReadsAsRecord a.info) →
      (logRunMachine rowsLimit).Always (LogProcess.Bounded start.db.logTable.length rowsLimit)
        start.state calls) ↔
      1 ≤ start.rowsDelete.getD (rowsLimit / 2) ∧ (rowsLimit : Int) < intMax := by
  constructor
  · intro hbounded
    by_contra hbad
    have hgrows : start.state.Grows rowsLimit (start.rowsDelete.getD (rowsLimit / 2)) := by
      refine ⟨start.numbered, rfl, ?_⟩
      have hfits := start.fits
      by_cases hd : start.rowsDelete.getD (rowsLimit / 2) = 0
      · exact Or.inl hd
      · exact Or.inr ⟨by omega, hfits⟩
    let a : LogRequest := ⟨.blank, .plain, .plain⟩
    have hreads : ReadsAsRecord a.info := readsAsRecord_of_safe (by decide)
    obtain ⟨t, ht, hrows⟩ := hgrows.run hreads (rowsLimit + 2)
    have hlast : t.rows ≤ max start.db.logTable.length (rowsLimit + 1) :=
      (hbounded (List.replicate (rowsLimit + 2) a) fun b hb =>
        (List.eq_of_mem_replicate hb) ▸ hreads).last ht
    have hstart : start.state.rows = start.db.logTable.length := rfl
    omega
  · rintro ⟨hd, hlimit⟩ calls hreads
    have hcovers : start.state.Covers start.db.logTable.length rowsLimit
        (start.rowsDelete.getD (rowsLimit / 2)) :=
      ⟨start.numbered, rfl, le_rfl, le_max_left _ _⟩
    have halways := Machine.always_of_labels (M := logRunMachine rowsLimit)
      (fun s a t hstep ha hs => LogProcess.Covers.step hd hlimit start.fits hs hstep ha)
      hreads hcovers
    exact halways.mono fun s hs => hs.bounded

/-- A handler with the limit one deletes nothing. -/
theorem log_table_unbounded :
    ¬∀ (rowsLimit : Nat) (start : LogStart) (calls : List LogRequest),
      (logRunMachine rowsLimit).Always (LogProcess.Bounded start.db.logTable.length rowsLimit)
        start.state calls := by
  intro h
  let empty : Db := ⟨[], .restart, [], .restart⟩
  let start : LogStart := ⟨none, empty, numbered_nil, by decide⟩
  have hgrows : start.state.Grows 1 0 := ⟨numbered_nil, rfl, Or.inl rfl⟩
  obtain ⟨t, ht, hrows⟩ := hgrows.run (a := ⟨.blank, .plain, .plain⟩)
    (readsAsRecord_of_safe (by decide)) 3
  have hlast : t.rows ≤ max 0 (1 + 1) := (h 1 start _).last ht
  have hstart : start.state.rows = 0 := rfl
  omega

end PetProject.Handler
