import PetProject.Handler.LogTable

/-!
# The trim of the log table

A call of `update_log_table` compares the cached count with the limit long before its `DELETE`
runs. The count never exceeds the rows of the table, and so every trim meets a table over the
limit, as long as the calls that trim do not get into each other's way.
-/

namespace PetProject.Handler

open Framework Database

namespace LogState

variable {ι : Type*} [DecidableEq ι]

/-- A trim that executes meets a table with more than `rows_limit` rows. -/
def OverLimit (rowsLimit : Nat) (s : LogState ι) : LogStep ι → Prop
  | .trim _ _ => rowsLimit < s.db.logTable.length
  | _ => True

instance (rowsLimit : Nat) (s : LogState ι) (a : LogStep ι) : Decidable (s.OverLimit rowsLimit a) :=
  match a with
  | .trim _ _ => inferInstanceAs (Decidable (rowsLimit < s.db.logTable.length))
  | .load _ _ | .compareExchange _ | .insert _ _ _ _ | .increment _ => instDecidableTrue

/-- What a step of a call at `q` needs: a trim finds the count that its call has loaded, no other
call that owes the counter anything, and a record with an id above those that it deletes; a
compare-and-swap finds the loaded count, or has nothing to correct; an insertion that is accepted
adds a row. -/
def FindsCount (rowsLimit : Nat) (s : LogState ι) : LogStep ι → LogPc → Prop
  | .trim i _, .trim loaded _ =>
    s.logTableNrows = loaded ∧ (∀ j, j ≠ i → (s.pc j).due = 0) ∧
      s.db.keptRecords (rowsLimit / 2) ≠ []
  | .compareExchange _, .compareExchange loaded trimmed _ =>
    s.logTableNrows = loaded ∨ trimmed = loaded
  | .insert _ choice _ _, .insert info =>
    ∀ res ∈ runCommand choice (insertCommand info) s.db,
      s.db.logTable.length < res.1.logTable.length
  | _, _ => True

instance [Fintype ι] (rowsLimit : Nat) (s : LogState ι) (a : LogStep ι) (q : LogPc) :
    Decidable (s.FindsCount rowsLimit a q) :=
  match a with
  | .load _ _ | .increment _ => instDecidableTrue
  | .trim i _ =>
    match q with
    | .trim loaded _ =>
      inferInstanceAs (Decidable (s.logTableNrows = loaded ∧
        (∀ j, j ≠ i → (s.pc j).due = 0) ∧ s.db.keptRecords (rowsLimit / 2) ≠ []))
    | .idle _ | .compareExchange _ _ _ | .insert _ | .increment _ => instDecidableTrue
  | .compareExchange _ =>
    match q with
    | .compareExchange loaded trimmed _ =>
      inferInstanceAs (Decidable (s.logTableNrows = loaded ∨ trimmed = loaded))
    | .idle _ | .trim _ _ | .insert _ | .increment _ => instDecidableTrue
  | .insert _ choice _ _ =>
    match q with
    | .insert info =>
      inferInstanceAs (Decidable (∀ res ∈ runCommand choice (insertCommand info) s.db,
        s.db.logTable.length < res.1.logTable.length))
    | .idle _ | .trim _ _ | .compareExchange _ _ _ | .increment _ => instDecidableTrue

/-- The condition on a step in the state in which it is taken. -/
def TrimsAlone (rowsLimit : Nat) (s : LogState ι) (a : LogStep ι) : Prop :=
  s.FindsCount rowsLimit a (s.pc a.caller)

instance [Fintype ι] (rowsLimit : Nat) (s : LogState ι) (a : LogStep ι) :
    Decidable (s.TrimsAlone rowsLimit a) :=
  inferInstanceAs (Decidable (s.FindsCount rowsLimit a _))

variable [Fintype ι] {rowsLimit : Nat} {s t : LogState ι}

/-- The rows cover the counter and its dues, and a call that is about to trim has loaded a count
over the limit. -/
structure Covered (rowsLimit : Nat) (s : LogState ι) : Prop where
  deficit : 0 ≤ s.deficit
  loaded : ∀ i loaded info, s.pc i = .trim loaded info → rowsLimit < loaded

omit [DecidableEq ι] in
theorem covered_init (db : Db) : (init db : LogState ι).Covered rowsLimit where
  deficit := (balanced_iff_deficit.mp (balanced_init db)).ge
  loaded _ _ _ h := nomatch h

omit [Fintype ι] in
private theorem trim_of_setPc {i j : ι} {q : LogPc} {loaded : Int} {info : ReqInfo}
    (h : (s.setPc i q).pc j = .trim loaded info) :
    s.pc j = .trim loaded info ∨ q = .trim loaded info := by
  by_cases hj : j = i
  · subst hj
    exact Or.inr (by simpa [setPc] using h)
  · exact Or.inl (by simpa [setPc, hj] using h)

omit [Fintype ι] in
private theorem loaded_step {a : LogStep ι} (hstep : s.step rowsLimit a = some t)
    (h : ∀ i loaded info, s.pc i = .trim loaded info → rowsLimit < loaded) :
    ∀ i loaded info, t.pc i = .trim loaded info → rowsLimit < loaded := by
  intro j loaded info hj
  cases a with
  | load i info' =>
    obtain ⟨-, ⟨hlimit, rfl⟩ | rfl⟩ := step_load hstep
    · rcases trim_of_setPc hj with hj | hq
      · exact h j loaded info hj
      · obtain ⟨rfl, -⟩ := LogPc.trim.inj hq
        exact hlimit
    · exact (trim_of_setPc hj).elim (h j loaded info) nofun
  | trim i choice =>
    obtain ⟨l, info', -, res, -, rfl⟩ := step_trim hstep
    exact (trim_of_setPc (s := s) hj).elim (h j loaded info) nofun
  | compareExchange i =>
    obtain ⟨l, l', info', -, ⟨-, rfl⟩ | ⟨-, rfl⟩⟩ := step_compareExchange hstep
    · exact (trim_of_setPc (s := s) hj).elim (h j loaded info) nofun
    · exact (trim_of_setPc hj).elim (h j loaded info) nofun
  | insert i choice dbName resError =>
    obtain ⟨info', -, ⟨res, -, rfl⟩ | ⟨left, rfl⟩⟩ := step_insert hstep
    · exact (trim_of_setPc (s := s) hj).elim (h j loaded info) nofun
    · exact (trim_of_setPc hj).elim (h j loaded info) nofun
  | increment i =>
    obtain ⟨info', -, rfl⟩ := step_increment hstep
    exact (trim_of_setPc (s := s) hj).elim (h j loaded info) nofun

private theorem deficit_of_alone {i : ι} {loaded : Int} {info : ReqInfo}
    (hpc : s.pc i = .trim loaded info) (hcount : s.logTableNrows = loaded)
    (hdue : ∀ j, j ≠ i → (s.pc j).due = 0) :
    s.deficit = s.db.logTable.length - loaded := by
  have hall : ∀ j, (s.pc j).due = 0 := by
    intro j
    by_cases hj : j = i
    · subst hj
      rw [hpc]
      rfl
    · exact hdue j hj
  unfold LogState.deficit
  simp [hall, hcount]

private theorem covered_step {a : LogStep ι} (hstep : s.step rowsLimit a = some t)
    (halone : s.TrimsAlone rowsLimit a) (h : s.Covered rowsLimit) : t.Covered rowsLimit := by
  refine ⟨?_, loaded_step hstep h.loaded⟩
  have hdeficit := h.deficit
  unfold TrimsAlone at halone
  cases a with
  | load i info => rwa [deficit_load hstep]
  | trim i choice =>
    obtain ⟨loaded, info, hpc, -⟩ := step_trim hstep
    rw [LogStep.caller, hpc] at halone
    obtain ⟨hcount, hdue, hkept⟩ := halone
    obtain ⟨loaded', info', hpc', htrimmed⟩ := deficit_trim hstep hkept
    obtain ⟨rfl, rfl⟩ := LogPc.trim.inj (hpc.symm.trans hpc')
    have hrows := deficit_of_alone hpc hcount hdue
    omega
  | compareExchange i =>
    rw [deficit_compareExchange hstep]
    · exact hdeficit
    · intro loaded trimmed info hpc
      rw [LogStep.caller, hpc] at halone
      exact halone
  | insert i choice dbName resError =>
    obtain hsame | ⟨info, res, hpc, hres, hrow⟩ := deficit_insert hstep
    · rwa [hsame]
    · rw [LogStep.caller, hpc] at halone
      have hadded : s.db.logTable.length < res.1.logTable.length := halone res hres
      omega
  | increment i =>
    have hwrap : Handler.increment s.logTableNrows ≤ s.logTableNrows + 1 := by
      unfold Handler.increment intMax
      split <;> omega
    rw [deficit_increment hstep]
    omega

private theorem Covered.overLimit (h : s.Covered rowsLimit) {a : LogStep ι}
    (hstep : s.step rowsLimit a = some t) (halone : s.TrimsAlone rowsLimit a) :
    s.OverLimit rowsLimit a := by
  cases a with
  | trim i choice =>
    obtain ⟨loaded, info, hpc, -⟩ := step_trim hstep
    unfold TrimsAlone at halone
    rw [LogStep.caller, hpc] at halone
    obtain ⟨hcount, hdue, -⟩ := halone
    have hrows := deficit_of_alone hpc hcount hdue
    have hloaded := h.loaded i loaded info hpc
    have hdeficit := h.deficit
    change rowsLimit < s.db.logTable.length
    omega
  | load | compareExchange | insert | increment => trivial

/-- When every call that trims finds the count that it has loaded and nobody else at work on it,
every trim that executes meets a table over the limit. -/
theorem trims_over_limit (rowsLimit : Nat) (db : Db) (steps : List (LogStep ι))
    (h : (logMachine rowsLimit ι).Guarded (TrimsAlone rowsLimit) (.init db) steps) :
    (logMachine rowsLimit ι).Guarded (OverLimit rowsLimit) (.init db) steps :=
  h.exchange (P := Covered rowsLimit) (fun _ _ _ hstep halone hs => covered_step hstep halone hs)
    (fun _ _ _ hstep halone hs => hs.overLimit hstep halone) (covered_init db)

omit [DecidableEq ι] [Fintype ι] in
private theorem trimsAlone_of_safe (s : LogState ι) (i : ι) (choice : Choice) (dbName resError : Text)
    (hs : ∀ j, (s.pc j).Safe) : s.TrimsAlone rowsLimit (.insert i choice dbName resError) := by
  have hi := hs i
  rw [TrimsAlone, LogStep.caller]
  cases hpc : s.pc i with
  | insert info =>
    rw [hpc] at hi
    intro res hres
    rw [runCommand_insert hi, Option.mem_some_iff] at hres
    have hrow := execAll_insertRecord choice info.host info.port info.ipAddress info.userAgent
      info.method info.target s.db
    rw [hres] at hrow
    omega
  | idle | trim | compareExchange | increment => trivial

theorem trims_over_limit_two_calls :
    (logMachine 2 Bool).Guarded (OverLimit 2) (.init (numbered 3)) undisturbedSteps :=
  trims_over_limit 2 (numbered 3) undisturbedSteps
    ((guarded_iff_readMachine trimsAlone_of_safe (numbered 3) safe_undisturbedSteps).mpr
      (by decide +kernel))

/-- Of two calls that load the same count over the limit, the second one trims a table that the
first one has already trimmed. -/
theorem overflow_trimmed_twice :
    ¬∀ (rowsLimit : Nat) (db : Db) (steps : List (LogStep Bool)), 2 ≤ rowsLimit →
      (logMachine rowsLimit Bool).Guarded (OverLimit rowsLimit) (.init db) steps := by
  intro hclaim
  have htwice : ¬(logMachine 2 Bool).Guarded (OverLimit 2) (.init (numbered 3)) disturbedSteps := by
    rw [guarded_iff_readMachine (fun _ _ _ _ _ _ => trivial) (numbered 3) safe_disturbedSteps]
    decide +kernel
  exact htwice (hclaim 2 (numbered 3) disturbedSteps le_rfl)

end LogState

end PetProject.Handler
