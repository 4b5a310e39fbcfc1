import Mathlib.Algebra.BigOperators.Group.Finset.Basic
import Mathlib.Algebra.BigOperators.Pi
import PetProject.Framework.Custody
import PetProject.Framework.Machine
import PetProject.Handler.ServerHttpHandler

/-!
# The cached count of the log table

`Server_HTTP_handler::update_log_table`, called by any number of threads at once. The atomic
counter is read at the start of a call, corrected after a trim and incremented after an insertion,
each in a step of its own. Between the steps of a call the counter is off by what the call still
owes it, and the books balance as long as every correction meets the state that it was made for.
-/

namespace PetProject.Handler

open Framework Database

/-- Where a call of `update_log_table` stands, with its locals; `idle` holds the vector that the
last call left behind. -/
inductive LogPc
  | idle (left : Option ReqInfo)
  | trim (loaded : Int) (info : ReqInfo)
  | compareExchange (loaded trimmed : Int) (info : ReqInfo)
  | insert (info : ReqInfo)
  | increment (info : ReqInfo)
  deriving DecidableEq, Repr

structure LogState (ι : Type*) where
  logTableNrows : Int
  db : Db
  pc : ι → LogPc

inductive LogStep (ι : Type*)
  | load (i : ι) (info : ReqInfo)
  | trim (i : ι) (choice : Choice)
  | compareExchange (i : ι)
  | insert (i : ι) (choice : Choice) (dbName resError : Text)
  | increment (i : ι)

def LogStep.caller {ι : Type*} : LogStep ι → ι
  | .load i _ => i
  | .trim i _ => i
  | .compareExchange i => i
  | .insert i _ _ _ => i
  | .increment i => i

def intMax : Int := 2147483647

/-- `++` on a `std::atomic_int` wraps around. -/
def increment (n : Int) : Int := if n = intMax then -intMax - 1 else n + 1

def updateError (dbName resError : Text) : Text :=
  "Database ".toList ++ dbName ++ " error while updating log table: ".toList ++ resError

namespace LogState

variable {ι : Type*} [DecidableEq ι]

def setPc (s : LogState ι) (i : ι) (q : LogPc) : LogState ι :=
  { s with pc := Function.update s.pc i q }

@[simp] theorem setPc_logTableNrows (s : LogState ι) (i : ι) (q : LogPc) :
    (s.setPc i q).logTableNrows = s.logTableNrows := rfl

@[simp] theorem setPc_db (s : LogState ι) (i : ι) (q : LogPc) : (s.setPc i q).db = s.db := rfl

/-- One atomic operation or one command of one call. -/
def step (rowsLimit : Nat) (s : LogState ι) : LogStep ι → Option (LogState ι)
  | .load i info =>
    match s.pc i with
    | .idle _ =>
      if s.logTableNrows > rowsLimit then some (s.setPc i (.trim s.logTableNrows info))
      else some (s.setPc i (.insert info))
    | _ => none
  | .trim i choice =>
    match s.pc i with
    | .trim loaded info =>
      (runCommand choice (trimCommand (rowsLimit / 2)) s.db).map fun res =>
        { s.setPc i (.compareExchange loaded (atoi (res.2.getD [])) info) with db := res.1 }
    | _ => none
  | .compareExchange i =>
    match s.pc i with
    | .compareExchange loaded trimmed info =>
      if s.logTableNrows = loaded then
        some { s.setPc i (.insert info) with logTableNrows := trimmed }
      else some (s.setPc i (.insert info))
    | _ => none
  | .insert i choice dbName resError =>
    match s.pc i with
    | .insert info =>
      match runCommand choice (insertCommand info) s.db with
      | some res => some { s.setPc i (.increment info) with db := res.1 }
      | none => some (s.setPc i
          (.idle (some { info with error := info.error ++ updateError dbName resError })))
    | _ => none
  | .increment i =>
    match s.pc i with
    | .increment info =>
      some { s.setPc i (.idle (some info)) with logTableNrows := increment s.logTableNrows }
    | _ => none

/-- The counter starts as the number of rows; no call is in progress. -/
def init (db : Db) : LogState ι := ⟨db.logTable.length, db, fun _ => .idle none⟩

def Quiescent (s : LogState ι) : Prop := ∀ i, ∃ left, s.pc i = .idle left

end LogState

def logMachine (rowsLimit : Nat) (ι : Type*) [DecidableEq ι] :
    Machine (LogState ι) (LogStep ι) :=
  ⟨LogState.step rowsLimit⟩

/-! ## The books -/

/-- What the call still has to add to the counter. -/
def LogPc.due : LogPc → Int
  | .compareExchange loaded trimmed _ => trimmed - loaded
  | .increment _ => 1
  | _ => 0

/-- The fields of the request stay between their quotes. -/
def LogPc.Safe : LogPc → Prop
  | .trim _ info | .compareExchange _ _ info | .insert info => ∀ f ∈ info.fields, SafeLiteral f
  | _ => True

def LogStep.Safe {ι : Type*} : LogStep ι → Prop
  | .load _ info => ∀ f ∈ info.fields, SafeLiteral f
  | _ => True

namespace LogState

variable {ι : Type*} [DecidableEq ι]

/-- The counter and what the calls in progress owe it make up the number of rows. -/
def Balanced [Fintype ι] (s : LogState ι) : Prop :=
  s.logTableNrows + ∑ i, (s.pc i).due = s.db.logTable.length

/-- A step of a call at `q` meets the state that the call has prepared for: a trim finds as many
rows as the call has loaded, and leaves some; a compare-and-swap finds the loaded count, or has
nothing to correct; an insertion adds one row; an increment does not overflow. -/
def Meets (rowsLimit : Nat) (s : LogState ι) : LogStep ι → LogPc → Prop
  | .trim _ _, .trim loaded _ =>
    s.db.logTable.length = loaded ∧ s.db.keptRecords (rowsLimit / 2) ≠ []
  | .compareExchange _, .compareExchange loaded trimmed _ =>
    s.logTableNrows = loaded ∨ trimmed = loaded
  | .insert _ choice _ _, .insert info =>
    ∀ res ∈ runCommand choice (insertCommand info) s.db,
      res.1.logTable.length = s.db.logTable.length + 1
  | .increment _, .increment _ => s.logTableNrows ≠ intMax
  | _, _ => True

instance (rowsLimit : Nat) (s : LogState ι) (a : LogStep ι) (q : LogPc) :
    Decidable (s.Meets rowsLimit a q) := by
  cases a <;> cases q <;> unfold Meets <;> infer_instance

/-- The condition on a step in the state in which it is taken. -/
def Undisturbed (rowsLimit : Nat) (s : LogState ι) (a : LogStep ι) : Prop :=
  s.Meets rowsLimit a (s.pc a.caller)

instance (rowsLimit : Nat) (s : LogState ι) (a : LogStep ι) :
    Decidable (s.Undisturbed rowsLimit a) :=
  inferInstanceAs (Decidable (s.Meets rowsLimit a _))

omit [DecidableEq ι] in
private theorem undisturbed_insert {rowsLimit : Nat} {s : LogState ι} {i : ι} {info : ReqInfo}
    (hpc : s.pc i = .insert info) (hsafe : ∀ f ∈ info.fields, SafeLiteral f) (choice : Choice)
    (dbName resError : Text) : s.Undisturbed rowsLimit (.insert i choice dbName resError) := by
  have hrow : ∀ res ∈ runCommand choice (insertCommand info) s.db,
      res.1.logTable.length = s.db.logTable.length + 1 := by
    intro res hres
    rw [runCommand_insert hsafe, Option.mem_some_iff] at hres
    rw [← hres]
    exact execAll_insertRecord choice _ _ _ _ _ _ s.db
  rw [Undisturbed, LogStep.caller, hpc]
  exact hrow

section Books

variable [Fintype ι] {rowsLimit : Nat} {s t : LogState ι}

/-- What the number of rows exceeds the counter by, with all that the calls owe it. -/
def deficit (s : LogState ι) : Int :=
  s.db.logTable.length - (s.logTableNrows + ∑ i, (s.pc i).due)

omit [DecidableEq ι] in
theorem balanced_iff_deficit : s.Balanced ↔ s.deficit = 0 := by
  unfold Balanced deficit
  omega

omit [DecidableEq ι] in
theorem balanced_init (db : Db) : (init db : LogState ι).Balanced := by
  simp [Balanced, init, LogPc.due]

omit [DecidableEq ι] in
private theorem balanced_iff_of_quiescent (h : s.Quiescent) :
    s.Balanced ↔ s.logTableNrows = s.db.logTable.length := by
  have hdue : ∀ i, (s.pc i).due = 0 := by
    intro i
    obtain ⟨left, hi⟩ := h i
    rw [hi]
    rfl
  simp [Balanced, hdue]

private theorem sum_due_setPc (i : ι) (q : LogPc) :
    ∑ j, ((s.setPc i q).pc j).due = ∑ j, (s.pc j).due + (q.due - (s.pc i).due) := by
  have hsum := sum_update_add LogPc.due s.pc i q
  simp only [setPc]
  omega

private theorem deficit_setPc (i : ι) (q : LogPc) (n : Int) (db : Db) :
    deficit { s.setPc i q with logTableNrows := n, db := db } =
      s.deficit + (db.logTable.length - s.db.logTable.length) - (n - s.logTableNrows) -
        (q.due - (s.pc i).due) := by
  have hsum := sum_due_setPc (s := s) i q
  unfold deficit
  dsimp only
  omega

private theorem deficit_move (i : ι) (q : LogPc) :
    (s.setPc i q).deficit = s.deficit - (q.due - (s.pc i).due) :=
  (deficit_setPc i q s.logTableNrows s.db).trans (by omega)

omit [Fintype ι] in
theorem step_load {i : ι} {info : ReqInfo} (hstep : s.step rowsLimit (.load i info) = some t) :
    (∃ left, s.pc i = .idle left) ∧
      (rowsLimit < s.logTableNrows ∧ t = s.setPc i (.trim s.logTableNrows info) ∨
        t = s.setPc i (.insert info)) := by
  simp only [step] at hstep
  split at hstep
  case h_1 left hpc =>
    refine ⟨⟨left, hpc⟩, ?_⟩
    split at hstep
    case isTrue hlimit => exact Or.inl ⟨hlimit, (Option.some.inj hstep).symm⟩
    case isFalse => exact Or.inr (Option.some.inj hstep).symm
  case h_2 => exact nomatch hstep

omit [Fintype ι] in
theorem step_trim {i : ι} {choice : Choice}
    (hstep : s.step rowsLimit (.trim i choice) = some t) :
    ∃ loaded info, s.pc i = .trim loaded info ∧ ∃ res, runCommand choice
      (trimCommand (rowsLimit / 2)) s.db = some res ∧
      t = { s.setPc i (.compareExchange loaded (atoi (res.2.getD [])) info) with db := res.1 } := by
  simp only [step] at hstep
  split at hstep
  case h_1 loaded info hpc =>
    obtain ⟨res, hres, rfl⟩ := Option.map_eq_some_iff.mp hstep
    exact ⟨loaded, info, hpc, res, hres, rfl⟩
  case h_2 => exact nomatch hstep

omit [Fintype ι] in
theorem step_compareExchange {i : ι} (hstep : s.step rowsLimit (.compareExchange i) = some t) :
    ∃ loaded trimmed info, s.pc i = .compareExchange loaded trimmed info ∧
      (s.logTableNrows = loaded ∧
          t = { s.setPc i (.insert info) with logTableNrows := trimmed } ∨
        s.logTableNrows ≠ loaded ∧ t = s.setPc i (.insert info)) := by
  simp only [step] at hstep
  split at hstep
  case h_1 loaded trimmed info hpc =>
    refine ⟨loaded, trimmed, info, hpc, ?_⟩
    split at hstep
    case isTrue hloaded => exact Or.inl ⟨hloaded, (Option.some.inj hstep).symm⟩
    case isFalse hloaded => exact Or.inr ⟨hloaded, (Option.some.inj hstep).symm⟩
  case h_2 => exact nomatch hstep

omit [Fintype ι] in
theorem step_insert {i : ι} {choice : Choice} {dbName resError : Text}
    (hstep : s.step rowsLimit (.insert i choice dbName resError) = some t) :
    ∃ info, s.pc i = .insert info ∧
      ((∃ res, runCommand choice (insertCommand info) s.db = some res ∧
          t = { s.setPc i (.increment info) with db := res.1 }) ∨
        ∃ left, t = s.setPc i (.idle left)) := by
  simp only [step] at hstep
  split at hstep
  case h_1 info hpc =>
    refine ⟨info, hpc, ?_⟩
    split at hstep
    case h_1 res hres => exact Or.inl ⟨res, hres, (Option.some.inj hstep).symm⟩
    case h_2 => exact Or.inr ⟨_, (Option.some.inj hstep).symm⟩
  case h_2 => exact nomatch hstep

omit [Fintype ι] in
theorem step_increment {i : ι} (hstep : s.step rowsLimit (.increment i) = some t) :
    ∃ info, s.pc i = .increment info ∧
      t = { s.setPc i (.idle (some info)) with
            logTableNrows := Handler.increment s.logTableNrows } := by
  simp only [step] at hstep
  split at hstep
  case h_1 info hpc => exact ⟨info, hpc, (Option.some.inj hstep).symm⟩
  case h_2 => exact nomatch hstep

theorem deficit_load {i : ι} {info : ReqInfo}
    (hstep : s.step rowsLimit (.load i info) = some t) : t.deficit = s.deficit := by
  obtain ⟨⟨left, hpc⟩, ⟨-, rfl⟩ | rfl⟩ := step_load hstep
  · simp [deficit_move, hpc, LogPc.due]
  · simp [deficit_move, hpc, LogPc.due]

/-- A trim reports what it leaves behind, so it takes the rows that the call has not loaded out
of the books. -/
theorem deficit_trim {i : ι} {choice : Choice}
    (hstep : s.step rowsLimit (.trim i choice) = some t)
    (hkept : s.db.keptRecords (rowsLimit / 2) ≠ []) :
    ∃ loaded info, s.pc i = .trim loaded info ∧
      t.deficit = s.deficit + (loaded - s.db.logTable.length) := by
  obtain ⟨loaded, info, hpc, res, hres, rfl⟩ := step_trim hstep
  rw [runCommand_trim, Option.some.injEq] at hres
  obtain ⟨hlength, hvalue⟩ := execAll_trim (rowsLimit / 2) choice s.db
  refine ⟨loaded, info, hpc, ?_⟩
  have h := deficit_setPc (s := s) i (.compareExchange loaded (atoi (res.2.getD [])) info)
    s.logTableNrows res.1
  rw [← hres, hvalue hkept, Option.getD_some, atoi_decimal, hpc, hlength] at h
  rw [← hres, hvalue hkept, Option.getD_some, atoi_decimal]
  simp only [LogPc.due] at h
  refine h.trans ?_
  omega

theorem deficit_compareExchange {i : ι}
    (hstep : s.step rowsLimit (.compareExchange i) = some t)
    (hcount : ∀ loaded trimmed info, s.pc i = .compareExchange loaded trimmed info →
      s.logTableNrows = loaded ∨ trimmed = loaded) : t.deficit = s.deficit := by
  obtain ⟨loaded, trimmed, info, hpc, ⟨hloaded, rfl⟩ | ⟨hloaded, rfl⟩⟩ :=
    step_compareExchange hstep
  · have h := deficit_setPc (s := s) i (.insert info) trimmed s.db
    simp only [hpc, LogPc.due] at h
    refine h.trans ?_
    omega
  · have htrimmed := (hcount loaded trimmed info hpc).resolve_left hloaded
    simp [deficit_move, hpc, LogPc.due, htrimmed]

theorem deficit_insert {i : ι} {choice : Choice} {dbName resError : Text}
    (hstep : s.step rowsLimit (.insert i choice dbName resError) = some t) :
    t.deficit = s.deficit ∨ ∃ info res, s.pc i = .insert info ∧
      runCommand choice (insertCommand info) s.db = some res ∧
      t.deficit = s.deficit + (res.1.logTable.length - (s.db.logTable.length + 1)) := by
  obtain ⟨info, hpc, ⟨res, hres, rfl⟩ | ⟨left, rfl⟩⟩ := step_insert hstep
  · refine Or.inr ⟨info, res, hpc, hres, ?_⟩
    have h := deficit_setPc (s := s) i (.increment info) s.logTableNrows res.1
    simp only [hpc, LogPc.due] at h
    refine h.trans ?_
    omega
  · exact Or.inl (by simp [deficit_move, hpc, LogPc.due])

theorem deficit_increment {i : ι} (hstep : s.step rowsLimit (.increment i) = some t) :
    t.deficit = s.deficit + (s.logTableNrows + 1 - Handler.increment s.logTableNrows) := by
  obtain ⟨info, hpc, rfl⟩ := step_increment hstep
  have h := deficit_setPc (s := s) i (.idle (some info)) (Handler.increment s.logTableNrows) s.db
  simp only [hpc, LogPc.due] at h
  refine h.trans ?_
  omega

private theorem balanced_step {a : LogStep ι} (hstep : s.step rowsLimit a = some t)
    (hmeets : s.Undisturbed rowsLimit a) (h : s.Balanced) : t.Balanced := by
  rw [balanced_iff_deficit] at h ⊢
  unfold Undisturbed at hmeets
  cases a with
  | load i info => rw [deficit_load hstep, h]
  | trim i choice =>
    obtain ⟨loaded, info, hpc, -⟩ := step_trim hstep
    rw [LogStep.caller, hpc] at hmeets
    obtain ⟨hrows, hkept⟩ : s.db.logTable.length = loaded ∧
        s.db.keptRecords (rowsLimit / 2) ≠ [] := hmeets
    obtain ⟨loaded', info', hpc', hdeficit⟩ := deficit_trim hstep hkept
    obtain ⟨rfl, rfl⟩ := LogPc.trim.inj (hpc.symm.trans hpc')
    omega
  | compareExchange i =>
    rw [deficit_compareExchange hstep, h]
    intro loaded trimmed info hpc
    rw [LogStep.caller, hpc] at hmeets
    exact hmeets
  | insert i choice dbName resError =>
    obtain hdeficit | ⟨info, res, hpc, hres, hdeficit⟩ := deficit_insert hstep
    · rw [hdeficit, h]
    · rw [LogStep.caller, hpc] at hmeets
      have hrow : res.1.logTable.length = s.db.logTable.length + 1 := hmeets res hres
      omega
  | increment i =>
    obtain ⟨info, hpc, -⟩ := step_increment hstep
    rw [LogStep.caller, hpc] at hmeets
    have hmax : s.logTableNrows ≠ intMax := hmeets
    rw [deficit_increment hstep, Handler.increment, if_neg hmax]
    omega

/-- When every step meets the state that its call has prepared for, the counter is the number of
rows whenever no call is in progress. -/
theorem log_count_does_not_drift (rowsLimit : Nat) (db : Db) (steps : List (LogStep ι))
    (h : (logMachine rowsLimit ι).Guarded (Undisturbed rowsLimit) (.init db) steps) :
    (logMachine rowsLimit ι).Always
      (fun s => s.Quiescent → s.logTableNrows = s.db.logTable.length) (.init db) steps := by
  have hbalanced : (logMachine rowsLimit ι).Always Balanced (.init db) steps :=
    h.always (fun _ _ _ hstep hmeets => balanced_step hstep hmeets) (balanced_init db)
  exact hbalanced.mono fun s hs hquiet => (balanced_iff_of_quiescent hquiet).mp hs

end Books

/-! ## Safe requests -/

/-- One step with the statements of the commands in place of their texts. -/
def stepRead (rowsLimit : Nat) (s : LogState ι) : LogStep ι → Option (LogState ι)
  | .trim i choice =>
    match s.pc i with
    | .trim loaded info =>
      let res := execAll choice [.lockRecords, .deleteRecords (rowsLimit / 2 : Nat), .restartLogSeq,
        .renumberRecords, .selectLogSeq] s.db
      some { s.setPc i (.compareExchange loaded (atoi (res.2.getD [])) info) with db := res.1 }
    | _ => none
  | .insert i choice _ _ =>
    match s.pc i with
    | .insert info =>
      let res := execAll choice [.lockRecords, .insertRecord info.host info.port info.ipAddress
        info.userAgent info.method info.target] s.db
      some { s.setPc i (.increment info) with db := res.1 }
    | _ => none
  | a => s.step rowsLimit a

def readMachine (rowsLimit : Nat) (ι : Type*) [DecidableEq ι] : Machine (LogState ι) (LogStep ι) :=
  ⟨stepRead rowsLimit⟩

section Safe

variable {rowsLimit : Nat} {s t : LogState ι}

private theorem step_eq_stepRead (hs : ∀ i, (s.pc i).Safe) (a : LogStep ι) :
    s.step rowsLimit a = s.stepRead rowsLimit a := by
  cases a with
  | trim i choice =>
    rw [step, stepRead]
    split
    case h_1 loaded info hpc => rw [runCommand_trim, Option.map_some]
    case h_2 => rfl
  | insert i choice dbName resError =>
    rw [step, stepRead]
    split
    case h_1 info hpc =>
      have hsafe : ∀ f ∈ info.fields, SafeLiteral f := by
        have hi := hs i
        rwa [hpc] at hi
      rw [runCommand_insert hsafe]
    case h_2 => rfl
  | load | compareExchange | increment => rfl

private theorem safe_setPc (hs : ∀ i, (s.pc i).Safe) (i : ι) {q : LogPc} (hq : q.Safe) (j : ι) :
    ((s.setPc i q).pc j).Safe := by
  show (Function.update s.pc i q j).Safe
  rw [Function.update_apply]
  split
  · exact hq
  · exact hs j

omit [DecidableEq ι] in
private theorem safe_init (db : Db) (i : ι) : ((init db : LogState ι).pc i).Safe := trivial

private theorem safe_step {a : LogStep ι} (hstep : s.step rowsLimit a = some t) (ha : a.Safe)
    (hs : ∀ i, (s.pc i).Safe) : ∀ i, (t.pc i).Safe := by
  cases a with
  | load i info =>
    obtain ⟨-, ⟨-, rfl⟩ | rfl⟩ := step_load hstep
    · exact safe_setPc hs i ha
    · exact safe_setPc hs i ha
  | trim i choice =>
    obtain ⟨loaded, info, hpc, res, -, rfl⟩ := step_trim hstep
    have hi := hs i
    rw [hpc] at hi
    exact safe_setPc hs i hi
  | compareExchange i =>
    obtain ⟨loaded, trimmed, info, hpc, ⟨-, rfl⟩ | ⟨-, rfl⟩⟩ := step_compareExchange hstep
    all_goals
      have hi := hs i
      rw [hpc] at hi
      exact safe_setPc hs i hi
  | insert i choice dbName resError =>
    obtain ⟨info, -, ⟨res, -, rfl⟩ | ⟨left, rfl⟩⟩ := step_insert hstep
    · exact safe_setPc hs i trivial
    · exact safe_setPc hs i trivial
  | increment i =>
    obtain ⟨info, -, rfl⟩ := step_increment hstep
    exact safe_setPc hs i trivial

private theorem run_eq_run_readMachine (db : Db) {steps : List (LogStep ι)} (hsteps : ∀ a ∈ steps, a.Safe) :
    (logMachine rowsLimit ι).run (.init db) steps =
      (readMachine rowsLimit ι).run (.init db) steps :=
  Machine.run_congr (I := fun s => ∀ i, (s.pc i).Safe) (fun _ a _ hs => step_eq_stepRead hs a)
    (fun _ _ _ hstep ha hs => safe_step hstep ha hs) hsteps (safe_init db)

/-- The guard on the steps that are no insertions. -/
def Elsewhere (G : LogState ι → LogStep ι → Prop) (s : LogState ι) : LogStep ι → Prop
  | .insert _ _ _ _ => True
  | a => G s a

instance (G : LogState ι → LogStep ι → Prop) [∀ s a, Decidable (G s a)] (s : LogState ι)
    (a : LogStep ι) : Decidable (Elsewhere G s a) :=
  match a with
  | .insert _ _ _ _ => instDecidableTrue
  | .load i info => inferInstanceAs (Decidable (G s (.load i info)))
  | .trim i choice => inferInstanceAs (Decidable (G s (.trim i choice)))
  | .compareExchange i => inferInstanceAs (Decidable (G s (.compareExchange i)))
  | .increment i => inferInstanceAs (Decidable (G s (.increment i)))

/-- A guard that holds for every insertion of a safe request need not be looked at there. -/
theorem guarded_iff_readMachine {G : LogState ι → LogStep ι → Prop}
    (hinsert : ∀ (s : LogState ι) i choice dbName resError, (∀ j, (s.pc j).Safe) →
      G s (.insert i choice dbName resError)) (db : Db) {steps : List (LogStep ι)}
    (hsteps : ∀ a ∈ steps, a.Safe) :
    (logMachine rowsLimit ι).Guarded G (.init db) steps ↔
      (readMachine rowsLimit ι).Guarded (Elsewhere G) (.init db) steps := by
  have hiff : ∀ (s : LogState ι) (a : LogStep ι), (∀ j, (s.pc j).Safe) →
      (G s a ↔ Elsewhere G s a) := by
    intro s a hs
    cases a with
    | insert i choice dbName resError => exact iff_of_true (hinsert s i choice _ _ hs) trivial
    | load | trim | compareExchange | increment => exact Iff.rfl
  exact Machine.guarded_congr (I := fun s => ∀ i, (s.pc i).Safe)
    (fun _ a _ hs => step_eq_stepRead hs a) (fun _ _ _ hstep ha hs => safe_step hstep ha hs)
    (fun s a _ hs => hiff s a hs) hsteps (safe_init db)

omit [DecidableEq ι] in
private theorem undisturbed_of_safe (s : LogState ι) (i : ι) (choice : Choice) (dbName resError : Text)
    (hs : ∀ j, (s.pc j).Safe) : s.Undisturbed rowsLimit (.insert i choice dbName resError) := by
  have hi := hs i
  cases hpc : s.pc i with
  | insert info =>
    rw [hpc] at hi
    exact undisturbed_insert hpc hi choice dbName resError
  | idle | trim | compareExchange | increment =>
    rw [Undisturbed, LogStep.caller, hpc]
    trivial

end Safe

/-- A table whose records are numbered from one, and an ordinary request. -/
def numbered (n : Nat) : Db :=
  ⟨[], .restart, (List.range n).map fun i => ⟨i + 1, [], [], [], [], [], [], 0⟩, ⟨n, true⟩⟩

def ordinary : ReqInfo := ⟨['a'], ['h'], ['1'], ['2'], ['u'], ['G'], [], []⟩

private theorem safe_ordinary : ∀ f ∈ ordinary.fields, SafeLiteral f := by decide

/-- A call that trims, with the steps of another call around it. -/
def undisturbedSteps : List (LogStep Bool) :=
  [.load false ordinary, .trim false .plain, .compareExchange false, .load true ordinary,
    .insert false .plain [] [], .insert true .plain [] [], .increment true, .increment false]

theorem safe_undisturbedSteps : ∀ a ∈ undisturbedSteps, a.Safe := by
  simpa [undisturbedSteps, LogStep.Safe] using safe_ordinary

theorem log_count_does_not_drift_two_calls :
    (logMachine 2 Bool).Always
      (fun s => s.Quiescent → s.logTableNrows = s.db.logTable.length)
      (.init (numbered 3)) undisturbedSteps :=
  log_count_does_not_drift 2 (numbered 3) undisturbedSteps
    ((guarded_iff_readMachine undisturbed_of_safe (numbered 3) safe_undisturbedSteps).mpr
      (by decide +kernel))

/-- Two calls that load the same count: both trim, and only one of them corrects the counter. -/
def disturbedSteps : List (LogStep Bool) :=
  [.load false ordinary, .load true ordinary, .trim false .plain, .trim true .plain,
    .compareExchange false, .compareExchange true, .insert false .plain [] [], .increment false,
    .insert true .plain [] [], .increment true]

theorem safe_disturbedSteps : ∀ a ∈ disturbedSteps, a.Safe := by
  simpa [disturbedSteps, LogStep.Safe] using safe_ordinary

theorem log_count_drifts :
    ¬∀ (rowsLimit : Nat) (db : Db) (steps : List (LogStep Bool)),
      (logMachine rowsLimit Bool).Always
        (fun s => s.Quiescent → s.logTableNrows = s.db.logTable.length) (.init db) steps := by
  intro hclaim
  have hrun : ((logMachine 2 Bool).run (.init (numbered 3)) disturbedSteps).any
      (fun s => (∀ i, s.pc i = .idle (some ordinary)) ∧
        s.logTableNrows ≠ s.db.logTable.length) = true := by
    rw [run_eq_run_readMachine (numbered 3) safe_disturbedSteps]
    decide +kernel
  obtain ⟨s, hs, hdrift⟩ := (Option.any_eq_true _ _).mp hrun
  obtain ⟨hidle, hne⟩ := of_decide_eq_true hdrift
  exact hne ((hclaim 2 (numbered 3) disturbedSteps).last hs fun i => ⟨_, hidle i⟩)

end LogState

end PetProject.Handler
