import PetProject.DbModule.Progress

/-!
# The life of a connection

A connection that an attempt opens is finished at once when it is not usable, and else handed to the
pool, whose destructor finishes what it finds in the deque. The destructor runs when the one of the
thread pool has joined the workers. A connection is told apart from every other one that is opened,
also from one to which libpq gives the memory of a finished one.
-/

namespace PetProject.DbModule

open Framework Database Handler

/-! ## Opening -/

section Opening

variable {Conn : Type}

/-- The result of one asynchronous connect, and the connections that it has opened and those that it
has finished. -/
structure Establishment (Conn : Type) where
  conn : Option Conn
  opened : List Conn
  finished : List Conn

/-- The loop of an asynchronous connect from attempt `i` on. -/
def attempts (connect : Nat → Conn × ConnStatusType) (i : Nat) : Nat → Establishment Conn
  | 0 => ⟨none, [], []⟩
  | n + 1 =>
    let conn := (connect i).1
    if (connect i).2 = .connectionOk then ⟨some conn, [conn], []⟩
    else
      let rest := attempts connect (i + 1) n
      ⟨rest.conn, conn :: rest.opened, conn :: rest.finished⟩

def asyncConnect (connect : Nat → Conn × ConnStatusType) : Establishment Conn :=
  attempts connect 0 attemptsOverall

/-- All the connections that were opened for a pool. -/
def opened (connects : List (Nat → Conn × ConnStatusType)) : List Conn :=
  connects.flatMap fun connect => (asyncConnect connect).opened

def finishedEarly (connects : List (Nat → Conn × ConnStatusType)) : List Conn :=
  connects.flatMap fun connect => (asyncConnect connect).finished

private theorem attempts_conn (connect : Nat → Conn × ConnStatusType) (i n : Nat) :
    (attempts connect i n).conn =
      (((List.range' i n).map connect).find? fun r => r.2 = .connectionOk).map Prod.fst := by
  induction n generalizing i with
  | zero => rfl
  | succ n ih =>
    rw [List.range'_succ, List.map_cons, List.find?_cons, attempts]
    by_cases hok : (connect i).2 = .connectionOk
    · simp [hok]
    · simpa [hok] using ih (i + 1)

private theorem asyncConnect_conn (connect : Nat → Conn × ConnStatusType) :
    (asyncConnect connect).conn = establish connect := by
  rw [asyncConnect, attempts_conn, establish, List.range_eq_range']

private theorem attempts_opened_perm (connect : Nat → Conn × ConnStatusType) (i n : Nat) :
    (attempts connect i n).opened.Perm
      ((attempts connect i n).finished ++ (attempts connect i n).conn.toList) := by
  induction n generalizing i with
  | zero => exact .refl _
  | succ n ih =>
    rw [attempts]
    by_cases hok : (connect i).2 = .connectionOk
    · simp [hok]
    · simpa [hok] using ih (i + 1)

private theorem opened_perm (connects : List (Nat → Conn × ConnStatusType)) :
    (opened connects).Perm (finishedEarly connects ++ makeConnections connects) := by
  induction connects with
  | nil => exact .refl _
  | cons connect connects ih =>
    have hmake : makeConnections (connect :: connects) =
        (asyncConnect connect).conn.toList ++ makeConnections connects := by
      rw [asyncConnect_conn, makeConnections, List.filterMap_cons]
      cases establish connect <;> rfl
    have hearly : finishedEarly (connect :: connects) =
        (asyncConnect connect).finished ++ finishedEarly connects := List.flatMap_cons
    have hopened := (attempts_opened_perm connect 0 attemptsOverall).append ih
    refine hopened.trans ?_
    rw [hmake, hearly, List.append_assoc, List.append_assoc]
    exact List.Perm.append_left _ (List.perm_append_comm_assoc _ _ _)

end Opening

namespace Connections

variable {Conn ι : Type} [DecidableEq ι]

private theorem noneLost_of_step {conns : List Conn} {s t : Connections Conn ι} {a : ι × ExecStep}
    (h : s.step a = some t) (hs : s.Inv conns) (ht : t.NoneLost conns) : s.NoneLost conns := by
  by_contra hlost
  exact Machine.run_invariant (P := fun C => ¬C.Accounted conns)
    (fun _ _ _ hmove hbefore hafter => hbefore (Custody.accounted_of_step hmove hafter))
    (custody_step h hs.sound) hlost ht

end Connections

/-! ## The end of the threads -/

namespace ThreadPool

variable {N : Nat} {π β : Type}

/-- The destructor has waited for the workers that it has passed. -/
structure Joined (s : ThreadPool N π β) : Prop where
  passed : ∀ k, s.destructor = .join k → ∀ w : Fin N, w.val < k → (s.workers w).pc = .exited
  all : s.destructor = .returned → ∀ w, (s.workers w).pc = .exited

private theorem joined_init : (init N π β).Joined where
  passed _ h := by cases h
  all h := by cases h

variable [DecidableEq π]

private theorem exited_step {s t : ThreadPool N π β} {a : PoolStep N π β} (h : s.step a = some t)
    {w : Fin N} (hw : (s.workers w).pc = .exited) : (t.workers w).pc = .exited := by
  have hmove : ∀ {v : Fin N} (pc : WorkerPc), (s.workers v).pc ≠ .exited →
      ((s.setPc v pc).workers w).pc = .exited := by
    intro v pc hv
    have hwv : w ≠ v := by
      rintro rfl
      exact hv hw
    rw [setPc_pc_of_ne s hwv, hw]
  cases fires h with
  | whileTest v hpc | ready v hpc | notReady v hpc | block v hpc | doneTest v hpc | unlock v hpc
  | callTask v u hpc | finish v u hpc | leave v hpc | spurious v hpc =>
    exact hmove _ (by simp [hpc])
  | notifyOne p v _ hv => exact hmove _ (by simp [hv])
  | lock v hpc =>
    refine hmove _ ?_
    rcases hpc with hpc | hpc <;> simp [hpc]
  | pullTask v u us hpc =>
    have hwv : w ≠ v := by
      rintro rfl
      rw [hpc] at hw
      cases hw
    simpa [hwv] using hw
  | startPush | pushLock | enqueue | pushUnlock | notifyNobody | storeDone | join | joined =>
    exact hw
  | notifyAll hpc => simp [hw, WorkerPc.wake]

private theorem joined_step {s t : ThreadPool N π β} {a : PoolStep N π β} (h : s.step a = some t)
    (hs : s.Joined) : t.Joined := by
  have hkeep : t.destructor = s.destructor → t.Joined := by
    intro hsame
    refine ⟨fun k hk w hw => ?_, fun hreturned w => ?_⟩
    · exact exited_step h (hs.passed k (hsame ▸ hk) w hw)
    · exact exited_step h (hs.all (hsame ▸ hreturned) w)
  cases fires h with
  | storeDone hpc => exact ⟨fun _ hk => (by cases hk), fun hk => by cases hk⟩
  | notifyAll hpc =>
    refine ⟨fun k hk w hw => ?_, fun hk => by cases hk⟩
    obtain rfl : 0 = k := DestructorPc.join.inj hk
    exact absurd hw (Nat.not_lt_zero _)
  | join k hpc hk hexited =>
    refine ⟨fun l hl w hw => ?_, fun hl => by cases hl⟩
    obtain rfl : k + 1 = l := DestructorPc.join.inj hl
    rcases Nat.lt_succ_iff_lt_or_eq.mp hw with hw | hw
    · exact hs.passed k hpc w hw
    · obtain rfl : w = ⟨k, hk⟩ := Fin.ext hw
      exact hexited
  | joined k hpc hk =>
    exact ⟨fun _ hk => (by cases hk),
      fun _ w => hs.passed k hpc w (w.isLt.trans_le (Nat.le_of_not_lt hk))⟩
  | _ => exact hkeep rfl

end ThreadPool

/-! ## The service until its pools are destroyed -/

namespace Service

variable {N : Nat} {Conn : Type} {hash : Hash}

/-- The step is not a check after `PQreset` that finds the connection still down. -/
def ResetsSucceed (s : Service N Conn) : ServiceStep N → Prop
  | .task w x _ => ∀ t, (s.threads.workers w).task = some t → ResetSucceeds s.conns (t.id, x)
  | _ => True

structure Kept (hash : Hash) (start : Db) (conns : List Conn) (s : Service N Conn) : Prop where
  steady : s.Steady hash start
  joined : s.threads.Joined
  conns : s.conns.Inv conns

private theorem kept_init {conns : List Conn} (h : conns.Nodup) (db : Db) :
    (init N conns db).Kept hash db conns :=
  ⟨steady_init conns db, ThreadPool.joined_init, Connections.inv_init h⟩

private theorem kept_step (hN : 0 < N) {start : Db} {conns : List Conn} {s t : Service N Conn}
    {a : ServiceStep N} (h : s.step hash a = some t) (hs : s.Kept hash start conns) :
    t.Kept hash start conns := by
  have hsteady := steady_step hN h hs.steady
  rcases pools_step h with ⟨hconns, b, hthreads⟩ | ⟨hthreads, i, x, hconns⟩
  · exact ⟨hsteady, ThreadPool.joined_step hthreads hs.joined, hconns ▸ hs.conns⟩
  · exact ⟨hsteady, hthreads ▸ hs.joined, Connections.inv_step hconns hs.conns⟩

theorem noneLost_step_iff {conns : List Conn} {s t : Service N Conn} {a : ServiceStep N}
    (h : s.step hash a = some t) (hs : s.conns.Inv conns) :
    t.conns.NoneLost conns ↔ s.conns.NoneLost conns ∧ s.ResetsSucceed a := by
  cases a with
  | call c =>
    obtain ⟨threads, -, rfl⟩ := call_step h
    exact (and_iff_left trivial).symm
  | pool b =>
    obtain ⟨threads, -, rfl⟩ := pool_step h
    exact (and_iff_left trivial).symm
  | task w x choice =>
    obtain ⟨u, -, htask, hconns, -⟩ := task_step h
    have hguard : s.ResetsSucceed (.task w x choice) ↔ ResetSucceeds s.conns (u.id, x) :=
      ⟨fun hall => hall u htask, fun hone t ht => Option.some.inj (htask.symm.trans ht) ▸ hone⟩
    rw [hguard]
    constructor
    · intro hnone
      have hbefore := Connections.noneLost_of_step hconns hs hnone
      exact ⟨hbefore, (Connections.noneLost_step_iff hconns hs hbefore).mp hnone⟩
    · rintro ⟨hbefore, hreset⟩
      exact (Connections.noneLost_step_iff hconns hs hbefore).mpr hreset

private theorem Kept.at_rest {start : Db} {conns : List Conn} {s : Service N Conn}
    (hs : s.Kept hash start conns) (hreturned : s.threads.destructor = .returned) :
    (∀ w x choice, s.step hash (.task w x choice) = none) ∧
      ∀ i, (s.conns.tasks i).held = none := by
  have hexited := hs.joined.all hreturned
  refine ⟨fun w x choice => ?_, fun i => ?_⟩
  · simp only [step, hexited w]
  · rw [ExecTask.held, if_neg]
    intro hholding
    obtain ⟨w, -, hpc, -⟩ := hs.steady.manned i hholding
    rw [hexited w] at hpc
    cases hpc

end Service

/-! ## Closing -/

/-- `connection_pool::~connection_pool`: what is left in the deque, and what `PQfinish` has
received. -/
def destroyPool {Conn : Type} : List Conn → List Conn → List Conn × List Conn
  | [], finished => ([], finished)
  | conn :: conns, finished => destroyPool conns (finished ++ [conn])

private theorem destroyPool_eq {Conn : Type} (conns finished : List Conn) :
    destroyPool conns finished = ([], finished ++ conns) := by
  induction conns generalizing finished with
  | nil => rw [destroyPool, List.append_nil]
  | cons conn conns ih => rw [destroyPool, ih, List.append_assoc]; rfl

/-- All that has been finished when the pool has been destroyed. -/
def closed {N : Nat} {Conn : Type} (connects : List (Nat → Conn × ConnStatusType))
    (s : Service N Conn) : List Conn :=
  (destroyPool s.conns.connsDeque (finishedEarly connects)).2

/-- When the threads of the service have been joined, no task uses a connection any more; the
destructor of the pool finishes none that is finished already, and all that were opened are finished
in the end exactly when every reset has brought its connection back. -/
theorem each_connection_closed_once_iff {N : Nat} {Conn : Type} (hash : Hash) (hN : 0 < N)
    (connects : List (Nat → Conn × ConnStatusType)) (hnodup : (opened connects).Nodup) (db : Db)
    {as : List (ServiceStep N)} {s : Service N Conn}
    (hrun : (serviceMachine N Conn hash).run (.init N (makeConnections connects) db) as = some s)
    (hreturned : s.threads.destructor = .returned) :
    (∀ w x choice, s.step hash (.task w x choice) = none) ∧
      (closed connects s).Nodup ∧ closed connects s ⊆ opened connects ∧
      ((closed connects s).Perm (opened connects) ↔
        (serviceMachine N Conn hash).Guarded Service.ResetsSucceed
          (.init N (makeConnections connects) db) as) := by
  have hopened := opened_perm connects
  obtain ⟨hearly, hmade, hapart⟩ := List.nodup_append.mp (hopened.nodup_iff.mp hnodup)
  have hs : s.Kept hash db (makeConnections connects) := Machine.run_invariant
    (P := Service.Kept hash db (makeConnections connects))
    (fun _ _ _ h => Service.kept_step hN h) hrun (Service.kept_init hmade db)
  obtain ⟨hstuck, hheld⟩ := hs.at_rest hreturned
  have hclosed : closed connects s = finishedEarly connects ++ s.conns.connsDeque := by
    rw [closed, destroyPool_eq]
  have hknown : s.conns.connsDeque ⊆ makeConnections connects := hs.conns.known.1
  have hdeque : s.conns.connsDeque.Perm (makeConnections connects) ↔
      s.conns.NoneLost (makeConnections connects) := by
    constructor
    · intro hperm c hc
      exact Or.inl (hperm.mem_iff.mpr hc)
    · intro hnone
      refine (List.perm_ext_iff_of_nodup hs.conns.exclusive.nodup hmade).mpr fun c => ?_
      refine ⟨fun hc => hknown hc, fun hc => (hnone c hc).resolve_right ?_⟩
      rintro ⟨i, hi⟩
      rw [hheld i] at hi
      cases hi
  have hguarded : s.conns.NoneLost (makeConnections connects) ↔
      (serviceMachine N Conn hash).Guarded Service.ResetsSucceed
        (.init N (makeConnections connects) db) as := by
    rw [Machine.last_iff_guarded (I := fun u => u.conns.Inv (makeConnections connects))
      (P := fun u => u.conns.NoneLost (makeConnections connects)) ?_
      (fun _ _ _ h hu => Service.noneLost_step_iff h hu) hrun (Connections.inv_init hmade)]
    · exact and_iff_right fun c hc => Or.inl hc
    · intro u a v h hu
      rcases Service.pools_step h with ⟨hconns, -⟩ | ⟨-, i, x, hconns⟩
      · exact hconns ▸ hu
      · exact Connections.inv_step hconns hu
  refine ⟨hstuck, ?_, ?_, ?_⟩
  · rw [hclosed]
    exact List.nodup_append.mpr
      ⟨hearly, hs.conns.exclusive.nodup, fun c hc d hd => hapart c hc d (hknown hd)⟩
  · rw [hclosed]
    intro c hc
    refine hopened.mem_iff.mpr (List.mem_append.mpr ?_)
    exact (List.mem_append.mp hc).imp_right fun hc => hknown hc
  · rw [hclosed, hopened.congr_right, List.perm_append_left_iff, hdeque, hguarded]

/-- A call whose task meets a broken connection and resets it, then the shutdown. -/
def callThenShutdown : List (ServiceStep 1) :=
  callTaken ++ soleTask [.pullConnection, .pqStatus .connectionBad, .pqReset,
    .pqStatus .connectionOk, .pqExec, .setValue, .pushConnection] ++
  [.pool (.worker (Fin.last 0)), .pool .destroy, .pool .destroy, .pool (.worker (Fin.last 0)),
    .pool .destroy, .pool .destroy]

/-- The first attempt opens a connection that is not usable. -/
def secondAttempt : List (Nat → Nat × ConnStatusType) :=
  [fun i => (i, if i = 0 then .connectionBad else .connectionOk)]

theorem each_connection_closed_once_iff_one_call :
    ∃ s, (serviceMachine 1 Nat fun _ => 0).run
        (.init 1 (makeConnections secondAttempt) ⟨[], .restart, [], .restart⟩) callThenShutdown =
          some s ∧
      (∀ w x choice, s.step (fun _ => 0) (.task w x choice) = none) ∧
      (closed secondAttempt s).Nodup ∧ closed secondAttempt s ⊆ opened secondAttempt ∧
      ((closed secondAttempt s).Perm (opened secondAttempt) ↔
        (serviceMachine 1 Nat fun _ => 0).Guarded Service.ResetsSucceed
          (.init 1 (makeConnections secondAttempt) ⟨[], .restart, [], .restart⟩)
          callThenShutdown) := by
  have henabled : ((serviceMachine 1 Nat fun _ => 0).run
      (.init 1 (makeConnections secondAttempt) ⟨[], .restart, [], .restart⟩) callThenShutdown).any
        (fun s => s.threads.destructor = .returned) = true := by decide +kernel
  obtain ⟨s, hs, hreturned⟩ := (Option.any_eq_true _ _).mp henabled
  exact ⟨s, hs, each_connection_closed_once_iff (fun _ => 0) (by decide) secondAttempt (by decide) _
    hs (by simpa using hreturned)⟩

end PetProject.DbModule
