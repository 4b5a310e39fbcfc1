import PetProject.Framework.Custody

/-!
# The connection pool

`connection_pool::pull_connection` and `push_connection` under the body of the tasks that
`DB_module::exec_command` queues. Popping and pushing happen under the mutex and are one step
each; the checks of a popped connection, its reset and its use are steps of their own, between
which the other tasks may take any number of steps. The server answers `PQstatus` as it likes.
-/

namespace PetProject.DbModule

open Framework

/-- The answers of `PQstatus`. -/
inductive ConnStatusType
  | connectionOk | connectionBad | connectionStarted | connectionMade
  | connectionAwaitingResponse | connectionAuthOk | connectionSetenv | connectionSslStartup
  | connectionNeeded
  deriving DecidableEq, Repr

/-! ## Establishing connections -/

/-- The overall attempts of one asynchronous connect. -/
def attemptsOverall : Nat := 5

/-- One asynchronous connect: the first attempt that reports `CONNECTION_OK`, else null. -/
def establish {Conn : Type} (connect : Nat → Conn × ConnStatusType) : Option Conn :=
  (((List.range attemptsOverall).map connect).find? fun r => r.2 = .connectionOk).map Prod.fst

/-- `connection_pool::make_connections`: the initial contents of `conns_deque`. -/
def makeConnections {Conn : Type} (connects : List (Nat → Conn × ConnStatusType)) : List Conn :=
  connects.filterMap establish

/-! ## The body of a task -/

/-- The point that a task has reached in the body queued by `exec_command`. -/
inductive ExecPc
  | pullConnection
  | firstStatus
  | reset
  | secondStatus
  | exec
  | setValue
  | pushConnection
  | finished
  deriving DecidableEq, Repr

/-- A connection has been popped and neither pushed back nor dropped. -/
def ExecPc.holding : ExecPc → Bool
  | .pullConnection => false
  | .finished => false
  | _ => true

/-- `pull_connection` has returned true and the connection has not been pushed back. -/
def ExecPc.pulled : ExecPc → Bool
  | .exec => true
  | .setValue => true
  | .pushConnection => true
  | _ => false

/-- `PQexec` has been executed. -/
def ExecPc.committed : ExecPc → Bool
  | .setValue | .pushConnection | .finished => true
  | _ => false

/-- The number of times that the promise has been set on the way to this point. -/
def ExecPc.promises : ExecPc → Nat
  | .pushConnection => 1
  | .finished => 1
  | _ => 0

/-- The locals of a task: `conn` starts as a null pointer, `status` is the last answer of
`PQstatus` in the current pull, `promises` counts the calls of `set_value`. -/
structure ExecTask (Conn : Type) where
  pc : ExecPc
  conn : Option Conn
  status : Option ConnStatusType
  promises : Nat
  deriving DecidableEq

def ExecTask.start (Conn : Type) : ExecTask Conn := ⟨.pullConnection, none, none, 0⟩

/-- The connection that a task has taken out of the pool. -/
def ExecTask.held {Conn : Type} (t : ExecTask Conn) : Option Conn :=
  if t.pc.holding then t.conn else none

structure Connections (Conn ι : Type) where
  connsDeque : List Conn
  tasks : ι → ExecTask Conn

inductive ExecStep
  | pullConnection
  | pqStatus (answer : ConnStatusType)
  | pqReset
  | pqExec
  | setValue
  | pushConnection
  deriving DecidableEq, Repr

section Steps

variable {Conn ι : Type} [DecidableEq ι]

def Connections.init (Conn ι : Type) (conns : List Conn) : Connections Conn ι :=
  ⟨conns, fun _ => ExecTask.start Conn⟩

def Connections.setTask (s : Connections Conn ι) (i : ι) (t : ExecTask Conn) :
    Connections Conn ι := { s with tasks := Function.update s.tasks i t }

/-- One step of a task. An unsuccessful pull leaves the task in its loop; when the check after
`PQreset` fails, `pull_connection` returns false as well. -/
def Connections.step (s : Connections Conn ι) (a : ι × ExecStep) :
    Option (Connections Conn ι) :=
  let t := s.tasks a.1
  match t.pc, a.2 with
  | .pullConnection, .pullConnection =>
    match s.connsDeque with
    | [] => some s
    | c :: cs =>
      some (Connections.setTask { s with connsDeque := cs } a.1
        { t with pc := .firstStatus, conn := some c, status := none })
  | .firstStatus, .pqStatus answer =>
    some (s.setTask a.1
      { t with pc := if answer = .connectionOk then .exec else .reset, status := some answer })
  | .reset, .pqReset => some (s.setTask a.1 { t with pc := .secondStatus })
  | .secondStatus, .pqStatus answer =>
    some (s.setTask a.1
      { t with pc := if answer = .connectionOk then .exec else .pullConnection,
               status := some answer })
  | .exec, .pqExec => some (s.setTask a.1 { t with pc := .setValue })
  | .setValue, .setValue =>
    some (s.setTask a.1 { t with pc := .pushConnection, promises := t.promises + 1 })
  | .pushConnection, .pushConnection =>
    t.conn.map fun c =>
      Connections.setTask { s with connsDeque := c :: s.connsDeque } a.1
        { t with pc := .finished }
  | _, _ => none

def connectionMachine (Conn ι : Type) [DecidableEq ι] :
    Machine (Connections Conn ι) (ι × ExecStep) := ⟨Connections.step⟩

/-- The moves of a task seen from the pool. -/
def Connections.moves (s : Connections Conn ι) (a : ι × ExecStep) : List (Custody.Move ι) :=
  match (s.tasks a.1).pc, a.2 with
  | .pullConnection, .pullConnection => if s.connsDeque = [] then [] else [.take a.1]
  | .secondStatus, .pqStatus answer => if answer = .connectionOk then [] else [.lose a.1]
  | .pushConnection, .pushConnection => [.give a.1]
  | _, _ => []

def Connections.custody (s : Connections Conn ι) : Custody Conn ι :=
  ⟨s.connsDeque, fun i => (s.tasks i).held⟩

/-- What the locals of a task satisfy at every point of its body. -/
structure ExecTask.Sound (t : ExecTask Conn) : Prop where
  conn : t.pc.holding → t.conn.isSome
  status : t.pc.pulled → t.status = some .connectionOk
  promises : t.promises = t.pc.promises

/-- The enabled steps of a task, one rule for each exit of `pull_connection` and each later
line of the body. -/
inductive Connections.Fires (s : Connections Conn ι) (i : ι) :
    ExecStep → Connections Conn ι → Prop
  | empty (hpc : (s.tasks i).pc = .pullConnection) (hpool : s.connsDeque = []) :
      Fires s i .pullConnection s
  | pop (c : Conn) (cs : List Conn) (hpc : (s.tasks i).pc = .pullConnection)
      (hpool : s.connsDeque = c :: cs) :
      Fires s i .pullConnection (Connections.setTask { s with connsDeque := cs } i
        { s.tasks i with pc := .firstStatus, conn := some c, status := none })
  | firstStatus (answer : ConnStatusType) (hpc : (s.tasks i).pc = .firstStatus) :
      Fires s i (.pqStatus answer) (s.setTask i
        { s.tasks i with pc := if answer = .connectionOk then .exec else .reset,
                         status := some answer })
  | reset (hpc : (s.tasks i).pc = .reset) :
      Fires s i .pqReset (s.setTask i { s.tasks i with pc := .secondStatus })
  | restored (hpc : (s.tasks i).pc = .secondStatus) :
      Fires s i (.pqStatus .connectionOk) (s.setTask i
        { s.tasks i with pc := .exec, status := some .connectionOk })
  | dropped (answer : ConnStatusType) (hanswer : answer ≠ .connectionOk)
      (hpc : (s.tasks i).pc = .secondStatus) :
      Fires s i (.pqStatus answer) (s.setTask i
        { s.tasks i with pc := .pullConnection, status := some answer })
  | exec (hpc : (s.tasks i).pc = .exec) :
      Fires s i .pqExec (s.setTask i { s.tasks i with pc := .setValue })
  | setValue (hpc : (s.tasks i).pc = .setValue) :
      Fires s i .setValue (s.setTask i
        { s.tasks i with pc := .pushConnection, promises := (s.tasks i).promises + 1 })
  | push (c : Conn) (hpc : (s.tasks i).pc = .pushConnection) (hconn : (s.tasks i).conn = some c) :
      Fires s i .pushConnection
        (Connections.setTask { s with connsDeque := c :: s.connsDeque } i
          { s.tasks i with pc := .finished })

theorem Connections.fires {s s' : Connections Conn ι} {i : ι} {x : ExecStep}
    (h : s.step (i, x) = some s') : s.Fires i x s' := by
  unfold Connections.step at h
  dsimp only at h
  split at h
  case h_1 _ _ hpc =>
    split at h
    case h_1 hpool => exact Option.some.inj h ▸ .empty hpc hpool
    case h_2 c cs hpool => exact Option.some.inj h ▸ .pop c cs hpc hpool
  case h_2 answer hpc => exact Option.some.inj h ▸ .firstStatus answer hpc
  case h_3 hpc => exact Option.some.inj h ▸ .reset hpc
  case h_4 answer hpc =>
    by_cases hanswer : answer = .connectionOk
    · subst hanswer
      exact Option.some.inj h ▸ .restored hpc
    · rw [if_neg hanswer] at h
      exact Option.some.inj h ▸ .dropped answer hanswer hpc
  case h_5 hpc => exact Option.some.inj h ▸ .exec hpc
  case h_6 hpc => exact Option.some.inj h ▸ .setValue hpc
  case h_7 hpc =>
    obtain ⟨c, hconn, rfl⟩ := Option.map_eq_some_iff.mp h
    exact .push c hpc hconn
  case h_8 => exact absurd h (by simp)

@[simp] theorem Connections.setTask_self (s : Connections Conn ι) (i : ι) (t : ExecTask Conn) :
    (s.setTask i t).tasks i = t := by
  simp [Connections.setTask]

theorem Connections.setTask_of_ne (s : Connections Conn ι) {i j : ι} (h : j ≠ i)
    (t : ExecTask Conn) : (s.setTask i t).tasks j = s.tasks j := by
  simp [Connections.setTask, h]

theorem Connections.tasks_of_ne {s s' : Connections Conn ι} {i j : ι} {x : ExecStep}
    (h : s.step (i, x) = some s') (hji : j ≠ i) : s'.tasks j = s.tasks j := by
  cases Connections.fires h <;> first
    | rfl
    | exact setTask_of_ne _ hji _

theorem Connections.committed_step {s s' : Connections Conn ι} {i : ι} {x : ExecStep}
    (h : s.step (i, x) = some s') :
    ((s'.tasks i).pc.committed ↔ x = .pqExec ∨ (s.tasks i).pc.committed) ∧
      (x = .pqExec → (s.tasks i).pc = .exec) := by
  cases Connections.fires h with
  | firstStatus answer hpc =>
    rw [setTask_self]
    by_cases hanswer : answer = .connectionOk <;> simp [ExecPc.committed, hpc, hanswer]
  | empty hpc hpool => simp [ExecPc.committed, hpc]
  | pop c cs hpc | reset hpc | restored hpc | dropped answer hanswer hpc | exec hpc | setValue hpc =>
    simp [ExecPc.committed, hpc]
  | push c hpc hconn => simp [ExecPc.committed, hpc]

theorem Connections.sound_step {s s' : Connections Conn ι} {a : ι × ExecStep}
    (h : s.step a = some s') (hs : ∀ i, (s.tasks i).Sound) : ∀ i, (s'.tasks i).Sound := by
  obtain ⟨i, x⟩ := a
  intro j
  have hj := hs j
  by_cases hji : j = i
  · subst hji
    obtain ⟨hconn, hstatus, hpromises⟩ := hj
    cases Connections.fires h with
    | empty => exact hs j
    | firstStatus answer hpc =>
      rw [setTask_self]
      by_cases hanswer : answer = .connectionOk
      · constructor <;> simp_all [ExecPc.holding, ExecPc.pulled, ExecPc.promises]
      · constructor <;> simp_all [ExecPc.holding, ExecPc.pulled, ExecPc.promises]
    | pop | reset | restored | dropped | exec | setValue | push =>
      rw [setTask_self]
      constructor <;> simp_all [ExecPc.holding, ExecPc.pulled, ExecPc.promises]
  · rwa [tasks_of_ne h hji]

private theorem Connections.custody_setTask (s : Connections Conn ι) (i : ι) (t : ExecTask Conn) :
    (s.setTask i t).custody = ⟨s.connsDeque, Function.update s.custody.held i t.held⟩ := by
  refine congrArg _ (funext fun j => ?_)
  by_cases hji : j = i
  · subst hji
    simp
  · rw [Function.update_of_ne hji, setTask_of_ne _ hji]
    rfl

private theorem custody_setTask_of_held {s : Connections Conn ι} {i : ι} {t : ExecTask Conn}
    (h : t.held = (s.tasks i).held) : (s.setTask i t).custody = s.custody := by
  rw [Connections.custody_setTask, h]
  exact congrArg _ (Function.update_eq_self i s.custody.held)

/-- The pool as custody of its connections: each step makes the moves that `moves` lists. -/
theorem Connections.custody_step {s s' : Connections Conn ι} {a : ι × ExecStep}
    (h : s.step a = some s') (hs : ∀ i, (s.tasks i).Sound) :
    (Custody.machine Conn ι).run s.custody (s.moves a) = some s'.custody := by
  obtain ⟨i, x⟩ := a
  have hheld : (s.tasks i).pc.holding = true → ∃ c, (s.tasks i).conn = some c ∧
      s.custody.held i = some c := by
    intro hpc
    obtain ⟨c, hc⟩ := Option.isSome_iff_exists.mp ((hs i).conn hpc)
    exact ⟨c, hc, by simp [custody, ExecTask.held, hpc, hc]⟩
  cases Connections.fires h with
  | empty hpc hpool =>
    have hstay : s.moves (i, .pullConnection) = [] := by simp [moves, hpc, hpool]
    rw [hstay, Machine.run_nil]
  | pop c cs hpc hpool =>
    have hfree : s.custody.held i = none := by simp [custody, ExecTask.held, hpc, ExecPc.holding]
    have htake : s.moves (i, .pullConnection) = [.take i] := by simp [moves, hpc, hpool]
    rw [htake, Custody.run_take hfree hpool, custody_setTask]
    rfl
  | firstStatus answer hpc =>
    have hstay : s.moves (i, .pqStatus answer) = [] := by simp [moves, hpc]
    rw [hstay, Machine.run_nil, custody_setTask_of_held]
    by_cases hanswer : answer = .connectionOk
    · simp [ExecTask.held, ExecPc.holding, hpc, hanswer]
    · simp [ExecTask.held, ExecPc.holding, hpc, hanswer]
  | reset hpc | exec hpc | setValue hpc | restored hpc =>
    simp only [moves, hpc, Machine.run_nil, if_true]
    rw [custody_setTask_of_held (by simp [ExecTask.held, ExecPc.holding, hpc])]
  | dropped answer hanswer hpc =>
    obtain ⟨c, -, hc⟩ := hheld (by rw [hpc]; rfl)
    have hlose : s.moves (i, .pqStatus answer) = [.lose i] := by simp [moves, hpc, hanswer]
    rw [hlose, Custody.run_lose hc, custody_setTask]
    rfl
  | push c hpc hconn =>
    obtain ⟨d, hd, hc⟩ := hheld (by rw [hpc]; rfl)
    obtain rfl : c = d := by simpa [hconn] using hd
    have hgive : s.moves (i, .pushConnection) = [.give i] := by simp [moves, hpc]
    rw [hgive, Custody.run_give hc, custody_setTask]
    rfl

/-- What holds in every reachable state, whatever the server answers. -/
structure Connections.Inv (conns : List Conn) (s : Connections Conn ι) : Prop where
  sound : ∀ i, (s.tasks i).Sound
  exclusive : s.custody.Exclusive
  known : s.custody.Known conns

omit [DecidableEq ι] in
theorem Connections.inv_init {conns : List Conn} (h : conns.Nodup) :
    (init Conn ι conns).Inv conns where
  sound _ := ⟨by simp [init, ExecTask.start, ExecPc.holding],
    by simp [init, ExecTask.start, ExecPc.pulled], rfl⟩
  exclusive := ⟨h, fun _ _ hc => (nomatch hc), fun _ _ _ hc => (nomatch hc)⟩
  known := ⟨fun _ hc => hc, fun _ _ hc => (nomatch hc)⟩

theorem Connections.inv_step {conns : List Conn} {s s' : Connections Conn ι} {a : ι × ExecStep}
    (h : s.step a = some s') (hs : s.Inv conns) : s'.Inv conns where
  sound := sound_step h hs.sound
  exclusive := Machine.run_invariant (P := Custody.Exclusive)
    (fun _ _ _ hmove => Custody.exclusive_step hmove) (custody_step h hs.sound) hs.exclusive
  known := Machine.run_invariant (P := Custody.Known conns)
    (fun _ _ _ hmove => Custody.known_step hmove) (custody_step h hs.sound) hs.known

/-- Exclusive use: in every reachable state no connection is twice in the deque, in the deque
and with a task, or with two tasks; what a task executes on is a connection that its pull has
seen as `CONNECTION_OK`; and a promise is set once, before the connection is returned. -/
theorem exclusive_use {conns : List Conn} (hconns : conns.Nodup) {as : List (ι × ExecStep)}
    {s : Connections Conn ι} (hrun : (connectionMachine Conn ι).run (.init Conn ι conns) as = some s) :
    s.connsDeque.Nodup ∧
      (∀ i c, (s.tasks i).held = some c → c ∉ s.connsDeque) ∧
      (∀ i j c, (s.tasks i).held = some c → (s.tasks j).held = some c → i = j) ∧
      (∀ i, (s.tasks i).pc.pulled →
        (∃ c, (s.tasks i).held = some c) ∧ (s.tasks i).status = some .connectionOk) ∧
      ∀ i, (s.tasks i).promises =
        if (s.tasks i).pc = .pushConnection ∨ (s.tasks i).pc = .finished then 1 else 0 := by
  have hs : s.Inv conns := Machine.run_invariant (P := Connections.Inv conns)
    (fun _ _ _ h => Connections.inv_step h) hrun (Connections.inv_init hconns)
  refine ⟨hs.exclusive.nodup, hs.exclusive.apart, hs.exclusive.unique, ?_, ?_⟩
  · intro i hpulled
    have hholding : (s.tasks i).pc.holding = true := by
      revert hpulled
      cases (s.tasks i).pc <;> simp [ExecPc.pulled, ExecPc.holding]
    obtain ⟨c, hc⟩ := Option.isSome_iff_exists.mp ((hs.sound i).conn hholding)
    exact ⟨⟨c, by simp [ExecTask.held, hholding, hc]⟩, (hs.sound i).status hpulled⟩
  · intro i
    rw [(hs.sound i).promises]
    cases (s.tasks i).pc <;> simp [ExecPc.promises]

/-- Two tasks use two connections, one of which is down at first and comes back. -/
def twoTasksRun : List (Bool × ExecStep) :=
  [(true, .pullConnection), (false, .pullConnection), (true, .pqStatus .connectionBad),
    (false, .pqStatus .connectionOk), (true, .pqReset), (true, .pqStatus .connectionOk),
    (false, .pqExec), (false, .setValue), (false, .pushConnection)]

theorem exclusive_use_two_tasks :
    ∃ s, (connectionMachine Nat Bool).run (.init Nat Bool [7, 8]) twoTasksRun = some s ∧
      s.connsDeque.Nodup ∧
      (∀ i c, (s.tasks i).held = some c → c ∉ s.connsDeque) ∧
      (∀ i j c, (s.tasks i).held = some c → (s.tasks j).held = some c → i = j) ∧
      (∀ i, (s.tasks i).pc.pulled →
        (∃ c, (s.tasks i).held = some c) ∧ (s.tasks i).status = some .connectionOk) ∧
      ∀ i, (s.tasks i).promises =
        if (s.tasks i).pc = .pushConnection ∨ (s.tasks i).pc = .finished then 1 else 0 := by
  have hconns : [7, 8].Nodup := by decide
  have henabled :
      ((connectionMachine Nat Bool).run (.init Nat Bool [7, 8]) twoTasksRun).isSome := by decide
  obtain ⟨s, hrun⟩ := Option.isSome_iff_exists.mp henabled
  exact ⟨s, hrun, exclusive_use hconns hrun⟩

/-! ## Conservation -/

/-- Every established connection is in the deque or with a task that has yet to push it. -/
def Connections.NoneLost (conns : List Conn) (s : Connections Conn ι) : Prop :=
  ∀ c ∈ conns, c ∈ s.connsDeque ∨ ∃ i, (s.tasks i).held = some c

/-- A task is in its pull loop, and there is no connection that it could ever get. -/
def Connections.Starved (s : Connections Conn ι) : Prop :=
  (∃ i, (s.tasks i).pc = .pullConnection) ∧ s.connsDeque = [] ∧ ∀ j, (s.tasks j).held = none

/-- The step is not a check after `PQreset` that finds the connection still down. -/
def ResetSucceeds (s : Connections Conn ι) (a : ι × ExecStep) : Prop :=
  ∀ answer, (s.tasks a.1).pc = .secondStatus → a.2 = .pqStatus answer → answer = .connectionOk

private theorem moves_of_resetSucceeds {s s' : Connections Conn ι} {a : ι × ExecStep}
    (h : s.step a = some s') :
    (ResetSucceeds s a ∧ (s.moves a = [] ∨ ∃ m, s.moves a = [m] ∧ ∀ i, m ≠ .lose i)) ∨
      (¬ResetSucceeds s a ∧ s.moves a = [.lose a.1]) := by
  obtain ⟨i, x⟩ := a
  cases Connections.fires h with
  | dropped answer hanswer hpc =>
    refine Or.inr ⟨fun hreset => hanswer (hreset answer hpc rfl), ?_⟩
    simp [Connections.moves, hpc, hanswer]
  | empty hpc hpool => simp [ResetSucceeds, Connections.moves, hpc, hpool]
  | pop c cs hpc hpool => simp [ResetSucceeds, Connections.moves, hpc, hpool]
  | firstStatus answer hpc => simp [ResetSucceeds, Connections.moves, hpc]
  | restored hpc => simp [ResetSucceeds, Connections.moves, hpc]
  | reset hpc | exec hpc | setValue hpc => simp [ResetSucceeds, Connections.moves, hpc]
  | push c hpc hconn => simp [ResetSucceeds, Connections.moves, hpc]

theorem Connections.noneLost_step_iff {conns : List Conn} {s s' : Connections Conn ι}
    {a : ι × ExecStep} (h : s.step a = some s') (hs : s.Inv conns) (hnone : s.NoneLost conns) :
    s'.NoneLost conns ↔ ResetSucceeds s a := by
  have hcustody := custody_step h hs.sound
  rcases moves_of_resetSucceeds h with ⟨hreset, hmoves | ⟨m, hmoves, hm⟩⟩ | ⟨hreset, hmoves⟩
  · rw [hmoves, Machine.run_nil] at hcustody
    have hsame : s'.NoneLost conns ↔ s.NoneLost conns := by
      change s'.custody.Accounted conns ↔ s.custody.Accounted conns
      rw [Option.some.inj hcustody]
    exact iff_of_true (hsame.mpr hnone) hreset
  · rw [hmoves, Machine.run_cons_eq_some] at hcustody
    obtain ⟨C, hmove, hC⟩ := hcustody
    obtain rfl := Option.some.inj hC
    exact iff_of_true
      ((Custody.accounted_step_iff hmove hs.exclusive hs.known hnone).mpr hm) hreset
  · rw [hmoves, Machine.run_cons_eq_some] at hcustody
    obtain ⟨C, hmove, hC⟩ := hcustody
    obtain rfl := Option.some.inj hC
    have hmove : s.custody.step (.lose a.1) = some s'.custody := hmove
    refine iff_of_false (fun hlost => ?_) hreset
    exact (Custody.accounted_step_iff hmove hs.exclusive hs.known hnone).mp hlost a.1 rfl

omit [DecidableEq ι] in
private theorem Connections.NoneLost.not_starved {conns : List Conn} {s : Connections Conn ι}
    (h : s.NoneLost conns) (hconns : conns ≠ []) : ¬s.Starved := by
  rintro ⟨-, hempty, hnobody⟩
  obtain ⟨c, hc⟩ := List.exists_mem_of_ne_nil conns hconns
  rcases h c hc with hmem | ⟨i, hi⟩
  · simp [hempty] at hmem
  · simp [hnobody i] at hi

/-- Along a run all established connections stay in circulation, and no task is left spinning
on a pool that nobody will refill, exactly when every reset brings its connection back. -/
theorem no_connection_lost_iff (connects : List (Nat → Conn × ConnStatusType))
    (hnodup : (makeConnections connects).Nodup) (as : List (ι × ExecStep)) :
    (connectionMachine Conn ι).Always
        (fun s => s.NoneLost (makeConnections connects) ∧
          (makeConnections connects ≠ [] → ¬s.Starved))
        (.init Conn ι (makeConnections connects)) as ↔
      (connectionMachine Conn ι).Guarded ResetSucceeds
        (.init Conn ι (makeConnections connects)) as := by
  refine Machine.always_iff_guarded (I := Connections.Inv (makeConnections connects))
    (L := fun _ => True) (fun _ _ _ h _ => Connections.inv_step h) ?_ (fun _ _ => trivial)
    (Connections.inv_init hnodup) ?_
  · intro s a t h _ hs hnone
    rw [← Connections.noneLost_step_iff h hs hnone.1]
    exact ⟨And.left, fun ht => ⟨ht, ht.not_starved⟩⟩
  · have hstart : (Connections.init Conn ι (makeConnections connects)).NoneLost
        (makeConnections connects) := fun c hc => Or.inl hc
    exact ⟨hstart, hstart.not_starved⟩

/-- With a healthy server two tasks pass one connection on. -/
theorem no_connection_lost_two_tasks :
    (connectionMachine Nat Bool).Always
      (fun s => s.NoneLost (makeConnections [fun _ => (7, .connectionOk)]) ∧
        (makeConnections [fun _ => (7, .connectionOk)] ≠ [] → ¬s.Starved))
      (.init Nat Bool (makeConnections [fun _ => (7, .connectionOk)]))
      [(true, .pullConnection), (true, .pqStatus .connectionBad), (true, .pqReset),
        (true, .pqStatus .connectionOk), (true, .pqExec), (true, .setValue),
        (true, .pushConnection), (false, .pullConnection)] := by
  refine (no_connection_lost_iff [fun _ => (7, .connectionOk)] (by decide) _).mpr ?_
  simp [Machine.Guarded, connectionMachine, ResetSucceeds, Connections.step, Connections.init,
    Connections.setTask, ExecTask.start, makeConnections, establish, attemptsOverall]

/-- The only connection is found down, its reset fails, and the task spins for ever on an empty
pool. -/
theorem connection_lost_after_failed_reset :
    ¬∀ s, (connectionMachine Nat Unit).Reaches
        (.init Nat Unit (makeConnections [fun _ => (7, .connectionOk)])) s →
      s.NoneLost (makeConnections [fun _ => (7, .connectionOk)]) ∧ ¬s.Starved := by
  intro h
  have hrun : (connectionMachine Nat Unit).run
      (.init Nat Unit (makeConnections [fun _ => (7, .connectionOk)]))
      [((), .pullConnection), ((), .pqStatus .connectionBad), ((), .pqReset),
        ((), .pqStatus .connectionBad)] =
      some ⟨[], fun _ => ⟨.pullConnection, some 7, some .connectionBad, 0⟩⟩ := rfl
  refine (h _ ⟨_, hrun⟩).2 ⟨⟨(), rfl⟩, rfl, fun _ => rfl⟩

end Steps

end PetProject.DbModule
