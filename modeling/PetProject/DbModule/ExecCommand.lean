import PetProject.DbModule.ConnectionPool
import PetProject.DbModule.TaskHistory
import PetProject.Handler.InotifyDbHandler

/-!
# Commands of the watching thread

The thread pool, the connection pool and the database together: each call of
`Inotify_DB_handler::handle` queues one task, and a worker that runs the task takes a connection,
executes the command and returns the connection. The calls follow one another, but nothing
orders the commands that they queue.
-/

namespace PetProject.DbModule

open Framework Database Handler

/-- The state of the service that `exec_command` uses, with the calls made so far and the numbers
of the tasks whose commands have been executed. -/
structure Service (N : Nat) (Conn : Type) where
  threads : ThreadPool N Unit Text
  conns : Connections Conn Nat
  db : Db
  made : List WatchCall
  committed : List Nat

inductive ServiceStep (N : Nat)
  | call (c : WatchCall)
  | pool (a : PoolStep N Unit Text)
  | task (w : Fin N) (x : ExecStep) (choice : Choice)

namespace Service

variable {N : Nat} {Conn : Type}

def init (N : Nat) (conns : List Conn) (db : Db) : Service N Conn where
  threads := .init N Unit Text
  conns := .init Conn Nat conns
  db := db
  made := []
  committed := []

/-- `DB_module::exec_command`: the command is queued as a task. -/
def execCommand (s : Service N Conn) (command : Text) (frontFlag : Bool) :
    Option (Service N Conn) :=
  (s.threads.step (.startPush () frontFlag command)).map fun threads =>
    { s with threads := threads }

/-- Pushes begin with a call, and a worker returns from a task when its body is finished. -/
def allows (s : Service N Conn) : PoolStep N Unit Text → Bool
  | .startPush _ _ _ => false
  | .worker w =>
    match (s.threads.workers w).pc, (s.threads.workers w).task with
    | .running, some t => (s.conns.tasks t.id).pc = .finished
    | _, _ => true
  | _ => true

def step (hash : Hash) (s : Service N Conn) : ServiceStep N → Option (Service N Conn)
  | .call c =>
    match (handle hash false c.arguments).1 with
    | [command] => execCommand { s with made := s.made ++ [c] } command true
    | _ => none
  | .pool a =>
    if s.allows a then (s.threads.step a).map fun threads => { s with threads := threads } else none
  | .task w x choice =>
    match (s.threads.workers w).pc, (s.threads.workers w).task with
    | .running, some t =>
      (s.conns.step (t.id, x)).map fun conns =>
        if x = .pqExec then
          { s with conns := conns, db := Handler.execCommand choice s.db t.body,
                   committed := s.committed ++ [t.id] }
        else { s with conns := conns }
    | _, _ => none

/-- All calls have returned, the deque is empty and no worker runs a task. -/
structure Quiescent (s : Service N Conn) : Prop where
  returned : s.threads.pushers () = .idle
  empty : s.threads.taskDeque = []
  idle : ∀ w, (s.threads.workers w).current = none

end Service

def serviceMachine (N : Nat) (Conn : Type) (hash : Hash) :
    Machine (Service N Conn) (ServiceStep N) := ⟨Service.step hash⟩

namespace Service

variable {N : Nat} {Conn : Type} {hash : Hash}

/-- The pushes that the calls made so far have begun. -/
def announced (hash : Hash) (made : List WatchCall) : List (Bool × Text) :=
  made.map fun c => (true, c.command hash)

/-- The changes of the catalogue that the executed commands stand for, in their order. -/
def changes (s : Service N Conn) : List (BagOp Text) :=
  (s.committed.filterMap fun i => s.made[i]?).map WatchCall.bagOp

/-- What ties the three parts of the service together. -/
structure Inv (hash : Hash) (start : Db) (s : Service N Conn) : Prop where
  history : s.threads.Numbered ∧ s.threads.Placed
  faithful : s.threads.Faithful
  begun : s.threads.begun = announced hash s.made
  committed : ∀ i, i ∈ s.committed ↔ (s.conns.tasks i).pc.committed
  once : s.committed.Nodup
  pushed : ∀ i ∈ s.committed, i < s.threads.pushed.length
  finished : ∀ i ∈ s.threads.finished, (s.conns.tasks i).pc = .finished
  names : s.db.songNames = BagOp.applyAll s.changes start.songNames

theorem inv_init (conns : List Conn) (db : Db) : (init N conns db).Inv hash db where
  history := ThreadPool.history_init
  faithful := ThreadPool.faithful_init
  begun := rfl
  committed i := by simp [init, Connections.init, ExecTask.start, ExecPc.committed]
  once := List.nodup_nil
  pushed i hi := nomatch hi
  finished i hi := nomatch hi
  names := rfl

private theorem Inv.exists_call {start : Db} {s : Service N Conn} (hs : s.Inv hash start) {i : Nat}
    {body : Text} (hi : (s.threads.pushed[i]?).map Prod.snd = some body) :
    ∃ c, s.made[i]? = some c ∧ c.command hash = body := by
  obtain ⟨x, hx, rfl⟩ := Option.map_eq_some_iff.mp hi
  obtain ⟨hlength, -⟩ := List.getElem?_eq_some_iff.mp hx
  have hbegun : (announced hash s.made)[i]? = some x := by
    rw [← hs.begun, ThreadPool.begun, List.getElem?_append_left hlength, hx]
  rw [announced, List.getElem?_map] at hbegun
  obtain ⟨c, hc, rfl⟩ := Option.map_eq_some_iff.mp hbegun
  exact ⟨c, hc, rfl⟩

theorem Inv.pushed_le {start : Db} {s : Service N Conn} (hs : s.Inv hash start) :
    s.threads.pushed.length ≤ s.made.length := by
  have hlength := congrArg List.length hs.begun
  rw [ThreadPool.begun, List.length_append, announced, List.length_map] at hlength
  omega

private theorem inv_call {start : Db} {s t : Service N Conn} {c : WatchCall}
    (h : s.step hash (.call c) = some t) (hs : s.Inv hash start) : t.Inv hash start := by
  simp only [step, handle_watchCall, execCommand] at h
  obtain ⟨threads, hthreads, rfl⟩ := Option.map_eq_some_iff.mp h
  have hbegun := ThreadPool.begun_step hthreads
  have hprefix := ThreadPool.pushed_prefix hthreads
  have hsame : s.committed.filterMap (fun i => (s.made ++ [c])[i]?) =
      s.committed.filterMap fun i => s.made[i]? := by
    refine List.filterMap_congr fun i hi => ?_
    exact List.getElem?_append_left (lt_of_lt_of_le (hs.pushed i hi) hs.pushed_le)
  refine ⟨ThreadPool.history_step hthreads hs.history, ThreadPool.faithful_step hthreads hs.faithful,
    ?_, hs.committed, hs.once, fun i hi => (hs.pushed i hi).trans_le hprefix.length_le, ?_, ?_⟩
  · rw [hbegun, hs.begun, announced, announced, List.map_append]
    rfl
  · intro i hi
    rcases ThreadPool.finished_step hthreads with hfinished | ⟨w, u, hstep, -⟩
    · exact hs.finished i (hfinished ▸ hi)
    · exact nomatch hstep
  · simp only [changes, hsame]
    exact hs.names

private theorem inv_pool {start : Db} {s t : Service N Conn} {a : PoolStep N Unit Text}
    (h : s.step hash (.pool a) = some t) (hs : s.Inv hash start) : t.Inv hash start := by
  simp only [step] at h
  split at h
  case isFalse => exact nomatch h
  case isTrue hallows =>
  obtain ⟨threads, hthreads, rfl⟩ := Option.map_eq_some_iff.mp h
  have hbegun := ThreadPool.begun_step hthreads
  have hprefix := ThreadPool.pushed_prefix hthreads
  refine ⟨ThreadPool.history_step hthreads hs.history, ThreadPool.faithful_step hthreads hs.faithful,
    ?_, hs.committed, hs.once, fun i hi => (hs.pushed i hi).trans_le hprefix.length_le, ?_, hs.names⟩
  · rw [← hs.begun]
    cases a with
    | startPush => simp [allows] at hallows
    | _ => simpa using hbegun
  · intro i hi
    rcases ThreadPool.finished_step hthreads with hfinished | ⟨w, u, rfl, hpc, htask, hfinished⟩
    · exact hs.finished i (hfinished ▸ hi)
    · rw [hfinished, List.mem_append, List.mem_singleton] at hi
      rcases hi with hi | rfl
      · exact hs.finished i hi
      · simpa [allows, hpc, htask] using hallows

private theorem inv_task {start : Db} {s t : Service N Conn} {w : Fin N} {x : ExecStep}
    {choice : Choice} (h : s.step hash (.task w x choice) = some t) (hs : s.Inv hash start) :
    t.Inv hash start := by
  simp only [step] at h
  split at h
  case h_2 => exact nomatch h
  case h_1 u hpc htask =>
  obtain ⟨conns, hconns, hstate⟩ := Option.map_eq_some_iff.mp h
  obtain ⟨hcommitted, hexec⟩ := Connections.committed_step hconns
  have hpushed := hs.faithful.workers w u htask
  have hcurrent : (s.threads.workers w).current = some u.id := by
    simp [Worker.current, hpc, htask, WorkerPc.busy]
  have hfinished : ∀ i ∈ s.threads.finished, (conns.tasks i).pc = .finished := by
    intro i hi
    have hiu : i ≠ u.id := by
      rintro rfl
      exact (hs.history.2.running w u.id hcurrent).2 hi
    rw [Connections.tasks_of_ne hconns hiu]
    exact hs.finished i hi
  have hlength : u.id < s.threads.pushed.length := by
    obtain ⟨y, hy, -⟩ := Option.map_eq_some_iff.mp hpushed
    exact (List.getElem?_eq_some_iff.mp hy).1
  have hothers : ∀ i, i ≠ u.id → (i ∈ s.committed ↔ (conns.tasks i).pc.committed) := by
    intro i hi
    rw [Connections.tasks_of_ne hconns hi]
    exact hs.committed i
  by_cases hx : x = .pqExec
  · rw [if_pos hx] at hstate
    subst hstate
    obtain ⟨c, hc, hcommand⟩ := hs.exists_call hpushed
    have hfresh : u.id ∉ s.committed := by
      rw [hs.committed, hexec hx]
      simp [ExecPc.committed]
    refine ⟨hs.history, hs.faithful, hs.begun, fun i => ?_, ?_, fun i hi => ?_, hfinished, ?_⟩
    · by_cases hi : i = u.id
      · subst hi
        simp [hcommitted, hx]
      · simpa [hi] using hothers i hi
    · rw [← List.concat_eq_append]
      exact hs.once.concat hfresh
    · rcases List.mem_append.mp hi with hi | hi
      · exact hs.pushed i hi
      · exact List.mem_singleton.mp hi ▸ hlength
    · have hchanges : s.changes ++ [c.bagOp] =
          ((s.committed ++ [u.id]).filterMap fun i => s.made[i]?).map WatchCall.bagOp := by
        simp [changes, List.filterMap_append, hc]
      change (Handler.execCommand choice s.db u.body).songNames = BagOp.applyAll
        (((s.committed ++ [u.id]).filterMap fun i => s.made[i]?).map WatchCall.bagOp) _
      rw [← hcommand, execCommand_watchCall, hs.names, ← hchanges, BagOp.applyAll_append]
      rfl
  · rw [if_neg hx] at hstate
    subst hstate
    refine ⟨hs.history, hs.faithful, hs.begun, fun i => ?_, hs.once, hs.pushed, hfinished, hs.names⟩
    by_cases hi : i = u.id
    · subst hi
      rw [hs.committed, hcommitted]
      simp [hx]
    · exact hothers i hi

theorem inv_step {start : Db} {s t : Service N Conn} {a : ServiceStep N}
    (h : s.step hash a = some t) (hs : s.Inv hash start) : t.Inv hash start := by
  cases a with
  | call c => exact inv_call h hs
  | pool a => exact inv_pool h hs
  | task w x choice => exact inv_task h hs

private theorem filterMap_range_getElem? {α : Type} (l : List α) :
    (List.range l.length).filterMap (fun i => l[i]?) = l := by
  induction l using List.reverseRecOn with
  | nil => rfl
  | append_singleton l x ih =>
    have hold : (List.range l.length).filterMap (fun i => (l ++ [x])[i]?) =
        (List.range l.length).filterMap fun i => l[i]? :=
      List.filterMap_congr fun i hi => List.getElem?_append_left (List.mem_range.mp hi)
    rw [List.length_append, List.length_singleton, List.range_succ, List.filterMap_append, hold, ih]
    simp

private theorem changes_perm {start : Db} {s : Service N Conn} (hs : s.Inv hash start)
    (hquiescent : s.Quiescent) : s.changes.Perm (s.made.map WatchCall.bagOp) := by
  have hlength : s.threads.pushed.length = s.made.length := by
    have hbegun := congrArg List.length hs.begun
    simpa [ThreadPool.begun, hquiescent.returned, PusherPc.pending, announced] using hbegun
  have hcommitted : s.committed.Perm (List.range s.made.length) := by
    refine (List.perm_ext_iff_of_nodup hs.once List.nodup_range).mpr fun i => ?_
    rw [List.mem_range, ← hlength]
    refine ⟨hs.pushed i, fun hi => ?_⟩
    have hline := (hs.history.1.mem i).mpr hi
    have hpulled : i ∈ s.threads.pulled := by
      simpa [ThreadPool.line, Line.all, hquiescent.empty] using hline
    rcases hs.history.2.settled i hpulled with hfinished | ⟨w, hw⟩
    · rw [hs.committed, hs.finished i hfinished]
      rfl
    · rw [hquiescent.idle w] at hw
      cases hw
  have hmade := (hcommitted.filterMap fun i => s.made[i]?).map WatchCall.bagOp
  rwa [filterMap_range_getElem?] at hmade

/-- A quiescent state has the catalogue that the calls in their order make, when no name is both
added and removed by them. -/
theorem Inv.settled {start : Db} {s : Service N Conn} (hs : s.Inv hash start)
    (hquiescent : s.Quiescent) (hsep : BagOp.Separate (s.made.map WatchCall.bagOp)) :
    s.db.songNames = BagOp.applyAll (s.made.map WatchCall.bagOp) start.songNames := by
  rw [hs.names]
  exact (BagOp.applyAll_perm hsep (changes_perm hs hquiescent).symm start.songNames).symm

/-- The calls carried out one by one on the database. -/
def oneByOne (hash : Hash) (choice : Choice) (calls : List WatchCall) (db : Db) : Db :=
  calls.foldl (fun db c => Handler.execCommand choice db (c.command hash)) db

private theorem oneByOne_songNames (choice : Choice) (calls : List WatchCall) (db : Db) :
    (oneByOne hash choice calls db).songNames =
      BagOp.applyAll (calls.map WatchCall.bagOp) db.songNames := by
  induction calls generalizing db with
  | nil => rfl
  | cons c calls ih =>
    rw [List.map_cons, BagOp.applyAll_cons, ← execCommand_watchCall hash c choice]
    exact ih _

/-! ## Calls served in the order of choice -/

/-- Nobody is at work: the tasks of the queue have not been started, and there is a connection
for them. -/
structure Rest (hash : Hash) (queue : List (Nat × WatchCall)) (s : Service N Conn) : Prop where
  mutex : s.threads.mutex = none
  done : s.threads.done = false
  workers : ∀ w, (s.threads.workers w).pc = .whileTest
  pushers : s.threads.pushers () = .idle
  deque : s.threads.taskDeque = queue.map fun q => ⟨q.1, q.2.command hash⟩
  conns : s.conns.connsDeque ≠ []
  nodup : (queue.map Prod.fst).Nodup
  old : ∀ q ∈ queue, q.1 < s.threads.pushed.length
  unstarted : ∀ q ∈ queue, s.conns.tasks q.1 = .start Conn
  unused : ∀ i, s.threads.pushed.length ≤ i → s.conns.tasks i = .start Conn

theorem Rest.push {queue : List (Nat × WatchCall)} {s : Service N Conn} (h : s.Rest hash queue)
    (c : WatchCall) : ∃ t, (serviceMachine N Conn hash).Reaches s t ∧
      t.Rest hash ((s.threads.pushed.length, c) :: queue) ∧ t.made = s.made ++ [c] ∧
      t.db = s.db := by
  have hnobody : ∀ w, (s.threads.workers w).pc ≠ .waiting false := by
    intro w
    simp [h.workers w]
  have hrun : (serviceMachine N Conn hash).run s
      [.call c, .pool (.pusher ()), .pool (.pusher ()), .pool (.pusher ()),
        .pool (.notifyOne () none)] =
      some { s with
        threads := { s.threads.enqueue true (c.command hash) with
          mutex := none, pushers := Function.update s.threads.pushers () .idle },
        made := s.made ++ [c] } := by
    simp [Machine.run_cons, serviceMachine, step, execCommand, handle_watchCall, allows,
      ThreadPool.step, ThreadPool.pusherStep, ThreadPool.setPusher, ThreadPool.enqueue, h.mutex,
      h.pushers, hnobody]
  refine ⟨_, ⟨_, hrun⟩, ?_, rfl, rfl⟩
  have hlength : (s.threads.enqueue true (c.command hash)).pushed.length =
      s.threads.pushed.length + 1 := by
    simp [ThreadPool.enqueue]
  refine ⟨rfl, h.done, h.workers, by simp, ?_, h.conns, ?_, ?_, ?_, ?_⟩
  · change (s.threads.enqueue true (c.command hash)).taskDeque = _
    simp [ThreadPool.enqueue, h.deque]
  · refine List.nodup_cons.mpr ⟨fun hmem => ?_, h.nodup⟩
    obtain ⟨q, hq, heq⟩ := List.mem_map.mp hmem
    exact absurd (h.old q hq) (by simp [heq])
  · intro q hq
    rw [hlength]
    rcases List.mem_cons.mp hq with rfl | hq
    · exact Nat.lt_succ_self _
    · exact Nat.lt_succ_of_lt (h.old q hq)
  · intro q hq
    rcases List.mem_cons.mp hq with rfl | hq
    · exact h.unused _ le_rfl
    · exact h.unstarted q hq
  · intro i hi
    rw [hlength] at hi
    exact h.unused i (by omega)

private theorem run_pull {s : Service N Conn} {w : Fin N} {t : Task Text} {ts : List (Task Text)}
    (hmutex : s.threads.mutex = none) (hdone : s.threads.done = false)
    (hpc : (s.threads.workers w).pc = .whileTest) (hdeque : s.threads.taskDeque = t :: ts) :
    (serviceMachine N Conn hash).run s (List.replicate 7 (.pool (.worker w))) =
      some { s with
        threads := { s.threads with
          taskDeque := ts
          workers := Function.update s.threads.workers w ⟨.running, some t⟩
          pulled := s.threads.pulled ++ [t.id], calls := s.threads.calls ++ [t.id] } } := by
  simp [List.replicate, Machine.run_cons, serviceMachine, step, allows, ThreadPool.step,
    ThreadPool.workerStep, ThreadPool.setPc, hpc, hdone, hmutex, hdeque]

private theorem run_execute {s : Service N Conn} {w : Fin N} {t : Task Text} {conn : Conn}
    {conns : List Conn} (hworker : s.threads.workers w = ⟨.running, some t⟩)
    (htask : s.conns.tasks t.id = .start Conn) (hconns : s.conns.connsDeque = conn :: conns) :
    (serviceMachine N Conn hash).run s
      [.task w .pullConnection .plain, .task w (.pqStatus .connectionOk) .plain,
        .task w .pqExec .plain, .task w .setValue .plain, .task w .pushConnection .plain,
        .pool (.worker w)] =
      some { s with
        threads := { s.threads with
          workers := Function.update s.threads.workers w ⟨.whileTest, some t⟩
          finished := s.threads.finished ++ [t.id] }
        conns := s.conns.setTask t.id ⟨.finished, some conn, some .connectionOk, 1⟩
        db := Handler.execCommand .plain s.db t.body
        committed := s.committed ++ [t.id] } := by
  simp [Machine.run_cons, serviceMachine, step, allows, ThreadPool.step, ThreadPool.workerStep,
    ThreadPool.setPc, Connections.step, Connections.setTask, hworker, htask, hconns,
    ExecTask.start]

theorem Rest.serve {q : Nat × WatchCall} {queue : List (Nat × WatchCall)} {s : Service N Conn}
    (w : Fin N) (h : s.Rest hash (q :: queue)) :
    ∃ t, (serviceMachine N Conn hash).Reaches s t ∧ t.Rest hash queue ∧ t.made = s.made ∧
      t.db.songNames = q.2.bagOp.apply s.db.songNames := by
  obtain ⟨i, c⟩ := q
  obtain ⟨conn, conns, hconns⟩ := List.exists_cons_of_ne_nil h.conns
  have hunstarted := h.unstarted (i, c) List.mem_cons_self
  let cmd : Task Text := ⟨i, c.command hash⟩
  let pulling : Service N Conn := { s with
    threads := { s.threads with
      taskDeque := queue.map fun q => ⟨q.1, q.2.command hash⟩
      workers := Function.update s.threads.workers w ⟨.running, some cmd⟩
      pulled := s.threads.pulled ++ [i], calls := s.threads.calls ++ [i] } }
  have hpull : (serviceMachine N Conn hash).run s _ = some pulling :=
    run_pull h.mutex h.done (h.workers w) h.deque
  have hexecute : (serviceMachine N Conn hash).run pulling _ = _ :=
    run_execute (w := w) (Function.update_self w _ _) hunstarted hconns
  refine ⟨_, .trans ⟨_, hpull⟩ ⟨_, hexecute⟩, ?_, rfl, execCommand_watchCall hash c .plain s.db⟩
  obtain ⟨hnotmem, hnodup⟩ := List.nodup_cons.mp h.nodup
  have hold := List.forall_mem_cons.mp h.old
  have hothers : ∀ j, j ≠ i →
      (s.conns.setTask i ⟨.finished, some conn, some .connectionOk, 1⟩).tasks j = s.conns.tasks j :=
    fun j hj => Connections.setTask_of_ne s.conns hj _
  refine ⟨h.mutex, h.done, fun v => ?_, h.pushers, rfl, h.conns, hnodup, hold.2, fun q hq => ?_,
    fun j hj => ?_⟩
  · by_cases hvw : v = w
    · subst hvw
      simp
    · simpa [pulling, hvw] using h.workers v
  · have hne : q.1 ≠ i := by
      rintro rfl
      exact hnotmem (List.mem_map.mpr ⟨q, hq, rfl⟩)
    exact (hothers q.1 hne).trans (h.unstarted q (List.mem_cons_of_mem _ hq))
  · have hne : j ≠ i := by
      rintro rfl
      exact absurd hold.1 (not_lt.mpr hj)
    exact (hothers j hne).trans (h.unused j hj)

private theorem Rest.serveAll {queue : List (Nat × WatchCall)} {s : Service N Conn} (w : Fin N)
    (h : s.Rest hash queue) :
    ∃ t, (serviceMachine N Conn hash).Reaches s t ∧ t.Rest hash [] ∧ t.made = s.made ∧
      t.db.songNames = BagOp.applyAll (queue.map fun q => q.2.bagOp) s.db.songNames := by
  induction queue generalizing s with
  | nil => exact ⟨s, .refl _ s, h, rfl, rfl⟩
  | cons q queue ih =>
    obtain ⟨t, hst, ht, hmade, hnames⟩ := h.serve w
    obtain ⟨u, htu, hu, hmade', hnames'⟩ := ih ht
    refine ⟨u, hst.trans htu, hu, hmade'.trans hmade, ?_⟩
    rw [hnames', hnames, List.map_cons, BagOp.applyAll_cons]

private theorem Rest.pushAll (calls : List WatchCall) {queue : List (Nat × WatchCall)}
    {s : Service N Conn} (h : s.Rest hash queue) :
    ∃ t queue', (serviceMachine N Conn hash).Reaches s t ∧ t.Rest hash queue' ∧
      queue'.map Prod.snd = calls.reverse ++ queue.map Prod.snd ∧ t.made = s.made ++ calls ∧
      t.db = s.db := by
  induction calls generalizing s queue with
  | nil => exact ⟨s, queue, .refl _ s, h, rfl, by simp, rfl⟩
  | cons c calls ih =>
    obtain ⟨t, hst, ht, hmade, hdb⟩ := h.push c
    obtain ⟨u, queue', htu, hu, hqueue, hmade', hdb'⟩ := ih ht
    refine ⟨u, queue', hst.trans htu, hu, ?_, ?_, hdb'.trans hdb⟩
    · rw [hqueue, List.reverse_cons, List.append_assoc]
      rfl
    · rw [hmade', hmade, List.append_assoc]
      rfl

/-- Calls that are pushed together are served in reverse. -/
theorem Rest.batch (calls : List WatchCall) {s : Service N Conn} (w : Fin N) (h : s.Rest hash []) :
    ∃ t, (serviceMachine N Conn hash).Reaches s t ∧ t.Rest hash [] ∧ t.made = s.made ++ calls ∧
      t.db.songNames = BagOp.applyAll (calls.reverse.map WatchCall.bagOp) s.db.songNames := by
  obtain ⟨t, queue, hst, ht, hqueue, hmade, hdb⟩ := h.pushAll calls
  obtain ⟨u, htu, hu, hmade', hnames⟩ := ht.serveAll w
  refine ⟨u, hst.trans htu, hu, hmade'.trans hmade, ?_⟩
  rw [List.map_nil, List.append_nil] at hqueue
  rw [hnames, hdb, ← hqueue, List.map_map]
  rfl

private theorem Rest.oneByOne (calls : List WatchCall) {s : Service N Conn} (w : Fin N)
    (h : s.Rest hash []) :
    ∃ t, (serviceMachine N Conn hash).Reaches s t ∧ t.Rest hash [] ∧ t.made = s.made ++ calls ∧
      t.db.songNames = BagOp.applyAll (calls.map WatchCall.bagOp) s.db.songNames := by
  induction calls generalizing s with
  | nil => exact ⟨s, .refl _ s, h, by simp, rfl⟩
  | cons c calls ih =>
    obtain ⟨t, hst, ht, hmade, hnames⟩ := h.batch [c] w
    obtain ⟨u, htu, hu, hmade', hnames'⟩ := ih ht
    refine ⟨u, hst.trans htu, hu, ?_, ?_⟩
    · rw [hmade', hmade, List.append_assoc]
      rfl
    · rw [hnames', hnames]
      rfl

theorem rest_init {conns : List Conn} (hconns : conns ≠ []) (db : Db) :
    (init N conns db).Rest hash [] where
  mutex := rfl
  done := rfl
  workers _ := rfl
  pushers := rfl
  deque := rfl
  conns := hconns
  nodup := List.nodup_nil
  old _ hq := nomatch hq
  unstarted _ hq := nomatch hq
  unused _ _ := rfl

theorem Rest.quiescent {s : Service N Conn} (h : s.Rest hash []) : s.Quiescent where
  returned := h.pushers
  empty := h.deque
  idle w := by simp [Worker.current, h.workers w, WorkerPc.busy]

/-- Whatever the workers do, the catalogue ends up as if the calls had been carried out one by
one, exactly when no name is both added and removed by them. -/
theorem catalogue_settles_iff (hash : Hash) (hN : 0 < N) {conns : List Conn} (hconns : conns ≠ [])
    (choice : Choice) (db : Db) (calls : List WatchCall) :
    (∀ as s, (serviceMachine N Conn hash).run (.init N conns db) as = some s → s.made = calls →
      s.Quiescent → s.db.songNames = (Service.oneByOne hash choice calls db).songNames) ↔
    BagOp.Separate (calls.map WatchCall.bagOp) := by
  rw [oneByOne_songNames]
  constructor
  · intro hsettles
    by_contra hsep
    obtain ⟨a, hadd, hremove⟩ : ∃ a, (∃ o ∈ calls.map WatchCall.bagOp, o.adds a) ∧
        ∃ o ∈ calls.map WatchCall.bagOp, o.removes a := by
      unfold BagOp.Separate at hsep
      push Not at hsep
      exact hsep
    obtain ⟨pre, suf, hops, hne⟩ := BagOp.exists_reversed_suffix_ne hadd hremove db.songNames
    obtain ⟨first, last, rfl, rfl, rfl⟩ := List.map_eq_append_iff.mp hops
    have hstart : (Service.init N conns db).Rest hash [] := rest_init hconns db
    obtain ⟨s, hs, hrest, hmade, hnames⟩ := hstart.oneByOne first ⟨0, hN⟩
    obtain ⟨t, ht, hrest', hmade', hnames'⟩ := hrest.batch last ⟨0, hN⟩
    obtain ⟨as, hrun⟩ := hs.trans ht
    have hall : t.made = first ++ last := by rw [hmade', hmade]; rfl
    refine hne ?_
    rw [← hsettles as t hrun hall hrest'.quiescent, hnames', hnames, List.map_reverse,
      BagOp.applyAll_append]
    rfl
  · intro hsep as s hrun hmade hquiescent
    have hs : s.Inv hash db := Machine.run_invariant (P := Inv hash db)
      (fun _ _ _ => inv_step) hrun (inv_init conns db)
    rw [← hmade] at hsep ⊢
    exact hs.settled hquiescent hsep

/-- A new file and the removal of another one, over an empty catalogue. -/
def addThenDelete (added deleted : SafeText) : List WatchCall :=
  [⟨⟨['f'], by decide⟩, .add, added⟩, ⟨⟨['f'], by decide⟩, .delete, deleted⟩]

theorem catalogue_settles_two_files :
    BagOp.Separate ((addThenDelete ⟨['a'], by decide⟩ ⟨['b'], by decide⟩).map WatchCall.bagOp) ∧
    ∀ as s, (serviceMachine 1 Nat fun _ => 0).run (.init 1 [7] ⟨[], .restart, [], .restart⟩) as =
        some s → s.made = addThenDelete ⟨['a'], by decide⟩ ⟨['b'], by decide⟩ → s.Quiescent →
      s.db.songNames = (Service.oneByOne (fun _ => 0) .plain
        (addThenDelete ⟨['a'], by decide⟩ ⟨['b'], by decide⟩) ⟨[], .restart, [], .restart⟩).songNames := by
  have hsep : BagOp.Separate
      ((addThenDelete ⟨['a'], by decide⟩ ⟨['b'], by decide⟩).map WatchCall.bagOp) := by
    intro a
    by_cases ha : a = ['a']
    · exact Or.inr (by simp [addThenDelete, WatchCall.bagOp, BagOp.removes, ha])
    · exact Or.inl (by simp [addThenDelete, WatchCall.bagOp, BagOp.adds, Ne.symm ha])
  exact ⟨hsep, (catalogue_settles_iff (fun _ => 0) (by decide) (by simp) .plain _ _).mpr hsep⟩

/-- A file that is created and deleted again: the deletion is at the front of the deque when the
worker comes to it, so that the row is inserted last and stays. -/
theorem deleted_file_stays_in_catalogue :
    ¬∀ as s, (serviceMachine 1 Nat fun _ => 0).run (.init 1 [7] ⟨[], .restart, [], .restart⟩) as =
        some s → s.made = addThenDelete ⟨['a'], by decide⟩ ⟨['a'], by decide⟩ → s.Quiescent →
      s.db.songNames = (Service.oneByOne (fun _ => 0) .plain
        (addThenDelete ⟨['a'], by decide⟩ ⟨['a'], by decide⟩) ⟨[], .restart, [], .restart⟩).songNames := by
  intro hsettles
  have hrest : (init 1 [7] ⟨[], .restart, [], .restart⟩).Rest (fun _ => 0) [] :=
    rest_init (by simp) _
  obtain ⟨s, ⟨as, hrun⟩, hs, hmade, hnames⟩ :=
    hrest.batch (addThenDelete ⟨['a'], by decide⟩ ⟨['a'], by decide⟩) 0
  have heq := hsettles as s hrun hmade hs.quiescent
  rw [hnames, oneByOne_songNames] at heq
  exact absurd (congrArg (Multiset.count ['a']) heq) (by decide)

end Service

end PetProject.DbModule
