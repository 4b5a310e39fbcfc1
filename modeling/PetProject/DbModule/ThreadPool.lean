import Mathlib.Data.Fintype.Basic
import Mathlib.Data.List.FinRange
import PetProject.Framework.Custody
import PetProject.Framework.Machine

/-!
# The thread pool

`thread_pool` with its mutex, its condition variable and the atomic flag `done`: the workers in
`worker_thread`, any number of threads in `push_task_back` and `push_task_front`, and the
destructor. A step is one access to shared state. The evaluation of the wait predicate and the
release of the mutex that blocks the worker are two steps, as the flag is not protected by the
mutex.
-/

namespace PetProject.DbModule

open Framework

/-- An entry of `taskDeque`; entries are numbered in the order in which they are pushed. -/
structure Task (β : Type) where
  id : Nat
  body : β
  deriving DecidableEq, Repr

inductive WorkerPc
  | whileTest
  | lock
  | waitTest
  | block
  | waiting (notified : Bool)
  | doneTest
  | pullTask
  | unlock
  | callTask
  | running
  | leave
  | exited
  deriving DecidableEq, Repr

def WorkerPc.inside : WorkerPc → Bool
  | .waitTest | .block | .doneTest | .pullTask | .unlock | .leave => true
  | _ => false

/-- The worker is blocked in `data_cond.wait`, whether or not it has been woken. -/
def WorkerPc.blocked : WorkerPc → Bool
  | .waiting _ => true
  | _ => false

/-- The effect of `notify_all`. -/
def WorkerPc.wake : WorkerPc → WorkerPc
  | .waiting _ => .waiting true
  | pc => pc

/-- The `function_wrapper` of the worker holds a task that it has not finished. -/
def WorkerPc.busy : WorkerPc → Bool
  | .unlock | .callTask | .running => true
  | _ => false

@[simp] theorem WorkerPc.wake_inside (pc : WorkerPc) : pc.wake.inside = pc.inside := by
  cases pc <;> rfl

@[simp] theorem WorkerPc.wake_busy (pc : WorkerPc) : pc.wake.busy = pc.busy := by
  cases pc <;> rfl

/-- A worker and its only local variable, which keeps its value from one round of the loop to
the next. -/
structure Worker (β : Type) where
  pc : WorkerPc
  task : Option (Task β)
  deriving DecidableEq, Repr

def Worker.current {β : Type} (u : Worker β) : Option Nat :=
  if u.pc.busy then u.task.map Task.id else none

inductive PusherPc (β : Type)
  | idle
  | lock (front : Bool) (body : β)
  | enqueue (front : Bool) (body : β)
  | unlock
  | notify
  deriving DecidableEq, Repr

def PusherPc.inside {β : Type} : PusherPc β → Bool
  | .enqueue _ _ | .unlock => true
  | _ => false

/-- The task is in the deque and its `notify_one` has not been issued. -/
def PusherPc.notifying {β : Type} : PusherPc β → Bool
  | .unlock | .notify => true
  | _ => false

/-- A push that has been called and whose task is not yet in the deque. -/
def PusherPc.pending {β : Type} : PusherPc β → List (Bool × β)
  | .lock front body | .enqueue front body => [(front, body)]
  | _ => []

/-- The next step of the destructor; `join k` waits for the worker number `k`. -/
inductive DestructorPc
  | storeDone
  | notifyAll
  | join (k : Nat)
  | returned
  deriving DecidableEq, Repr

/-- The destructor has executed `notify_all`. -/
def DestructorPc.notified : DestructorPc → Bool
  | .join _ | .returned => true
  | _ => false

/-- The pool with the histories of its tasks: what was pushed, and the numbers of the tasks that
were pulled, called and finished, each in order. -/
structure ThreadPool (N : Nat) (π β : Type) where
  mutex : Option (Fin N ⊕ π)
  done : Bool
  taskDeque : List (Task β)
  workers : Fin N → Worker β
  pushers : π → PusherPc β
  destructor : DestructorPc
  pushed : List (Bool × β)
  pulled : List Nat
  calls : List Nat
  finished : List Nat

inductive PoolStep (N : Nat) (π β : Type)
  | worker (w : Fin N)
  | spurious (w : Fin N)
  | startPush (p : π) (front : Bool) (body : β)
  | pusher (p : π)
  | notifyOne (p : π) (w : Option (Fin N))
  | destroy

namespace ThreadPool

variable {N : Nat} {π β : Type}

def init (N : Nat) (π β : Type) : ThreadPool N π β where
  mutex := none
  done := false
  taskDeque := []
  workers _ := ⟨.whileTest, none⟩
  pushers _ := .idle
  destructor := .storeDone
  pushed := []
  pulled := []
  calls := []
  finished := []

def setPc (s : ThreadPool N π β) (w : Fin N) (pc : WorkerPc) : ThreadPool N π β :=
  { s with workers := Function.update s.workers w { s.workers w with pc := pc } }

def wakeAll (s : ThreadPool N π β) : ThreadPool N π β :=
  { s with workers := fun w => ⟨(s.workers w).pc.wake, (s.workers w).task⟩ }

@[simp] theorem wakeAll_pc (s : ThreadPool N π β) (w : Fin N) :
    (s.wakeAll.workers w).pc = (s.workers w).pc.wake := rfl

@[simp] theorem wakeAll_task (s : ThreadPool N π β) (w : Fin N) :
    (s.wakeAll.workers w).task = (s.workers w).task := rfl

@[simp] theorem setPc_pc_self (s : ThreadPool N π β) (w : Fin N) (pc : WorkerPc) :
    ((s.setPc w pc).workers w).pc = pc := by
  simp [setPc]

@[simp] theorem setPc_task (s : ThreadPool N π β) (w v : Fin N) (pc : WorkerPc) :
    ((s.setPc w pc).workers v).task = (s.workers v).task := by
  by_cases hvw : v = w
  · subst hvw; simp [setPc]
  · simp [setPc, hvw]

theorem setPc_pc_of_ne (s : ThreadPool N π β) {w v : Fin N} (h : v ≠ w) (pc : WorkerPc) :
    ((s.setPc w pc).workers v).pc = (s.workers v).pc := by
  simp [setPc, h]

variable [DecidableEq π]

def setPusher (s : ThreadPool N π β) (p : π) (pc : PusherPc β) : ThreadPool N π β :=
  { s with pushers := Function.update s.pushers p pc }

/-- The next step of a worker. `data_cond.wait` tests its predicate with the mutex held, and
tests it again whenever the worker has been woken. -/
def workerStep (s : ThreadPool N π β) (w : Fin N) : Option (ThreadPool N π β) :=
  match (s.workers w).pc with
  | .whileTest => some (s.setPc w (if s.done then .exited else .lock))
  | .lock | .waiting true =>
    if s.mutex.isNone then some (setPc { s with mutex := some (.inl w) } w .waitTest) else none
  | .waitTest =>
    some (s.setPc w (if !s.taskDeque.isEmpty || s.done then .doneTest else .block))
  | .block => some (setPc { s with mutex := none } w (.waiting false))
  | .waiting false => none
  | .doneTest => some (s.setPc w (if s.done then .leave else .pullTask))
  | .pullTask =>
    match s.taskDeque with
    | [] => none
    | t :: ts =>
      some { s with taskDeque := ts, pulled := s.pulled ++ [t.id],
                    workers := Function.update s.workers w ⟨.unlock, some t⟩ }
  | .unlock => some (setPc { s with mutex := none } w .callTask)
  | .callTask =>
    (s.workers w).task.map fun t => setPc { s with calls := s.calls ++ [t.id] } w .running
  | .running =>
    (s.workers w).task.map fun t => setPc { s with finished := s.finished ++ [t.id] } w .whileTest
  | .leave => some (setPc { s with mutex := none } w .exited)
  | .exited => none

def enqueue (s : ThreadPool N π β) (front : Bool) (body : β) : ThreadPool N π β :=
  let t : Task β := ⟨s.pushed.length, body⟩
  { s with taskDeque := if front then t :: s.taskDeque else s.taskDeque ++ [t],
           pushed := s.pushed ++ [(front, body)] }

def pusherStep (s : ThreadPool N π β) (p : π) : Option (ThreadPool N π β) :=
  match s.pushers p with
  | .lock front body =>
    if s.mutex.isNone then
      some (setPusher { s with mutex := some (.inr p) } p (.enqueue front body))
    else none
  | .enqueue front body => some ((s.enqueue front body).setPusher p .unlock)
  | .unlock => some (setPusher { s with mutex := none } p .notify)
  | _ => none

def destructorStep (s : ThreadPool N π β) : Option (ThreadPool N π β) :=
  match s.destructor with
  | .storeDone => some { s with done := true, destructor := .notifyAll }
  | .notifyAll =>
    some { s.wakeAll with destructor := .join 0 }
  | .join k =>
    if hk : k < N then
      if (s.workers ⟨k, hk⟩).pc = .exited then some { s with destructor := .join (k + 1) } else none
    else some { s with destructor := .returned }
  | .returned => none

/-- One step of one thread. `notify_one` wakes a blocked worker of the system's choice, and none
only if no worker is blocked. -/
def step (s : ThreadPool N π β) : PoolStep N π β → Option (ThreadPool N π β)
  | .worker w => s.workerStep w
  | .spurious w =>
    if (s.workers w).pc = .waiting false then some (s.setPc w (.waiting true)) else none
  | .startPush p front body =>
    match s.pushers p with
    | .idle => some (s.setPusher p (.lock front body))
    | _ => none
  | .pusher p => s.pusherStep p
  | .notifyOne p w =>
    match s.pushers p, w with
    | .notify, some w =>
      if (s.workers w).pc = .waiting false then
        some ((s.setPc w (.waiting true)).setPusher p .idle)
      else none
    | .notify, none =>
      if ∀ w, (s.workers w).pc ≠ .waiting false then some (s.setPusher p .idle) else none
    | _, _ => none
  | .destroy => s.destructorStep

/-- The enabled steps, one rule for each way in which a thread can go on. -/
inductive Fires (s : ThreadPool N π β) : PoolStep N π β → ThreadPool N π β → Prop
  | whileTest (w : Fin N) (hpc : (s.workers w).pc = .whileTest) :
      Fires s (.worker w) (s.setPc w (if s.done then .exited else .lock))
  | lock (w : Fin N) (hpc : (s.workers w).pc = .lock ∨ (s.workers w).pc = .waiting true)
      (hfree : s.mutex = none) :
      Fires s (.worker w) (setPc { s with mutex := some (.inl w) } w .waitTest)
  | ready (w : Fin N) (hpc : (s.workers w).pc = .waitTest)
      (htest : s.taskDeque ≠ [] ∨ s.done = true) :
      Fires s (.worker w) (s.setPc w .doneTest)
  | notReady (w : Fin N) (hpc : (s.workers w).pc = .waitTest) (hempty : s.taskDeque = [])
      (hdone : s.done = false) :
      Fires s (.worker w) (s.setPc w .block)
  | block (w : Fin N) (hpc : (s.workers w).pc = .block) :
      Fires s (.worker w) (setPc { s with mutex := none } w (.waiting false))
  | doneTest (w : Fin N) (hpc : (s.workers w).pc = .doneTest) :
      Fires s (.worker w) (s.setPc w (if s.done then .leave else .pullTask))
  | pullTask (w : Fin N) (t : Task β) (ts : List (Task β)) (hpc : (s.workers w).pc = .pullTask)
      (hdeque : s.taskDeque = t :: ts) :
      Fires s (.worker w)
        { s with taskDeque := ts, pulled := s.pulled ++ [t.id],
                 workers := Function.update s.workers w ⟨.unlock, some t⟩ }
  | unlock (w : Fin N) (hpc : (s.workers w).pc = .unlock) :
      Fires s (.worker w) (setPc { s with mutex := none } w .callTask)
  | callTask (w : Fin N) (t : Task β) (hpc : (s.workers w).pc = .callTask)
      (htask : (s.workers w).task = some t) :
      Fires s (.worker w) (setPc { s with calls := s.calls ++ [t.id] } w .running)
  | finish (w : Fin N) (t : Task β) (hpc : (s.workers w).pc = .running)
      (htask : (s.workers w).task = some t) :
      Fires s (.worker w) (setPc { s with finished := s.finished ++ [t.id] } w .whileTest)
  | leave (w : Fin N) (hpc : (s.workers w).pc = .leave) :
      Fires s (.worker w) (setPc { s with mutex := none } w .exited)
  | spurious (w : Fin N) (hpc : (s.workers w).pc = .waiting false) :
      Fires s (.spurious w) (s.setPc w (.waiting true))
  | startPush (p : π) (front : Bool) (body : β) (hpc : s.pushers p = .idle) :
      Fires s (.startPush p front body) (s.setPusher p (.lock front body))
  | pushLock (p : π) (front : Bool) (body : β) (hpc : s.pushers p = .lock front body)
      (hfree : s.mutex = none) :
      Fires s (.pusher p) (setPusher { s with mutex := some (.inr p) } p (.enqueue front body))
  | enqueue (p : π) (front : Bool) (body : β) (hpc : s.pushers p = .enqueue front body) :
      Fires s (.pusher p) ((s.enqueue front body).setPusher p .unlock)
  | pushUnlock (p : π) (hpc : s.pushers p = .unlock) :
      Fires s (.pusher p) (setPusher { s with mutex := none } p .notify)
  | notifyOne (p : π) (w : Fin N) (hpc : s.pushers p = .notify)
      (hw : (s.workers w).pc = .waiting false) :
      Fires s (.notifyOne p (some w)) ((s.setPc w (.waiting true)).setPusher p .idle)
  | notifyNobody (p : π) (hpc : s.pushers p = .notify)
      (hnobody : ∀ w, (s.workers w).pc ≠ .waiting false) :
      Fires s (.notifyOne p none) (s.setPusher p .idle)
  | storeDone (hpc : s.destructor = .storeDone) :
      Fires s .destroy { s with done := true, destructor := .notifyAll }
  | notifyAll (hpc : s.destructor = .notifyAll) :
      Fires s .destroy { s.wakeAll with destructor := .join 0 }
  | join (k : Nat) (hpc : s.destructor = .join k) (hk : k < N)
      (hexited : (s.workers ⟨k, hk⟩).pc = .exited) :
      Fires s .destroy { s with destructor := .join (k + 1) }
  | joined (k : Nat) (hpc : s.destructor = .join k) (hk : ¬k < N) :
      Fires s .destroy { s with destructor := .returned }

private theorem fires_worker {s t : ThreadPool N π β} {w : Fin N} (h : s.workerStep w = some t) :
    s.Fires (.worker w) t := by
  unfold workerStep at h
  cases hpc : (s.workers w).pc with
  | whileTest => rw [hpc] at h; exact Option.some.inj h ▸ .whileTest w hpc
  | lock =>
    simp only [hpc, Option.isNone_iff_eq_none] at h
    split at h
    case isTrue hfree => exact Option.some.inj h ▸ .lock w (Or.inl hpc) hfree
    case isFalse => exact nomatch h
  | waiting notified =>
    cases notified with
    | true =>
      simp only [hpc, Option.isNone_iff_eq_none] at h
      split at h
      case isTrue hfree => exact Option.some.inj h ▸ .lock w (Or.inr hpc) hfree
      case isFalse => exact nomatch h
    | false => rw [hpc] at h; exact nomatch h
  | waitTest =>
    rw [hpc] at h
    dsimp only at h
    split at h
    case isTrue htest =>
      refine Option.some.inj h ▸ .ready w hpc ?_
      simpa using htest
    case isFalse htest =>
      have htest : s.taskDeque = [] ∧ s.done = false := by simpa using htest
      exact Option.some.inj h ▸ .notReady w hpc htest.1 htest.2
  | block => rw [hpc] at h; exact Option.some.inj h ▸ .block w hpc
  | doneTest => rw [hpc] at h; exact Option.some.inj h ▸ .doneTest w hpc
  | pullTask =>
    cases hdeque : s.taskDeque with
    | nil => simp [hpc, hdeque] at h
    | cons u us =>
      simp only [hpc, hdeque] at h
      exact Option.some.inj h ▸ .pullTask w u us hpc hdeque
  | unlock => rw [hpc] at h; exact Option.some.inj h ▸ .unlock w hpc
  | callTask =>
    rw [hpc] at h
    obtain ⟨u, htask, rfl⟩ := Option.map_eq_some_iff.mp h
    exact .callTask w u hpc htask
  | running =>
    rw [hpc] at h
    obtain ⟨u, htask, rfl⟩ := Option.map_eq_some_iff.mp h
    exact .finish w u hpc htask
  | leave => rw [hpc] at h; exact Option.some.inj h ▸ .leave w hpc
  | exited => rw [hpc] at h; exact nomatch h

private theorem fires_pusher {s t : ThreadPool N π β} {p : π} (h : s.pusherStep p = some t) :
    s.Fires (.pusher p) t := by
  unfold pusherStep at h
  cases hpc : s.pushers p with
  | idle => rw [hpc] at h; exact nomatch h
  | lock front body =>
    simp only [hpc, Option.isNone_iff_eq_none] at h
    split at h
    case isTrue hfree => exact Option.some.inj h ▸ .pushLock p front body hpc hfree
    case isFalse => exact nomatch h
  | enqueue front body => rw [hpc] at h; exact Option.some.inj h ▸ .enqueue p front body hpc
  | unlock => rw [hpc] at h; exact Option.some.inj h ▸ .pushUnlock p hpc
  | notify => rw [hpc] at h; exact nomatch h

private theorem fires_destructor {s t : ThreadPool N π β} (h : s.destructorStep = some t) :
    s.Fires .destroy t := by
  unfold destructorStep at h
  cases hpc : s.destructor with
  | storeDone => rw [hpc] at h; exact Option.some.inj h ▸ .storeDone hpc
  | notifyAll => rw [hpc] at h; exact Option.some.inj h ▸ .notifyAll hpc
  | join k =>
    rw [hpc] at h
    dsimp only at h
    split at h
    case isTrue hk =>
      split at h
      case isTrue hexited => exact Option.some.inj h ▸ .join k hpc hk hexited
      case isFalse => exact nomatch h
    case isFalse hk => exact Option.some.inj h ▸ .joined k hpc hk
  | returned => rw [hpc] at h; exact nomatch h

theorem fires {s t : ThreadPool N π β} {a : PoolStep N π β} (h : s.step a = some t) :
    s.Fires a t := by
  cases a with
  | worker w => exact fires_worker h
  | pusher p => exact fires_pusher h
  | destroy => exact fires_destructor h
  | spurious w =>
    unfold step at h
    dsimp only at h
    split at h
    case isTrue hpc => exact Option.some.inj h ▸ .spurious w hpc
    case isFalse => exact nomatch h
  | startPush p front body =>
    unfold step at h
    cases hpc : s.pushers p with
    | idle =>
      simp only [hpc] at h
      exact Option.some.inj h ▸ .startPush p front body hpc
    | _ => simp [hpc] at h
  | notifyOne p w =>
    unfold step at h
    dsimp only at h
    cases hpc : s.pushers p with
    | notify =>
      cases w with
      | some w =>
        simp only [hpc] at h
        split at h
        case isTrue hw => exact Option.some.inj h ▸ .notifyOne p w hpc hw
        case isFalse => exact nomatch h
      | none =>
        simp only [hpc] at h
        split at h
        case isTrue hnobody => exact Option.some.inj h ▸ .notifyNobody p hpc hnobody
        case isFalse => exact nomatch h
    | _ => simp [hpc] at h

/-! ## The mutex -/

/-- A thread stands between taking the mutex and releasing it. -/
def Inside (s : ThreadPool N π β) : Fin N ⊕ π → Prop
  | .inl w => (s.workers w).pc.inside
  | .inr p => (s.pushers p).inside

omit [DecidableEq π] in
private theorem inside_setPc {s : ThreadPool N π β} {w : Fin N} {pc : WorkerPc} {x : Fin N ⊕ π}
    (hpc : x = .inl w → pc.inside → (s.workers w).pc.inside) (h : (s.setPc w pc).Inside x) :
    s.Inside x := by
  cases x with
  | inr p => exact h
  | inl v =>
    by_cases hvw : v = w
    · subst hvw
      exact hpc rfl (by simpa [Inside] using h)
    · simpa [Inside, setPc_pc_of_ne s hvw] using h

private theorem inside_setPusher {s : ThreadPool N π β} {p : π} {pc : PusherPc β}
    {x : Fin N ⊕ π} (hpc : x = .inr p → pc.inside → (s.pushers p).inside)
    (h : (s.setPusher p pc).Inside x) : s.Inside x := by
  cases x with
  | inl w => exact h
  | inr q =>
    by_cases hqp : q = p
    · subst hqp
      exact hpc rfl (by simpa [Inside, setPusher] using h)
    · simpa [Inside, setPusher, hqp] using h

/-- Mutual exclusion: at most one thread is inside, and it owns the mutex. -/
theorem owned_step {s t : ThreadPool N π β} {a : PoolStep N π β} (h : s.step a = some t)
    (hs : Owned s.mutex s.Inside) : Owned t.mutex t.Inside := by
  cases fires h with
  | whileTest w hpc | ready w hpc htest | notReady w hpc hempty hdone | doneTest w hpc =>
    refine hs.keep fun x => inside_setPc fun _ => ?_
    rw [hpc]
    try split
    all_goals simp [WorkerPc.inside]
  | callTask w u hpc htask | finish w u hpc htask | spurious w hpc =>
    refine hs.keep fun x => inside_setPc fun _ => ?_
    simp [hpc, WorkerPc.inside]
  | lock w hpc hfree =>
    refine Owned.acquire (hfree ▸ hs) fun x hx => inside_setPc fun hxw => absurd hxw hx
  | block w hpc | unlock w hpc | leave w hpc =>
    refine hs.release (x := .inl w) (by simp [Inside, hpc, WorkerPc.inside])
      (by simp [Inside, WorkerPc.inside]) fun x hx => inside_setPc fun hxw => absurd hxw hx
  | pullTask w u us hpc hdeque =>
    refine hs.keep fun x hx => ?_
    cases x with
    | inr p => exact hx
    | inl v =>
      by_cases hvw : v = w
      · subst hvw
        simp [Inside, hpc, WorkerPc.inside]
      · simpa [Inside, hvw] using hx
  | startPush p front body hpc => 
    refine hs.keep fun x => inside_setPusher fun _ => ?_
    simp [PusherPc.inside]
  | notifyNobody p hpc hnobody =>
    refine hs.keep fun x => inside_setPusher fun _ => ?_
    simp [PusherPc.inside]
  | enqueue p front body hpc =>
    refine hs.keep fun x => inside_setPusher fun _ => ?_
    simp [ThreadPool.enqueue, hpc, PusherPc.inside]
  | pushLock p front body hpc hfree =>
    exact Owned.acquire (hfree ▸ hs) fun x hx => inside_setPusher fun hxp => absurd hxp hx
  | pushUnlock p hpc => 
    refine hs.release (x := .inr p) (by simp [Inside, hpc, PusherPc.inside])
      (by simp [Inside, setPusher, PusherPc.inside]) fun x hx => inside_setPusher fun hxp => absurd hxp hx
  | notifyOne p w hpc hw =>
    refine hs.keep fun x hx => ?_
    have hx := inside_setPusher (fun _ => by simp [PusherPc.inside]) hx
    exact inside_setPc (fun _ => by simp [WorkerPc.inside]) hx
  | storeDone | join | joined => exact hs
  | notifyAll hpc =>
    refine hs.keep fun x hx => ?_
    cases x with
    | inr p => exact hx
    | inl w =>
      simpa [Inside] using hx

end ThreadPool

def poolMachine (N : Nat) (π β : Type) [DecidableEq π] :
    Machine (ThreadPool N π β) (PoolStep N π β) := ⟨ThreadPool.step⟩

end PetProject.DbModule
