import Mathlib.Algebra.Order.BigOperators.Group.Finset
import PetProject.DbModule.ExecCommand
import PetProject.DbModule.Wakeup
import PetProject.Framework.Custody
import PetProject.Framework.Progress

/-!
# Commands come to an end

As long as the pools are not shut down and a connection is left, every command that has been queued
is executed after a bounded number of useful steps: no thread waits for another one in a circle, and
a worker that holds a connection can always go on.
-/

namespace PetProject.DbModule

open Framework Database Handler

/-! ## The threads -/

namespace ThreadPool

variable {N : Nat} {π β : Type}

/-- What lets the threads of a pool go on. -/
structure Lively (s : ThreadPool N π β) : Prop where
  holder : ∀ x, s.mutex = some x → s.Inside x
  ready : ∀ w, (s.workers w).pc = .doneTest ∨ (s.workers w).pc = .pullTask →
    s.taskDeque ≠ [] ∨ s.done = true
  equipped : ∀ w, (s.workers w).pc.busy = true → (s.workers w).task ≠ none

private theorem lively_init : (init N π β).Lively where
  holder _ h := by cases h
  ready w h := by simp [init] at h
  equipped w h := by simp [init, WorkerPc.busy] at h

variable [DecidableEq π]

private theorem holder_step {s t : ThreadPool N π β} {a : PoolStep N π β} (h : s.step a = some t)
    (hs : ∀ x, s.mutex = some x → s.Inside x) : ∀ x, t.mutex = some x → t.Inside x := by
  intro x hx
  have hworker : ∀ {w : Fin N} {pc : WorkerPc}, s.mutex = some x →
      ((s.workers w).pc.inside = true → pc.inside = true) → (s.setPc w pc).Inside x := by
    intro w pc hmutex hpc
    have hinside := hs x hmutex
    cases x with
    | inr p => exact hinside
    | inl v =>
      by_cases hvw : v = w
      · subst hvw
        simpa [Inside] using hpc hinside
      · simpa [Inside, setPc_pc_of_ne s hvw] using hinside
  have hpusher : ∀ {u : ThreadPool N π β} {p : π} {pc : PusherPc β}, u.Inside x →
      ((u.pushers p).inside = true → pc.inside = true) → (u.setPusher p pc).Inside x := by
    intro u p pc hinside hpc
    cases x with
    | inl w => exact hinside
    | inr q =>
      by_cases hqp : q = p
      · subst hqp
        simpa [Inside, setPusher] using hpc hinside
      · simpa [Inside, setPusher, hqp] using hinside
  cases fires h with
  | ready | notReady => exact hworker hx fun _ => rfl
  | doneTest w hpc =>
    refine hworker hx fun _ => ?_
    split <;> rfl
  | whileTest w hpc | callTask w u hpc htask | finish w u hpc htask | spurious w hpc =>
    refine hworker hx fun hinside => ?_
    rw [hpc] at hinside
    cases hinside
  | lock w hpc hfree =>
    obtain rfl := Option.some.inj hx
    simp [Inside, WorkerPc.inside]
  | block w hpc | unlock w hpc | leave w hpc | pushUnlock p hpc => cases hx
  | pullTask w u us hpc hdeque =>
    have hinside := hs x hx
    cases x with
    | inr p => exact hinside
    | inl v =>
      by_cases hvw : v = w
      · subst hvw
        simp [Inside, WorkerPc.inside]
      · simpa [Inside, hvw] using hinside
  | startPush p front body hpc =>
    refine hpusher (hs x hx) fun hinside => ?_
    rw [hpc] at hinside
    cases hinside
  | enqueue p front body hpc => exact hpusher (u := s.enqueue front body) (hs x hx) fun _ => rfl
  | pushLock p front body hpc hfree =>
    obtain rfl := Option.some.inj hx
    simp [Inside, setPusher, PusherPc.inside]
  | notifyOne p w hpc hw =>
    refine hpusher (hworker hx fun hinside => ?_) fun hinside => ?_
    · rw [hw] at hinside
      cases hinside
    · have hinside : (s.pushers p).inside = true := hinside
      rw [hpc] at hinside
      cases hinside
  | notifyNobody p hpc hnobody =>
    refine hpusher (hs x hx) fun hinside => ?_
    rw [hpc] at hinside
    cases hinside
  | storeDone | join | joined => exact hs x hx
  | notifyAll hpc =>
    have hinside := hs x hx
    cases x with
    | inr p => exact hinside
    | inl w => simpa [Inside] using hinside

private theorem ready_step {s t : ThreadPool N π β} {a : PoolStep N π β} (h : s.step a = some t)
    (howned : Owned s.mutex s.Inside) (hs : s.Lively) : ∀ w,
    (t.workers w).pc = .doneTest ∨ (t.workers w).pc = .pullTask →
      t.taskDeque ≠ [] ∨ t.done = true := by
  intro v hv
  have hold : ∀ {w : Fin N} {pc : WorkerPc}, pc ≠ .doneTest → pc ≠ .pullTask →
      ((s.setPc w pc).workers v).pc = .doneTest ∨ ((s.setPc w pc).workers v).pc = .pullTask →
      s.taskDeque ≠ [] ∨ s.done = true := by
    intro w pc hdone hpull hv
    by_cases hvw : v = w
    · subst hvw
      rw [setPc_pc_self] at hv
      exact absurd hv (not_or.mpr ⟨hdone, hpull⟩)
    · rw [setPc_pc_of_ne s hvw] at hv
      exact hs.ready v hv
  cases fires h with
  | whileTest w hpc =>
    by_cases hdone : s.done = true
    · exact Or.inr hdone
    · rw [if_neg hdone] at hv
      exact hold (by simp) (by simp) hv
  | ready w hpc htest => exact htest
  | doneTest w hpc =>
    by_cases hdone : s.done = true
    · exact Or.inr hdone
    · exact hs.ready w (Or.inl hpc)
  | lock | notReady | block | unlock | callTask | finish | leave | spurious | notifyOne =>
    exact hold (by simp) (by simp) hv
  | pullTask w u us hpc hdeque =>
    by_cases hvw : v = w
    · subst hvw
      simp at hv
    · have hv : (s.workers v).pc = .doneTest ∨ (s.workers v).pc = .pullTask := by
        simpa [hvw] using hv
      have hinside : s.Inside (.inl v) := by
        rcases hv with hv | hv <;> simp [Inside, hv, WorkerPc.inside]
      have hw : s.Inside (.inl w) := by simp [Inside, hpc, WorkerPc.inside]
      exact absurd (Sum.inl.inj (howned.unique hinside hw)) hvw
  | enqueue p front body hpc =>
    refine Or.inl ?_
    cases front <;> simp [ThreadPool.enqueue, setPusher]
  | startPush | pushLock | pushUnlock | notifyNobody | join | joined => exact hs.ready v hv
  | storeDone => exact Or.inr rfl
  | notifyAll hpc =>
    refine hs.ready v ?_
    have hv : (s.workers v).pc.wake = .doneTest ∨ (s.workers v).pc.wake = .pullTask := hv
    cases hpc : (s.workers v).pc <;> simp_all [WorkerPc.wake]

private theorem equipped_step {s t : ThreadPool N π β} {a : PoolStep N π β}
    (h : s.step a = some t) (hs : ∀ w, (s.workers w).pc.busy = true → (s.workers w).task ≠ none) :
    ∀ w, (t.workers w).pc.busy = true → (t.workers w).task ≠ none := by
  intro v hv
  have hold : ∀ {w : Fin N} {pc : WorkerPc}, (pc.busy = true → (s.workers w).pc.busy = true) →
      ((s.setPc w pc).workers v).pc.busy = true → ((s.setPc w pc).workers v).task ≠ none := by
    intro w pc hpc hv
    rw [setPc_task]
    by_cases hvw : v = w
    · subst hvw
      rw [setPc_pc_self] at hv
      exact hs v (hpc hv)
    · rw [setPc_pc_of_ne s hvw] at hv
      exact hs v hv
  cases fires h with
  | whileTest w hpc | doneTest w hpc =>
    refine hold (fun hbusy => ?_) hv
    split at hbusy <;> cases hbusy
  | lock | ready | notReady | block | finish | leave | spurious | notifyOne =>
    exact hold (fun hbusy => by cases hbusy) hv
  | unlock w hpc | callTask w u hpc htask =>
    refine hold (fun _ => ?_) hv
    rw [hpc]
    rfl
  | pullTask w u us hpc hdeque =>
    by_cases hvw : v = w
    · subst hvw
      simp
    · simpa [hvw] using hs v (by simpa [hvw] using hv)
  | startPush | pushLock | enqueue | pushUnlock | notifyNobody | storeDone | join | joined =>
    exact hs v hv
  | notifyAll hpc => exact hs v (by simpa using hv)

private theorem lively_step {s t : ThreadPool N π β} {a : PoolStep N π β} (h : s.step a = some t)
    (howned : Owned s.mutex s.Inside) (hs : s.Lively) : t.Lively where
  holder := holder_step h hs.holder
  ready := ready_step h howned hs
  equipped := equipped_step h hs.equipped

/-- The threads have gone as far as they can without running a task: every worker runs one or is
asleep, and nobody pushes. -/
def Settled (s : ThreadPool N π β) : Prop :=
  (∀ w, (s.workers w).pc = .running ∨ (s.workers w).pc = .waiting false) ∧
    ∀ p, s.pushers p = .idle

private theorem inside_goes_on {s : ThreadPool N π β} (hs : s.Lively) (hdone : s.done = false)
    {w : Fin N} (hinside : (s.workers w).pc.inside = true) :
    (s.workers w).pc ≠ .running ∧ ∃ t, s.step (.worker w) = some t := by
  change _ ∧ ∃ t, s.workerStep w = some t
  unfold workerStep
  cases hpc : (s.workers w).pc with
  | pullTask =>
    obtain ⟨u, us, hdeque⟩ := List.exists_cons_of_ne_nil
      ((hs.ready w (Or.inr hpc)).resolve_right (by simp [hdone]))
    rw [hdeque]
    exact ⟨by simp, _, rfl⟩
  | waitTest | block | doneTest | unlock | leave => exact ⟨by simp, _, rfl⟩
  | _ =>
    rw [hpc] at hinside
    cases hinside

private theorem pusher_goes_on {s : ThreadPool N π β} (hfree : s.mutex = none) {p : π}
    (hp : s.pushers p ≠ .idle) :
    (∃ t, s.step (.pusher p) = some t) ∨ ∃ w t, s.step (.notifyOne p w) = some t := by
  cases hpc : s.pushers p with
  | idle => exact absurd hpc hp
  | lock front body =>
    refine Or.inl ⟨setPusher { s with mutex := some (.inr p) } p (.enqueue front body), ?_⟩
    simp [step, pusherStep, hpc, hfree]
  | enqueue front body => exact Or.inl ⟨_, by rw [step, pusherStep, hpc]⟩
  | unlock => exact Or.inl ⟨_, by rw [step, pusherStep, hpc]⟩
  | notify =>
    by_cases hasleep : ∃ w, (s.workers w).pc = .waiting false
    · obtain ⟨w, hw⟩ := hasleep
      refine Or.inr ⟨some w, (s.setPc w (.waiting true)).setPusher p .idle, ?_⟩
      simp [step, hpc, hw]
    · refine Or.inr ⟨none, s.setPusher p .idle, ?_⟩
      simp only [not_exists] at hasleep
      simp [step, hpc, hasleep]

private theorem worker_goes_on {s : ThreadPool N π β} (halert : s.Alert) (hs : s.Lively)
    (hlooping : ∀ w, (s.workers w).pc ≠ .leave ∧ (s.workers w).pc ≠ .exited)
    (hfree : s.mutex = none) {w : Fin N} (hrunning : (s.workers w).pc ≠ .running)
    (hasleep : (s.workers w).pc ≠ .waiting false) : ∃ t, s.step (.worker w) = some t := by
  have houtside : (s.workers w).pc.inside = false := by
    by_contra hinside
    have hmutex := halert.owned (.inl w) (by simpa [Inside] using hinside)
    rw [hfree] at hmutex
    cases hmutex
  change ∃ t, s.workerStep w = some t
  unfold workerStep
  cases hpc : (s.workers w).pc with
  | whileTest => exact ⟨_, rfl⟩
  | lock => simp [hfree]
  | waiting notified =>
    cases notified with
    | true => simp [hfree]
    | false => exact absurd hpc hasleep
  | callTask =>
    obtain ⟨u, hu⟩ := Option.ne_none_iff_exists'.mp (hs.equipped w (by rw [hpc]; rfl))
    exact ⟨_, by rw [hu]; rfl⟩
  | running => exact absurd hpc hrunning
  | exited => exact absurd hpc (hlooping w).2
  | _ =>
    rw [hpc] at houtside
    cases houtside

private theorem goes_on {s : ThreadPool N π β} (halert : s.Alert) (hs : s.Lively)
    (hlooping : ∀ w, (s.workers w).pc ≠ .leave ∧ (s.workers w).pc ≠ .exited)
    (hdone : s.done = false) :
    (∃ w t, (s.workers w).pc ≠ .running ∧ s.step (.worker w) = some t) ∨
      (∃ p t, s.step (.pusher p) = some t) ∨ (∃ p w t, s.step (.notifyOne p w) = some t) ∨
        s.Settled := by
  cases hmutex : s.mutex with
  | some x =>
    have hinside := hs.holder x hmutex
    cases x with
    | inl w =>
      obtain ⟨hrunning, t, ht⟩ := inside_goes_on hs hdone hinside
      exact Or.inl ⟨w, t, hrunning, ht⟩
    | inr p =>
      have hinside : (s.pushers p).inside = true := hinside
      refine Or.inr (Or.inl ⟨p, ?_⟩)
      cases hpc : s.pushers p with
      | enqueue front body => exact ⟨_, by rw [step, pusherStep, hpc]⟩
      | unlock => exact ⟨_, by rw [step, pusherStep, hpc]⟩
      | _ =>
        rw [hpc] at hinside
        cases hinside
  | none =>
    by_cases hidle : ∀ p, s.pushers p = .idle
    · by_cases hrest : ∀ w, (s.workers w).pc = .running ∨ (s.workers w).pc = .waiting false
      · exact Or.inr (Or.inr (Or.inr ⟨hrest, hidle⟩))
      · obtain ⟨w, hw⟩ := not_forall.mp hrest
        obtain ⟨hrunning, hasleep⟩ := not_or.mp hw
        obtain ⟨t, ht⟩ := worker_goes_on halert hs hlooping hmutex hrunning hasleep
        exact Or.inl ⟨w, t, hrunning, ht⟩
    · obtain ⟨p, hp⟩ := not_forall.mp hidle
      rcases pusher_goes_on hmutex hp with ⟨t, ht⟩ | ⟨w, t, ht⟩
      · exact Or.inr (Or.inl ⟨p, t, ht⟩)
      · exact Or.inr (Or.inr (Or.inl ⟨p, w, t, ht⟩))

private theorem running_step {s t : ThreadPool N π β} {a : PoolStep N π β} (h : s.step a = some t)
    {w : Fin N} (hw : (s.workers w).pc = .running) (ha : a ≠ .worker w) :
    (t.workers w).pc = .running ∧ (t.workers w).task = (s.workers w).task := by
  have hold : ∀ {v : Fin N} {pc : WorkerPc}, w ≠ v →
      ((s.setPc v pc).workers w).pc = .running ∧
        ((s.setPc v pc).workers w).task = (s.workers w).task := by
    intro v pc hwv
    rw [setPc_pc_of_ne s hwv, setPc_task]
    exact ⟨hw, rfl⟩
  have hother : ∀ {v : Fin N}, (.worker v : PoolStep N π β) ≠ .worker w → w ≠ v := by
    rintro v hv rfl
    exact hv rfl
  cases fires h with
  | whileTest | lock | ready | notReady | block | doneTest | unlock | callTask | finish | leave =>
    exact hold (hother ha)
  | pullTask v u us hpc hdeque =>
    have hwv := hother ha
    simp [hwv, hw]
  | spurious v hpc | notifyOne p v _ hpc =>
    refine hold ?_
    rintro rfl
    rw [hw] at hpc
    cases hpc
  | startPush | pushLock | enqueue | pushUnlock | notifyNobody | storeDone | join | joined =>
    exact ⟨hw, rfl⟩
  | notifyAll hpc => simp [hw, WorkerPc.wake]

private theorem done_step {s t : ThreadPool N π β} {a : PoolStep N π β} (h : s.step a = some t)
    (ha : a ≠ .destroy) : t.done = s.done := by
  cases fires h with
  | storeDone | notifyAll | join | joined => exact absurd rfl ha
  | _ => rfl

end ThreadPool

/-! ## The connections -/

/-- How many useful steps a task can still take before it is finished. -/
def ExecPc.weight : ExecPc → Nat
  | .pullConnection => 7
  | .firstStatus => 6
  | .reset => 5
  | .secondStatus => 4
  | .exec => 3
  | .setValue => 2
  | .pushConnection => 1
  | .finished => 0

private theorem ExecPc.weight_le (pc : ExecPc) : pc.weight ≤ 7 := by
  cases pc <;> decide

namespace Connections

variable {Conn ι : Type}

/-- Some connection is in the deque or with a task. -/
def Left (s : Connections Conn ι) : Prop :=
  s.connsDeque ≠ [] ∨ ∃ i, (s.tasks i).pc.holding = true

variable [DecidableEq ι]

private theorem left_step {s t : Connections Conn ι} {i : ι} {x : ExecStep} (h : s.step (i, x) = some t)
    (hreset : ResetSucceeds s (i, x)) (hs : s.Left) : t.Left := by
  cases fires h with
  | empty => exact hs
  | firstStatus answer hpc =>
    refine Or.inr ⟨i, ?_⟩
    rw [setTask_self]
    by_cases hanswer : answer = .connectionOk <;> simp [hanswer, ExecPc.holding]
  | pop | reset | restored | exec | setValue =>
    refine Or.inr ⟨i, ?_⟩
    rw [setTask_self]
    rfl
  | dropped answer hanswer hpc => exact absurd (hreset answer hpc rfl) hanswer
  | push c hpc hconn => exact Or.inl (List.cons_ne_nil c _)

private theorem step_of_not_left {s t : Connections Conn ι} {i : ι} {x : ExecStep}
    (h : s.step (i, x) = some t) (hs : ¬s.Left) : t = s ∧ x ≠ .pqExec := by
  obtain ⟨hdeque, hnobody⟩ := not_or.mp hs
  have hholding : (s.tasks i).pc.holding ≠ true := fun hi => hnobody ⟨i, hi⟩
  cases fires h with
  | empty => exact ⟨rfl, by simp⟩
  | pop c cs hpc hpool => exact absurd (hpool ▸ List.cons_ne_nil c cs) hdeque
  | firstStatus answer hpc | reset hpc | restored hpc | dropped answer hanswer hpc | exec hpc
  | setValue hpc | push c hpc =>
    rw [hpc] at hholding
    exact absurd rfl hholding

private theorem goes_on {s : Connections Conn ι} {i : ι} (hsound : (s.tasks i).Sound)
    (hholding : (s.tasks i).pc.holding = true) :
    ∃ x t, x ≠ .pullConnection ∧ ResetSucceeds s (i, x) ∧ s.step (i, x) = some t := by
  cases hpc : (s.tasks i).pc with
  | pullConnection | finished =>
    rw [hpc] at hholding
    cases hholding
  | firstStatus =>
    refine ⟨.pqStatus .connectionOk, _, by simp, fun answer hsecond => ?_, by rw [step, hpc]⟩
    rw [hpc] at hsecond
    cases hsecond
  | reset => exact ⟨.pqReset, _, by simp, fun _ _ h => (by cases h), by rw [step, hpc]⟩
  | secondStatus =>
    refine ⟨.pqStatus .connectionOk, _, by simp, fun answer _ hanswer => ?_, by rw [step, hpc]⟩
    exact (ExecStep.pqStatus.inj hanswer).symm
  | exec => exact ⟨.pqExec, _, by simp, fun _ _ h => (by cases h), by rw [step, hpc]⟩
  | setValue => exact ⟨.setValue, _, by simp, fun _ _ h => (by cases h), by rw [step, hpc]⟩
  | pushConnection =>
    obtain ⟨c, hc⟩ := Option.isSome_iff_exists.mp (hsound.conn hholding)
    exact ⟨.pushConnection, _, by simp, fun _ _ h => (by cases h), by rw [step, hpc, hc]; rfl⟩

theorem weight_step {s t : Connections Conn ι} {i : ι} {x : ExecStep}
    (h : s.step (i, x) = some t) (hpull : x = .pullConnection → s.connsDeque ≠ [])
    (hreset : ResetSucceeds s (i, x)) : (t.tasks i).pc.weight < (s.tasks i).pc.weight := by
  cases fires h with
  | empty hpc hpool => exact absurd hpool (hpull rfl)
  | firstStatus answer hpc =>
    rw [setTask_self, hpc]
    by_cases hanswer : answer = .connectionOk <;> simp [hanswer, ExecPc.weight]
  | dropped answer hanswer hpc => exact absurd (hreset answer hpc rfl) hanswer
  | pop c cs hpc | reset hpc | restored hpc | exec hpc | setValue hpc | push c hpc =>
    rw [setTask_self, hpc]
    simp [ExecPc.weight]

end Connections

/-! ## The service -/

def WorkerPc.weight : WorkerPc → Nat
  | .unlock => 17
  | .callTask => 16
  | .running => 8
  | .whileTest => 6
  | .lock | .waiting true => 5
  | .waitTest => 4
  | .doneTest => 3
  | .pullTask => 2
  | .block | .leave => 1
  | .waiting false | .exited => 0

def PusherPc.weight {β : Type} : PusherPc β → Nat
  | .lock _ _ => 25
  | .enqueue _ _ => 24
  | .unlock => 7
  | .notify => 6
  | .idle => 0

/-- A worker that runs a task has the steps of the task ahead of it as well. -/
def workerWeight {Conn : Type} (conns : Connections Conn Nat) (u : Worker Text) : Nat :=
  match u with
  | ⟨.running, some t⟩ => 8 + (conns.tasks t.id).pc.weight
  | ⟨pc, _⟩ => pc.weight

namespace Service

variable {N : Nat} {Conn : Type} {hash : Hash}

/-- How many useful steps the service can still take. -/
def weight (s : Service N Conn) : Nat :=
  (s.threads.pushers ()).weight + 16 * s.threads.taskDeque.length +
    ∑ w, workerWeight s.conns (s.threads.workers w)

/-- The step is none that the world outside takes, no spurious wake-up, no look at an empty pool
and no reset that fails. -/
def Useful (s : Service N Conn) : ServiceStep N → Prop
  | .pool (.worker _) | .pool (.pusher _) | .pool (.notifyOne _ _) => True
  | .task w x _ => ∀ t, (s.threads.workers w).task = some t →
    (x = .pullConnection → s.conns.connsDeque ≠ []) ∧ ResetSucceeds s.conns (t.id, x)
  | _ => False

/-- There is a connection for the commands, or they have all been executed. -/
def Supplied (s : Service N Conn) : Prop :=
  s.conns.Left ∨ ∀ i < s.made.length, i ∈ s.committed

private theorem workerWeight_of_ne (conns : Connections Conn Nat) {u : Worker Text}
    (hu : u.pc ≠ .running) : workerWeight conns u = u.pc.weight := by
  obtain ⟨pc, task⟩ := u
  cases pc <;> first | rfl | exact absurd rfl hu

private theorem workerWeight_of_running (conns : Connections Conn Nat) {u : Worker Text} {t : Task Text}
    (hu : u.pc = .running) (ht : u.task = some t) :
    workerWeight conns u = 8 + (conns.tasks t.id).pc.weight := by
  obtain ⟨pc, task⟩ := u
  obtain rfl : pc = .running := hu
  obtain rfl : task = some t := ht
  rfl

private theorem weight_setPc (conns : Connections Conn Nat) (threads : ThreadPool N Unit Text) (w : Fin N)
    (pc : WorkerPc) :
    ∑ v, workerWeight conns ((threads.setPc w pc).workers v) +
        workerWeight conns (threads.workers w) =
      ∑ v, workerWeight conns (threads.workers v) +
        workerWeight conns { threads.workers w with pc := pc } :=
  sum_update_add (workerWeight conns) threads.workers w { threads.workers w with pc := pc }

private theorem weight_worker (s : Service N Conn) {w : Fin N} {pc : WorkerPc}
    (hlt : workerWeight s.conns { s.threads.workers w with pc := pc } <
      workerWeight s.conns (s.threads.workers w)) :
    (s.threads.pushers ()).weight + 16 * s.threads.taskDeque.length +
        ∑ v, workerWeight s.conns ((s.threads.setPc w pc).workers v) < s.weight := by
  have hsum := weight_setPc s.conns s.threads w pc
  rw [weight]
  omega

private theorem weight_pool {s : Service N Conn} {a : PoolStep N Unit Text}
    {threads : ThreadPool N Unit Text} (h : s.threads.step a = some threads)
    (huseful : s.Useful (.pool a)) : weight { s with threads := threads } < s.weight := by
  have hmove : ∀ {w : Fin N} (pc : WorkerPc), (s.threads.workers w).pc ≠ .running →
      pc ≠ .running → pc.weight < (s.threads.workers w).pc.weight →
      (s.threads.pushers ()).weight + 16 * s.threads.taskDeque.length +
        ∑ v, workerWeight s.conns ((s.threads.setPc w pc).workers v) < s.weight := by
    intro w pc hw hpc hlt
    refine weight_worker s ?_
    rw [workerWeight_of_ne s.conns hw, workerWeight_of_ne s.conns hpc]
    exact hlt
  have hpush : ∀ (u : ThreadPool N Unit Text) (p : Unit) (pc : PusherPc Text),
      (u.setPusher p pc).pushers () = pc := by
    intro u p pc
    exact Function.update_self () pc u.pushers
  cases ThreadPool.fires h with
  | whileTest w hpc =>
    refine hmove _ (by simp [hpc]) ?_ ?_
    · split <;> simp
    · rw [hpc]
      split <;> decide
  | doneTest w hpc =>
    refine hmove _ (by simp [hpc]) ?_ ?_
    · split <;> simp
    · rw [hpc]
      split <;> decide
  | lock w hpc hfree =>
    rcases hpc with hpc | hpc <;>
      exact hmove .waitTest (by simp [hpc]) (by simp) (by simp [hpc, WorkerPc.weight])
  | ready w hpc => exact hmove .doneTest (by simp [hpc]) (by simp) (by simp [hpc, WorkerPc.weight])
  | notReady w hpc => exact hmove .block (by simp [hpc]) (by simp) (by simp [hpc, WorkerPc.weight])
  | block w hpc =>
    exact hmove (.waiting false) (by simp [hpc]) (by simp) (by simp [hpc, WorkerPc.weight])
  | unlock w hpc => exact hmove .callTask (by simp [hpc]) (by simp) (by simp [hpc, WorkerPc.weight])
  | leave w hpc => exact hmove .exited (by simp [hpc]) (by simp) (by simp [hpc, WorkerPc.weight])
  | pullTask w u us hpc hdeque =>
    have hsum := sum_update_add (workerWeight s.conns) s.threads.workers w ⟨.unlock, some u⟩
    have hold := workerWeight_of_ne s.conns (u := s.threads.workers w) (by simp [hpc])
    have hnew : workerWeight s.conns ⟨.unlock, some u⟩ = 17 := rfl
    rw [hpc] at hold
    simp only [weight, hdeque, List.length_cons]
    simp only [WorkerPc.weight] at hold
    omega
  | callTask w u hpc htask =>
    have hold := workerWeight_of_ne s.conns (u := s.threads.workers w) (by simp [hpc])
    have hle := (s.conns.tasks u.id).pc.weight_le
    rw [hpc] at hold
    refine weight_worker s ?_
    have hnew : workerWeight s.conns { s.threads.workers w with pc := .running } =
      8 + (s.conns.tasks u.id).pc.weight := workerWeight_of_running s.conns rfl htask
    rw [hnew, hold]
    simp only [WorkerPc.weight]
    omega
  | finish w u hpc htask =>
    refine weight_worker s ?_
    rw [workerWeight_of_running s.conns hpc htask, workerWeight_of_ne s.conns (by simp)]
    simp only [WorkerPc.weight]
    omega
  | spurious | startPush | storeDone | notifyAll | join | joined => exact huseful.elim
  | pushLock p front body hpc hfree | pushUnlock p hpc | notifyNobody p hpc hnobody =>
    simp only [weight, hpush, hpc, PusherPc.weight]
    exact Nat.add_lt_add_right (Nat.add_lt_add_right (by decide) _) _
  | enqueue p front body hpc =>
    have hlength : ((s.threads.enqueue front body).taskDeque).length =
        s.threads.taskDeque.length + 1 := by
      cases front <;> simp [ThreadPool.enqueue]
    change (((s.threads.enqueue front body).setPusher p .unlock).pushers ()).weight +
      16 * (s.threads.enqueue front body).taskDeque.length +
        ∑ v, workerWeight s.conns (s.threads.workers v) < _
    rw [hpush, hlength, weight, hpc]
    simp only [PusherPc.weight]
    omega
  | notifyOne p w hpc hw =>
    have hsum := weight_setPc s.conns s.threads w (.waiting true)
    rw [workerWeight_of_ne s.conns (by simp [hw]), workerWeight_of_ne s.conns (by simp), hw] at hsum
    simp only [WorkerPc.weight] at hsum
    change (((s.threads.setPc w (.waiting true)).setPusher p .idle).pushers ()).weight +
      16 * s.threads.taskDeque.length +
        ∑ v, workerWeight s.conns ((s.threads.setPc w (.waiting true)).workers v) < _
    rw [hpush, weight, hpc]
    simp only [PusherPc.weight]
    omega

private theorem weight_task {s : Service N Conn} {w : Fin N} {x : ExecStep}
    {conns : Connections Conn Nat} {u : Task Text} (hpc : (s.threads.workers w).pc = .running)
    (htask : (s.threads.workers w).task = some u) (hlively : s.threads.Lively)
    (hplaced : s.threads.Placed) (h : s.conns.step (u.id, x) = some conns)
    (hpull : x = .pullConnection → s.conns.connsDeque ≠ [])
    (hreset : ResetSucceeds s.conns (u.id, x)) :
    ∑ v, workerWeight conns (s.threads.workers v) <
      ∑ v, workerWeight s.conns (s.threads.workers v) := by
  have hlt := Connections.weight_step h hpull hreset
  have hrunning : workerWeight conns (s.threads.workers w) <
      workerWeight s.conns (s.threads.workers w) := by
    rw [workerWeight_of_running conns hpc htask, workerWeight_of_running s.conns hpc htask]
    omega
  refine Finset.sum_lt_sum (fun v _ => ?_) ⟨w, Finset.mem_univ w, hrunning⟩
  by_cases hvw : v = w
  · exact hvw ▸ hrunning.le
  · by_cases hv : (s.threads.workers v).pc = .running
    · -- another worker runs another task, which stays where it is
      obtain ⟨t, hother⟩ := Option.ne_none_iff_exists'.mp (hlively.equipped v (by rw [hv]; rfl))
      have hne : t.id ≠ u.id := by
        intro hid
        refine hvw (hplaced.unique v w t.id ?_ ?_)
        · simp [Worker.current, hv, hother, WorkerPc.busy]
        · simp [Worker.current, hpc, htask, hid, WorkerPc.busy]
      rw [workerWeight_of_running conns hv hother, workerWeight_of_running s.conns hv hother,
        Connections.tasks_of_ne h hne]
    · rw [workerWeight_of_ne conns hv, workerWeight_of_ne s.conns hv]

/-! ### What one step changes -/

theorem call_step {s t : Service N Conn} {c : WatchCall} (h : s.step hash (.call c) = some t) :
    ∃ threads, s.threads.step (.startPush () true (c.command hash)) = some threads ∧
      t = { s with made := s.made ++ [c], threads := threads } := by
  simp only [step, handle_watchCall, execCommand] at h
  obtain ⟨threads, hthreads, rfl⟩ := Option.map_eq_some_iff.mp h
  exact ⟨threads, hthreads, rfl⟩

theorem task_step {s t : Service N Conn} {w : Fin N} {x : ExecStep} {choice : Choice}
    (h : s.step hash (.task w x choice) = some t) :
    ∃ u, (s.threads.workers w).pc = .running ∧ (s.threads.workers w).task = some u ∧
      s.conns.step (u.id, x) = some t.conns ∧ t.threads = s.threads ∧ t.made = s.made ∧
      t.committed = if x = .pqExec then s.committed ++ [u.id] else s.committed := by
  simp only [step] at h
  split at h
  case h_2 => cases h
  case h_1 u hpc htask =>
    obtain ⟨conns, hconns, hstate⟩ := Option.map_eq_some_iff.mp h
    refine ⟨u, hpc, htask, ?_⟩
    by_cases hx : x = .pqExec
    · rw [if_pos hx] at hstate ⊢
      subst hstate
      exact ⟨hconns, rfl, rfl, rfl⟩
    · rw [if_neg hx] at hstate ⊢
      subst hstate
      exact ⟨hconns, rfl, rfl, rfl⟩

theorem pool_step {s t : Service N Conn} {a : PoolStep N Unit Text}
    (h : s.step hash (.pool a) = some t) :
    ∃ threads, s.threads.step a = some threads ∧ t = { s with threads := threads } := by
  simp only [step] at h
  split at h
  case isFalse => cases h
  case isTrue =>
    obtain ⟨threads, hthreads, rfl⟩ := Option.map_eq_some_iff.mp h
    exact ⟨threads, hthreads, rfl⟩

/-! ### What one step keeps -/

/-- Every task that has a connection is run by a worker. -/
def Manned (s : Service N Conn) : Prop :=
  ∀ i, (s.conns.tasks i).pc.holding = true → ∃ w t, (s.threads.workers w).pc = .running ∧
    (s.threads.workers w).task = some t ∧ t.id = i

/-- What lets the service go on as long as it is supplied. -/
structure Steady (hash : Hash) (start : Db) (s : Service N Conn) : Prop where
  inv : s.Inv hash start
  alert : s.threads.Alert
  lively : s.threads.Lively
  looping : s.threads.done = false →
    ∀ w, (s.threads.workers w).pc ≠ .leave ∧ (s.threads.workers w).pc ≠ .exited
  sound : ∀ i, (s.conns.tasks i).Sound
  manned : s.Manned

theorem steady_init (conns : List Conn) (db : Db) : (init N conns db).Steady hash db where
  inv := inv_init conns db
  alert := ThreadPool.alert_init
  lively := ThreadPool.lively_init
  looping _ w := ⟨by simp [init, ThreadPool.init], by simp [init, ThreadPool.init]⟩
  sound _ := ⟨by simp [init, Connections.init, ExecTask.start, ExecPc.holding],
    by simp [init, Connections.init, ExecTask.start, ExecPc.pulled], rfl⟩
  manned i h := by simp [init, Connections.init, ExecTask.start, ExecPc.holding] at h

private theorem manned_step {s t : Service N Conn} {a : ServiceStep N}
    (h : s.step hash a = some t) (hs : s.Manned) : t.Manned := by
  intro i hi
  cases a with
  | call c =>
    obtain ⟨threads, hthreads, rfl⟩ := call_step h
    obtain ⟨w, u, hpc, htask, hid⟩ := hs i hi
    obtain ⟨hpc', htask'⟩ := ThreadPool.running_step hthreads hpc (by simp)
    exact ⟨w, u, hpc', htask'.trans htask, hid⟩
  | pool a =>
    simp only [step] at h
    split at h
    case isFalse => cases h
    case isTrue hallows =>
    obtain ⟨threads, hthreads, rfl⟩ := Option.map_eq_some_iff.mp h
    obtain ⟨w, u, hpc, htask, rfl⟩ := hs i hi
    have hother : a ≠ .worker w := by
      rintro rfl
      have hfinished : (s.conns.tasks u.id).pc = .finished := by
        simpa [allows, hpc, htask] using hallows
      have hholding : (s.conns.tasks u.id).pc.holding = true := hi
      rw [hfinished] at hholding
      cases hholding
    obtain ⟨hpc', htask'⟩ := ThreadPool.running_step hthreads hpc hother
    exact ⟨w, u, hpc', htask'.trans htask, rfl⟩
  | task w x choice =>
    obtain ⟨u, hpc, htask, hconns, hthreads, -⟩ := task_step h
    rw [hthreads]
    by_cases hid : i = u.id
    · exact ⟨w, u, hpc, htask, hid.symm⟩
    · rw [Connections.tasks_of_ne hconns hid] at hi
      exact hs i hi

/-- What a step of the service does to its two pools. -/
theorem pools_step {s t : Service N Conn} {a : ServiceStep N} (h : s.step hash a = some t) :
    (t.conns = s.conns ∧ ∃ b, s.threads.step b = some t.threads) ∨
      (t.threads = s.threads ∧ ∃ i x, s.conns.step (i, x) = some t.conns) := by
  cases a with
  | call c =>
    obtain ⟨threads, hthreads, rfl⟩ := call_step h
    exact Or.inl ⟨rfl, _, hthreads⟩
  | pool b =>
    obtain ⟨threads, hthreads, rfl⟩ := pool_step h
    exact Or.inl ⟨rfl, b, hthreads⟩
  | task w x choice =>
    obtain ⟨u, -, -, hconns, hthreads, -⟩ := task_step h
    exact Or.inr ⟨hthreads, u.id, x, hconns⟩

theorem steady_step (hN : 0 < N) {start : Db} {s t : Service N Conn} {a : ServiceStep N}
    (h : s.step hash a = some t) (hs : s.Steady hash start) : t.Steady hash start := by
  have hinv := inv_step h hs.inv
  have hmanned := manned_step h hs.manned
  rcases pools_step h with ⟨hconns, b, hthreads⟩ | ⟨hthreads, i, x, hconns⟩
  · exact ⟨hinv, ThreadPool.alert_step hN hthreads hs.alert,
      ThreadPool.lively_step hthreads hs.alert.owned hs.lively,
      ThreadPool.looping_step hthreads hs.looping, hconns ▸ hs.sound, hmanned⟩
  · exact ⟨hinv, hthreads ▸ hs.alert, hthreads ▸ hs.lively, hthreads ▸ hs.looping,
      Connections.sound_step hconns hs.sound, hmanned⟩

private theorem done_keep {s t : Service N Conn} {a : ServiceStep N}
    (h : s.step hash a = some t) (huseful : s.Useful a) : t.threads.done = s.threads.done := by
  cases a with
  | call c => exact huseful.elim
  | pool b =>
    obtain ⟨threads, hthreads, rfl⟩ := pool_step h
    refine ThreadPool.done_step hthreads ?_
    rintro rfl
    exact huseful.elim
  | task w x choice =>
    obtain ⟨u, -, -, -, hthreads, -⟩ := task_step h
    rw [hthreads]

private theorem pool_enabled (hash : Hash) {s : Service N Conn} {a : PoolStep N Unit Text}
    {threads : ThreadPool N Unit Text} (hallows : s.allows a = true)
    (h : s.threads.step a = some threads) :
    s.step hash (.pool a) = some { s with threads := threads } := by
  simp only [step, hallows, if_true, h, Option.map_some]

private theorem supplied_step {s t : Service N Conn} {a : ServiceStep N}
    (h : s.step hash a = some t) (huseful : s.Useful a) (hs : s.Supplied) : t.Supplied := by
  cases a with
  | call c => exact huseful.elim
  | pool b =>
    obtain ⟨threads, -, rfl⟩ := pool_step h
    exact hs
  | task w x choice =>
    obtain ⟨u, -, htask, hconns, -, hmade, hcommitted⟩ := task_step h
    rcases hs with hleft | hall
    · exact Or.inl (Connections.left_step hconns (huseful u htask).2 hleft)
    · refine Or.inr fun i hi => ?_
      have hold := hall i (hmade ▸ hi)
      rw [hcommitted]
      split
      · exact List.mem_append_left _ hold
      · exact hold

private theorem not_supplied_step {s t : Service N Conn} {a : ServiceStep N}
    (h : s.step hash a = some t) (ha : ∀ c, a ≠ .call c) (hs : ¬s.Supplied) : ¬t.Supplied := by
  cases a with
  | call c => exact absurd rfl (ha c)
  | pool b =>
    obtain ⟨threads, -, rfl⟩ := pool_step h
    exact hs
  | task w x choice =>
    obtain ⟨u, -, -, hconns, -, hmade, hcommitted⟩ := task_step h
    obtain ⟨hsame, hx⟩ := Connections.step_of_not_left hconns (not_or.mp hs).1
    rw [if_neg hx] at hcommitted
    rw [Supplied, hsame, hmade, hcommitted]
    exact hs

/-! ### The goal -/

private theorem task_goes_on {s : Service N Conn} {start : Db} (hs : s.Steady hash start)
    {w : Fin N} {u : Task Text} (hpc : (s.threads.workers w).pc = .running)
    (htask : (s.threads.workers w).task = some u)
    (hholding : (s.conns.tasks u.id).pc.holding = true) :
    ∃ a t, s.Useful a ∧ s.step hash a = some t := by
  obtain ⟨x, conns, hx, hreset, hconns⟩ := Connections.goes_on (hs.sound u.id) hholding
  refine ⟨.task w x .plain, _, fun t ht => ?_, by simp only [step, hpc, htask, hconns]; rfl⟩
  obtain rfl : u = t := Option.some.inj (htask.symm.trans ht)
  exact ⟨fun hpull => absurd hpull hx, hreset⟩

private theorem running_goes_on {s : Service N Conn} {start : Db} (hs : s.Steady hash start)
    (hsupplied : s.Supplied) {w : Fin N} (hpc : (s.threads.workers w).pc = .running) :
    ∃ a t, s.Useful a ∧ s.step hash a = some t := by
  obtain ⟨u, htask⟩ := Option.ne_none_iff_exists'.mp (hs.lively.equipped w (by rw [hpc]; rfl))
  by_cases hholding : (s.conns.tasks u.id).pc.holding = true
  · exact task_goes_on hs hpc htask hholding
  · cases hbody : (s.conns.tasks u.id).pc with
    | finished =>
      have hallows : s.allows (.worker w) = true := by simp [allows, hpc, htask, hbody]
      exact ⟨.pool (.worker w), _, trivial, pool_enabled hash hallows
        (by rw [ThreadPool.step, ThreadPool.workerStep, hpc, htask]; rfl)⟩
    | pullConnection =>
      cases hdeque : s.conns.connsDeque with
      | cons c cs =>
        refine ⟨.task w .pullConnection .plain, _,
          fun t ht => ⟨fun _ => ?_, fun _ _ h => by cases h⟩,
          by simp only [step, hpc, htask, Connections.step, hbody, hdeque]; rfl⟩
        rw [hdeque]
        exact List.cons_ne_nil c cs
      | nil =>
        rcases hsupplied with hleft | hall
        · -- the connection that is left is with a task, which some worker runs
          obtain ⟨i, hi⟩ := hleft.resolve_left (not_not_intro hdeque)
          obtain ⟨v, t, hv, ht, rfl⟩ := hs.manned i hi
          exact task_goes_on hs hv ht hi
        · obtain ⟨x, hx, -⟩ := Option.map_eq_some_iff.mp (hs.inv.faithful.workers w u htask)
          have hlength := (List.getElem?_eq_some_iff.mp hx).1
          have hcommitted :=
            (hs.inv.committed u.id).mp (hall u.id (hlength.trans_le hs.inv.pushed_le))
          rw [hbody] at hcommitted
          cases hcommitted
    | _ =>
      rw [hbody] at hholding
      exact absurd rfl hholding

private theorem quiescent_of_settled {s : Service N Conn} (halert : s.threads.Alert)
    (hsettled : s.threads.Settled) (hnobody : ∀ w, (s.threads.workers w).pc ≠ .running) :
    s.Quiescent := by
  have hasleep : ∀ w, (s.threads.workers w).pc = .waiting false := fun w =>
    (hsettled.1 w).resolve_left (hnobody w)
  refine ⟨hsettled.2 (), ?_, fun w => ?_⟩
  · by_contra hdeque
    rcases halert.awake hdeque with ⟨w, hw⟩ | ⟨p, hp⟩
    · exact hw (hasleep w)
    · rw [hsettled.2 p] at hp
      cases hp
  · rw [Worker.current, hasleep w]
    rfl

private theorem worksTowards_quiescent (hN : 0 < N) (hash : Hash) (start : Db) :
    (serviceMachine N Conn hash).WorksTowards
      (fun s => s.Steady hash start ∧ s.threads.done = false ∧ s.Supplied) Useful weight
      Quiescent where
  keep s a t h huseful hs := ⟨steady_step hN h hs.1, (done_keep h huseful).trans hs.2.1,
    supplied_step h huseful hs.2.2⟩
  lower s a t h huseful hs := by
    have h : s.step hash a = some t := h
    cases a with
    | call c => exact huseful.elim
    | pool b =>
      obtain ⟨threads, hthreads, rfl⟩ := pool_step h
      exact weight_pool hthreads huseful
    | task w x choice =>
      obtain ⟨u, hpc, htask, hconns, hthreads, -, -⟩ := task_step h
      obtain ⟨hpull, hreset⟩ := huseful u htask
      rw [weight, hthreads]
      exact Nat.add_lt_add_left
        (weight_task hpc htask hs.1.lively hs.1.inv.history.2 hconns hpull hreset) _
  enabled s hs hgoal := by
    obtain ⟨hsteady, hdone, hsupplied⟩ := hs
    rcases ThreadPool.goes_on hsteady.alert hsteady.lively (hsteady.looping hdone) hdone with
      ⟨w, threads, hpc, hthreads⟩ | ⟨p, threads, hthreads⟩ | ⟨p, w, threads, hthreads⟩ | hsettled
    · have hallows : s.allows (.worker w) = true := by
        unfold allows
        dsimp only
        split
        case h_1 u hrunning _ => exact absurd hrunning hpc
        case h_2 => rfl
      exact ⟨.pool (.worker w), _, trivial, pool_enabled hash hallows hthreads⟩
    · exact ⟨.pool (.pusher p), _, trivial, pool_enabled hash rfl hthreads⟩
    · exact ⟨.pool (.notifyOne p w), _, trivial, pool_enabled hash rfl hthreads⟩
    · by_cases hrunning : ∃ w, (s.threads.workers w).pc = .running
      · obtain ⟨w, hw⟩ := hrunning
        exact running_goes_on hsteady hsupplied hw
      · have hnobody := not_exists.mp hrunning
        exact absurd (quiescent_of_settled hsteady.alert hsettled hnobody) hgoal

private theorem executed_of_quiescent {start : Db} {s : Service N Conn} (hs : s.Inv hash start)
    (hquiescent : s.Quiescent) : ∀ i < s.made.length, i ∈ s.committed := by
  intro i hi
  have hbegun := congrArg List.length hs.begun
  have hlength : i < s.threads.pushed.length := by
    simp [ThreadPool.begun, hquiescent.returned, PusherPc.pending, announced] at hbegun
    omega
  have hpulled : i ∈ s.threads.pulled := by
    simpa [ThreadPool.line, Line.all, hquiescent.empty] using (hs.history.1.mem i).mpr hlength
  rcases hs.history.2.settled i hpulled with hfinished | ⟨w, hw⟩
  · rw [hs.committed, hs.finished i hfinished]
    rfl
  · rw [hquiescent.idle w] at hw
    cases hw

end Service

/-- While the pools are not shut down, and a connection is left or everything has been executed, no
run of useful steps is longer than the weight of the state, and each of them ends in a quiescent
state or can be continued. -/
theorem service_settles {N : Nat} {Conn : Type} (hash : Hash) (hN : 0 < N) (conns : List Conn)
    (db : Db) {as : List (ServiceStep N)} {s : Service N Conn}
    (hrun : (serviceMachine N Conn hash).run (.init N conns db) as = some s)
    (hdone : s.threads.done = false) (hsupplied : s.Supplied) (bs : List (ServiceStep N))
    (t : Service N Conn) (hbs : (serviceMachine N Conn hash).run s bs = some t)
    (huseful : (serviceMachine N Conn hash).Guarded Service.Useful s bs) :
    bs.length ≤ s.weight ∧ (t.Quiescent ∨ ∃ a u, t.Useful a ∧ t.step hash a = some u) := by
  have hsteady : s.Steady hash db := Machine.run_invariant (P := Service.Steady hash db)
    (fun _ _ _ h => Service.steady_step hN h) hrun (Service.steady_init conns db)
  have hworks : (serviceMachine N Conn hash).WorksTowards
      (fun s => s.Steady hash db ∧ s.threads.done = false ∧ s.Supplied) Service.Useful
      Service.weight Service.Quiescent := Service.worksTowards_quiescent hN hash db
  obtain ⟨hlength, ht⟩ := hworks.length_le ⟨hsteady, hdone, hsupplied⟩ hbs huseful
  exact ⟨by omega, Classical.or_iff_not_imp_left.mpr (hworks.enabled t ht)⟩

private theorem folder_f_safe : SafeLiteral ['f'] := by decide

private theorem name_a_safe : SafeLiteral ['a'] := by decide

/-- The file `a` has come into the folder `f`. -/
def newFile : WatchCall := ⟨⟨['f'], folder_f_safe⟩, .add, ⟨['a'], name_a_safe⟩⟩

def oneCall : List (ServiceStep 1) :=
  [.call newFile, .pool (.pusher ()), .pool (.pusher ())]

theorem service_settles_one_call :
    ∃ s t, (serviceMachine 1 Nat fun _ => 0).run (.init 1 [7] ⟨[], .restart, [], .restart⟩) oneCall =
        some s ∧
      (serviceMachine 1 Nat fun _ => 0).run s [.pool (.pusher ()), .pool (.notifyOne () none)] =
        some t ∧
      2 ≤ s.weight ∧ (t.Quiescent ∨ ∃ a u, t.Useful a ∧ t.step (fun _ => 0) a = some u) := by
  have henabled : ((serviceMachine 1 Nat fun _ => 0).run
      (.init 1 [7] ⟨[], .restart, [], .restart⟩) oneCall).any (fun s =>
        !s.threads.done && !s.conns.connsDeque.isEmpty && ((serviceMachine 1 Nat fun _ => 0).run s
          [.pool (.pusher ()), .pool (.notifyOne () none)]).isSome) = true := by decide +kernel
  obtain ⟨s, hs, hafter⟩ := (Option.any_eq_true _ _).mp henabled
  simp only [Bool.and_eq_true, Bool.not_eq_true', List.isEmpty_eq_false_iff] at hafter
  obtain ⟨⟨hdone, hdeque⟩, hsome⟩ := hafter
  obtain ⟨t, ht⟩ := Option.isSome_iff_exists.mp hsome
  exact ⟨s, t, hs, ht, service_settles (fun _ => 0) (by decide) [7] _ hs hdone
    (Or.inl (Or.inl hdeque)) _ t ht fun _ _ => ⟨trivial, fun _ _ => ⟨trivial, trivial⟩⟩⟩

/-- Without further calls the service can come to rest exactly when a connection is left for its
commands, or they have all been executed. -/
theorem service_settles_iff {N : Nat} {Conn : Type} (hash : Hash) (hN : 0 < N) (conns : List Conn)
    (db : Db) {as : List (ServiceStep N)} {s : Service N Conn}
    (hrun : (serviceMachine N Conn hash).run (.init N conns db) as = some s)
    (hdone : s.threads.done = false) :
    (∃ bs t, (∀ b ∈ bs, ∀ c, b ≠ .call c) ∧ (serviceMachine N Conn hash).run s bs = some t ∧
      t.Quiescent) ↔ s.Supplied := by
  have hsteady : s.Steady hash db := Machine.run_invariant (P := Service.Steady hash db)
    (fun _ _ _ h => Service.steady_step hN h) hrun (Service.steady_init conns db)
  constructor
  · rintro ⟨bs, t, hcalls, hbs, hquiescent⟩
    by_contra hnot
    have ht : ¬t.Supplied := Machine.run_invariant_of_labels (P := fun u => ¬u.Supplied)
      (fun _ _ _ => Service.not_supplied_step) hcalls hbs hnot
    have hinv : t.Inv hash db := Machine.run_invariant (P := Service.Inv hash db)
      (fun _ _ _ => Service.inv_step) hbs hsteady.inv
    exact ht (Or.inr (Service.executed_of_quiescent hinv hquiescent))
  · intro hsupplied
    obtain ⟨bs, t, huseful, hbs, -, hquiescent⟩ :=
      (Service.worksTowards_quiescent hN hash db).reaches ⟨hsteady, hdone, hsupplied⟩
    refine ⟨bs, t, huseful.forall_mem (fun u a hu c ha => ?_) hbs, hbs, hquiescent⟩
    subst ha
    exact hu

/-- Steps of a task that the only worker runs. -/
def soleTask (steps : List ExecStep) : List (ServiceStep 1) :=
  steps.map fun x => .task (Fin.last 0) x .plain

/-- The call, until the only worker has taken its task. -/
def callTaken : List (ServiceStep 1) :=
  oneCall ++ [.pool (.pusher ()), .pool (.notifyOne () none)] ++
    List.replicate 7 (.pool (.worker (Fin.last 0)))

/-- The task finds the only connection broken, and fails to reset it. -/
def lastConnectionLost : List (ServiceStep 1) :=
  callTaken ++ soleTask
    [.pullConnection, .pqStatus .connectionBad, .pqReset, .pqStatus .connectionBad]

theorem service_settles_iff_connection_lost :
    ∃ s, (serviceMachine 1 Nat fun _ => 0).run (.init 1 [7] ⟨[], .restart, [], .restart⟩)
        lastConnectionLost = some s ∧
      ((∃ bs t, (∀ b ∈ bs, ∀ c, b ≠ .call c) ∧
        (serviceMachine 1 Nat fun _ => 0).run s bs = some t ∧ t.Quiescent) ↔ s.Supplied) := by
  have henabled : ((serviceMachine 1 Nat fun _ => 0).run
      (.init 1 [7] ⟨[], .restart, [], .restart⟩) lastConnectionLost).any
        (fun s => !s.threads.done) = true := by decide +kernel
  obtain ⟨s, hs, hdone⟩ := (Option.any_eq_true _ _).mp henabled
  exact ⟨s, hs, service_settles_iff (fun _ => 0) (by decide) [7] _ hs (by simpa using hdone)⟩

end PetProject.DbModule
