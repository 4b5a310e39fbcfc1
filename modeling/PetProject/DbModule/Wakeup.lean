import PetProject.DbModule.ThreadPool

/-!
# Wake-ups and shutdown of the thread pool

A task in the deque always has a thread that will see to it: a worker that is not asleep, or a
pusher whose `notify_one` is still to come. The destructor has no such guarantee, as it neither
sets `done` nor notifies under the mutex.
-/

namespace PetProject.DbModule

open Framework

namespace ThreadPool

variable {N : Nat} {π β : Type} [DecidableEq π]

/-- What keeps the deque from being forgotten. -/
structure Alert (s : ThreadPool N π β) : Prop where
  owned : Owned s.mutex s.Inside
  empty : ∀ w, (s.workers w).pc = .block → s.taskDeque = []
  awake : s.taskDeque ≠ [] →
    (∃ w, (s.workers w).pc ≠ .waiting false) ∨ ∃ p, (s.pushers p).notifying

private theorem empty_step {s t : ThreadPool N π β} {a : PoolStep N π β} (h : s.step a = some t)
    (hs : s.Alert) : ∀ w, (t.workers w).pc = .block → t.taskDeque = [] := by
  intro v hv
  have hold : ∀ {w : Fin N} {pc : WorkerPc}, pc ≠ .block →
      ((s.setPc w pc).workers v).pc = .block → (s.workers v).pc = .block := by
    intro w pc hpc hv
    by_cases hvw : v = w
    · subst hvw
      exact absurd (setPc_pc_self s v pc ▸ hv) hpc
    · exact setPc_pc_of_ne s hvw pc ▸ hv
  have hinside : (s.workers v).pc = .block → s.Inside (.inl v) := by
    intro hpc
    simp [Inside, hpc, WorkerPc.inside]
  cases fires h with
  | whileTest w hpc =>
    refine hs.empty v (hold ?_ hv)
    split <;> simp
  | doneTest w hpc =>
    refine hs.empty v (hold ?_ hv)
    split <;> simp
  | lock | ready | block | unlock | callTask | finish | leave | spurious | notifyOne =>
    exact hs.empty v (hold (by simp) hv)
  | notReady w hpc hempty hdone => exact hempty
  | pullTask w u us hpc hdeque =>
    by_cases hvw : v = w
    · subst hvw
      simp at hv
    · have hv : (s.workers v).pc = .block := by simpa [hvw] using hv
      have hw : s.Inside (.inl w) := by simp [Inside, hpc, WorkerPc.inside]
      exact absurd (Sum.inl.inj (hs.owned.unique (hinside hv) hw)) hvw
  | enqueue p front body hpc =>
    have hp : s.Inside (.inr p) := by simp [Inside, hpc, PusherPc.inside]
    exact absurd (hs.owned.unique (hinside hv) hp) Sum.inl_ne_inr
  | startPush | pushLock | pushUnlock | notifyNobody | storeDone | join | joined =>
    exact hs.empty v hv
  | notifyAll hpc =>
    refine hs.empty v ?_
    have hv : (s.workers v).pc.wake = .block := hv
    cases hpc : (s.workers v).pc <;> simp_all [WorkerPc.wake]

private theorem notifying_update {pushers : π → PusherPc β} {p : π} (hp : ¬(pushers p).notifying)
    (pc : PusherPc β) (h : ∃ q, (pushers q).notifying) :
    ∃ q, (Function.update pushers p pc q).notifying := by
  obtain ⟨q, hq⟩ := h
  have hqp : q ≠ p := by
    rintro rfl
    exact hp hq
  exact ⟨q, by rwa [Function.update_of_ne hqp]⟩

private theorem awake_step (hN : 0 < N) {s t : ThreadPool N π β} {a : PoolStep N π β}
    (h : s.step a = some t) (hs : s.Alert) (hdeque : t.taskDeque ≠ []) :
    (∃ w, (t.workers w).pc ≠ .waiting false) ∨ ∃ p, (t.pushers p).notifying := by
  cases fires h with
  | whileTest w hpc =>
    refine Or.inl ⟨w, ?_⟩
    rw [setPc_pc_self]
    split <;> simp
  | doneTest w hpc =>
    refine Or.inl ⟨w, ?_⟩
    rw [setPc_pc_self]
    split <;> simp
  | lock w | ready w | notReady w | unlock w | callTask w | finish w | leave w | spurious w =>
    exact Or.inl ⟨w, by simp⟩
  | notifyOne p w => exact Or.inl ⟨w, by simp [setPusher]⟩
  | block w hpc => exact absurd (hs.empty w hpc) hdeque
  | pullTask w => exact Or.inl ⟨w, by simp⟩
  | startPush p front body hpc =>
    have hp : ¬(s.pushers p).notifying := by simp [hpc, PusherPc.notifying]
    exact (hs.awake hdeque).imp_right (notifying_update hp _)
  | pushLock p front body hpc hfree =>
    have hp : ¬(s.pushers p).notifying := by simp [hpc, PusherPc.notifying]
    exact (hs.awake hdeque).imp_right (notifying_update hp _)
  | enqueue p | pushUnlock p => exact Or.inr ⟨p, by simp [setPusher, PusherPc.notifying]⟩
  | notifyNobody p hpc hnobody => exact Or.inl ⟨⟨0, hN⟩, hnobody ⟨0, hN⟩⟩
  | storeDone | join | joined => exact hs.awake hdeque
  | notifyAll hpc =>
    refine Or.inl ⟨⟨0, hN⟩, ?_⟩
    change (s.workers ⟨0, hN⟩).pc.wake ≠ .waiting false
    cases (s.workers ⟨0, hN⟩).pc <;> simp [WorkerPc.wake]

omit [DecidableEq π] in
theorem alert_init : (init N π β).Alert where
  owned := by
    rintro (w | p) hinside
    · simp [Inside, init, WorkerPc.inside] at hinside
    · simp [Inside, init, PusherPc.inside] at hinside
  empty _ _ := rfl
  awake h := absurd rfl h

theorem alert_step (hN : 0 < N) {s t : ThreadPool N π β} {a : PoolStep N π β}
    (h : s.step a = some t) (hs : s.Alert) : t.Alert where
  owned := owned_step h hs.owned
  empty := empty_step h hs
  awake := awake_step hN h hs

/-- While `done` is not set no worker has left its loop. -/
theorem looping_step {s t : ThreadPool N π β} {a : PoolStep N π β} (h : s.step a = some t)
    (hs : s.done = false → ∀ w, (s.workers w).pc ≠ .leave ∧ (s.workers w).pc ≠ .exited) :
    t.done = false → ∀ w, (t.workers w).pc ≠ .leave ∧ (t.workers w).pc ≠ .exited := by
  intro hdone v
  have hmove : ∀ {w : Fin N} {pc : WorkerPc}, s.done = false → pc ≠ .leave → pc ≠ .exited →
      ((s.setPc w pc).workers v).pc ≠ .leave ∧ ((s.setPc w pc).workers v).pc ≠ .exited := by
    intro w pc hdone hleave hexited
    by_cases hvw : v = w
    · subst hvw
      rw [setPc_pc_self]
      exact ⟨hleave, hexited⟩
    · rw [setPc_pc_of_ne s hvw]
      exact hs hdone v
  cases fires h with
  | whileTest w hpc | doneTest w hpc =>
    have hdone : s.done = false := hdone
    refine hmove hdone ?_ ?_ <;> simp [hdone]
  | lock | ready | notReady | block | unlock | callTask | finish | spurious | notifyOne =>
    exact hmove hdone (by simp) (by simp)
  | leave w hpc => exact absurd hpc (hs hdone w).1
  | pullTask w =>
    by_cases hvw : v = w
    · subst hvw
      simp
    · simpa [hvw] using hs hdone v
  | startPush | pushLock | enqueue | pushUnlock | notifyNobody | join | joined => exact hs hdone v
  | storeDone => exact nomatch hdone
  | notifyAll hpc =>
    have hv := hs hdone v
    change (s.workers v).pc.wake ≠ _ ∧ (s.workers v).pc.wake ≠ _
    cases hpc : (s.workers v).pc <;> simp_all [WorkerPc.wake]

/-- A task in the deque of a running pool is never forgotten: not every worker is blocked in
`data_cond.wait`, unless a wake-up or a `notify_one` is on its way. -/
theorem no_lost_wakeup (hN : 0 < N) {as : List (PoolStep N π β)} {s : ThreadPool N π β}
    (hrun : (poolMachine N π β).run (.init N π β) as = some s) (hdone : s.done = false)
    (hdeque : s.taskDeque ≠ []) :
    ¬((∀ w, (s.workers w).pc.blocked ∨ (s.workers w).pc = .exited) ∧
      (∀ p, ¬(s.pushers p).notifying) ∧ ∀ w, (s.workers w).pc ≠ .waiting true) := by
  rintro ⟨hblocked, hnotify, hwoken⟩
  have halert : s.Alert := Machine.run_invariant (P := Alert) (fun _ _ _ h => alert_step hN h)
    hrun alert_init
  have hlooping := Machine.run_invariant
    (P := fun u : ThreadPool N π β => u.done = false → ∀ w, (u.workers w).pc ≠ .leave ∧
      (u.workers w).pc ≠ .exited)
    (fun _ _ _ h => looping_step h) hrun (by simp [init])
  rcases halert.awake hdeque with ⟨w, hw⟩ | ⟨p, hp⟩
  · rcases hblocked w with hblocked | hexited
    · cases hpc : (s.workers w).pc with
      | waiting notified =>
        cases notified with
        | true => exact hwoken w hpc
        | false => exact hw hpc
      | _ => simp [hpc, WorkerPc.blocked] at hblocked
    · exact (hlooping hdone w).2 hexited
  · exact hnotify p hp

/-- Two workers fall asleep on an empty deque before a task is pushed. -/
def sleepThenPush : List (PoolStep 2 Unit Unit) :=
  [.worker 0, .worker 0, .worker 0, .worker 0, .worker 1, .worker 1, .worker 1, .worker 1,
    .startPush () true (), .pusher (), .pusher (), .pusher ()]

theorem no_lost_wakeup_two_workers :
    ∃ s, (poolMachine 2 Unit Unit).run (.init 2 Unit Unit) sleepThenPush = some s ∧
      s.done = false ∧ s.taskDeque ≠ [] ∧
      ¬((∀ w, (s.workers w).pc.blocked ∨ (s.workers w).pc = .exited) ∧
        (∀ p, ¬(s.pushers p).notifying) ∧ ∀ w, (s.workers w).pc ≠ .waiting true) := by
  have hstate : ((poolMachine 2 Unit Unit).run (.init 2 Unit Unit) sleepThenPush).any
      (fun s => !s.done && !s.taskDeque.isEmpty) = true := by decide
  obtain ⟨s, hrun, hs⟩ := (Option.any_eq_true _ _).mp hstate
  simp only [Bool.and_eq_true, Bool.not_eq_true', List.isEmpty_eq_false_iff] at hs
  exact ⟨s, hrun, hs.1, hs.2, no_lost_wakeup (by decide) hrun hs.1 hs.2⟩

/-! ## Shutdown -/

/-- The destructor has notified, and a worker is asleep that nobody will wake. -/
def Stranded (s : ThreadPool N π β) : Prop :=
  s.destructor.notified ∧ ∃ w, (s.workers w).pc = .waiting false

/-- When the destructor executes `notify_all`, no worker stands between the test of the wait
predicate and its blocking. -/
def NobodyFallingAsleep (s : ThreadPool N π β) : PoolStep N π β → Prop
  | .destroy => s.destructor = .notifyAll → ∀ w, (s.workers w).pc ≠ .block
  | _ => True

instance (s : ThreadPool N π β) (a : PoolStep N π β) : Decidable (s.NobodyFallingAsleep a) :=
  match a with
  | .destroy => inferInstanceAs (Decidable (_ → _))
  | .worker _ | .spurious _ | .startPush _ _ _ | .pusher _ | .notifyOne _ _ => isTrue trivial

/-- After an undisturbed `notify_all` everybody is awake and stays so, since `done` is set. -/
structure Released (s : ThreadPool N π β) : Prop where
  done : s.destructor ≠ .storeDone → s.done = true
  awake : s.destructor.notified → ∀ w, (s.workers w).pc ≠ .waiting false ∧ (s.workers w).pc ≠ .block

private theorem released_step {s t : ThreadPool N π β} {a : PoolStep N π β} (h : s.step a = some t)
    (hguard : s.NobodyFallingAsleep a) (hs : s.Released) : t.Released := by
  have hmove : ∀ {w : Fin N} {pc : WorkerPc}, pc ≠ .waiting false → pc ≠ .block →
      s.destructor.notified → ∀ v, ((s.setPc w pc).workers v).pc ≠ .waiting false ∧
        ((s.setPc w pc).workers v).pc ≠ .block := by
    intro w pc hwaiting hblock hnotified v
    by_cases hvw : v = w
    · subst hvw
      rw [setPc_pc_self]
      exact ⟨hwaiting, hblock⟩
    · rw [setPc_pc_of_ne s hvw]
      exact hs.awake hnotified v
  cases fires h with
  | whileTest w hpc | doneTest w hpc =>
    refine ⟨hs.done, fun hnotified => hmove ?_ ?_ hnotified⟩ <;> split <;> simp
  | lock | ready | unlock | callTask | finish | leave | spurious | notifyOne =>
    exact ⟨hs.done, fun hnotified => hmove (by simp) (by simp) hnotified⟩
  | notReady w hpc hempty hdone =>
    refine ⟨hs.done, fun hnotified => ?_⟩
    have hne : s.destructor ≠ .storeDone := by
      intro hstore
      have hnotified : s.destructor.notified = true := hnotified
      simp [hstore, DestructorPc.notified] at hnotified
    exact absurd (hs.done hne) (by simp [hdone])
  | block w hpc => exact ⟨hs.done, fun hnotified => absurd hpc (hs.awake hnotified w).2⟩
  | pullTask w =>
    refine ⟨hs.done, fun hnotified v => ?_⟩
    by_cases hvw : v = w
    · subst hvw
      simp
    · simpa [hvw] using hs.awake hnotified v
  | startPush | pushLock | enqueue | pushUnlock | notifyNobody => exact ⟨hs.done, hs.awake⟩
  | storeDone hpc => exact ⟨fun _ => rfl, fun hnotified => nomatch hnotified⟩
  | notifyAll hpc =>
    refine ⟨fun _ => hs.done (by simp [hpc]), fun _ v => ?_⟩
    have hv := hguard hpc v
    change (s.workers v).pc.wake ≠ _ ∧ (s.workers v).pc.wake ≠ _
    cases hpc : (s.workers v).pc <;> simp_all [WorkerPc.wake]
  | join k hpc | joined k hpc =>
    exact ⟨fun _ => hs.done (by simp [hpc]), fun _ => hs.awake (by simp [hpc, DestructorPc.notified])⟩

private theorem stranded_of_falling_asleep {s t : ThreadPool N π β} {a : PoolStep N π β}
    (h : s.step a = some t) (hguard : ¬s.NobodyFallingAsleep a) :
    ∃ w u, t.step (.worker w) = some u ∧ u.Stranded := by
  cases a with
  | destroy =>
    obtain ⟨hpc, w, hw⟩ : s.destructor = .notifyAll ∧ ∃ w, (s.workers w).pc = .block := by
      simpa [NobodyFallingAsleep] using hguard
    obtain rfl : { s.wakeAll with destructor := .join 0 } = t := by
      simpa [step, destructorStep, hpc] using h
    have hblock : ((s.wakeAll).workers w).pc = .block := by simp [hw, WorkerPc.wake]
    refine ⟨w, _, by simp only [step, workerStep, hblock]; rfl, rfl, w, setPc_pc_self _ _ _⟩
  | worker | spurious | startPush | pusher | notifyOne => exact absurd trivial hguard

/-- Shutdown strands nobody as long as no worker is falling asleep when the destructor executes
`notify_all`; when one is, its next step strands it. -/
theorem shutdown_strands_nobody (N : Nat) (π β : Type) [DecidableEq π] :
    (∀ as, (poolMachine N π β).Guarded NobodyFallingAsleep (.init N π β) as →
      (poolMachine N π β).Always (fun s => ¬s.Stranded) (.init N π β) as) ∧
    ∀ s a t, (poolMachine N π β).step s a = some t → ¬s.NobodyFallingAsleep a →
      ∃ w u, (poolMachine N π β).step t (.worker w) = some u ∧ u.Stranded := by
  refine ⟨fun as hguarded => ?_, fun s a t => stranded_of_falling_asleep⟩
  have hreleased : (init N π β).Released := ⟨fun h => absurd rfl h, fun h => nomatch h⟩
  refine (hguarded.always (P := Released) (fun s a t h hg => released_step h hg) hreleased).mono ?_
  rintro s hs ⟨hnotified, w, hw⟩
  exact (hs.awake hnotified w).1 hw

/-- A whole shutdown of a pool whose worker is already blocked. -/
theorem shutdown_strands_nobody_blocked_worker :
    (poolMachine 1 Unit Unit).Always (fun s => ¬s.Stranded) (.init 1 Unit Unit)
      [.worker 0, .worker 0, .worker 0, .worker 0, .destroy, .destroy, .worker 0, .worker 0,
        .worker 0, .worker 0, .destroy, .destroy] :=
  (shutdown_strands_nobody 1 Unit Unit).1 _ (by decide)

/-- The worker has found the deque empty and `done` unset when the destructor sets `done` and
notifies; then it blocks. -/
theorem worker_stranded_by_shutdown :
    ¬∀ s, (poolMachine 1 Unit Unit).Reaches (.init 1 Unit Unit) s → ¬s.Stranded := by
  intro h
  have hstate : ((poolMachine 1 Unit Unit).run (.init 1 Unit Unit)
      [.worker 0, .worker 0, .worker 0, .destroy, .destroy, .worker 0]).any
      (fun s => s.destructor.notified && (s.workers 0).pc == .waiting false) = true := by decide
  obtain ⟨s, hrun, hs⟩ := (Option.any_eq_true _ _).mp hstate
  simp only [Bool.and_eq_true, beq_iff_eq] at hs
  exact h s ⟨_, hrun⟩ ⟨hs.1, 0, hs.2⟩

end ThreadPool

end PetProject.DbModule
