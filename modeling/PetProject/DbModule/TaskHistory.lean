import PetProject.DbModule.ThreadPool
import PetProject.Framework.Line

/-!
# What happens to a task

Every task that was pushed stands in the deque, is with one worker or has been finished; it is
called once; and the order in which tasks leave the deque is settled when they are pushed.
-/

namespace PetProject.DbModule

open Framework

namespace ThreadPool

variable {N : Nat} {π β : Type}

/-- The tasks in the order in which they left the deque, and the deque. -/
def line (s : ThreadPool N π β) : Line Nat := ⟨s.pulled, s.taskDeque.map Task.id⟩

inductive Place (N : Nat)
  | deque
  | worker (w : Fin N)
  | finished

/-- The task with the number `i` is at the place. -/
def At (s : ThreadPool N π β) (i : Nat) : Place N → Prop
  | .deque => i ∈ s.taskDeque.map Task.id
  | .worker w => (s.workers w).current = some i
  | .finished => i ∈ s.finished

/-- The tasks are numbered by their pushes, and a `push_task_back` places its task behind all
earlier ones. -/
structure Numbered (s : ThreadPool N π β) : Prop where
  nodup : s.line.all.Nodup
  mem : ∀ i, i ∈ s.line.all ↔ i < s.pushed.length
  back : ∀ i j, i < j → (s.pushed[j]?).map Prod.fst = some false → Line.Before i j s.line.all

private theorem line_enqueue [DecidableEq π] (s : ThreadPool N π β) (p : π) (front : Bool) (body : β) :
    ((s.enqueue front body).setPusher p .unlock).line =
      if front then s.line.pushFront s.pushed.length else s.line.pushBack s.pushed.length := by
  cases front with
  | true => rfl
  | false => simp [line, Line.pushBack, ThreadPool.enqueue, setPusher]

private theorem line_step [DecidableEq π] {s t : ThreadPool N π β} {a : PoolStep N π β} (h : s.step a = some t)
    (hs : s.Numbered) : s.line.Next t.line := by
  cases fires h with
  | pullTask w u us hpc hdeque =>
    exact .pop u.id (us.map Task.id) (by simp [line, hdeque])
  | enqueue p front body hpc =>
    have hfresh : s.pushed.length ∉ s.line.all := by simp [hs.mem]
    rw [line_enqueue]
    split
    · exact .front s.pushed.length hfresh
    · exact .back s.pushed.length hfresh
  | _ => exact .stay

private theorem pushed_step [DecidableEq π] {s t : ThreadPool N π β} {a : PoolStep N π β}
    (h : s.step a = some t) :
    (t.pushed = s.pushed ∧ ∀ i, i ∈ t.line.all ↔ i ∈ s.line.all) ∨
      ∃ front body, t.pushed = s.pushed ++ [(front, body)] ∧
        t.line = if front then s.line.pushFront s.pushed.length
          else s.line.pushBack s.pushed.length := by
  cases fires h with
  | enqueue p front body hpc => exact Or.inr ⟨front, body, rfl, line_enqueue s p front body⟩
  | pullTask w u us hpc hdeque =>
    refine Or.inl ⟨rfl, fun i => ?_⟩
    simp [line, Line.all, hdeque]
  | _ => exact Or.inl ⟨rfl, fun _ => Iff.rfl⟩

theorem pushed_prefix [DecidableEq π] {s t : ThreadPool N π β} {a : PoolStep N π β}
    (h : s.step a = some t) : s.pushed <+: t.pushed := by
  rcases pushed_step h with ⟨hpushed, -⟩ | ⟨front, body, hpushed, -⟩
  · rw [hpushed]
  · rw [hpushed]
    exact List.prefix_append _ _

private theorem numbered_init : (init N π β).Numbered where
  nodup := List.nodup_nil
  mem i := by simp [line, Line.all, init]
  back i j _ hj := by simp [init] at hj

private theorem numbered_step [DecidableEq π] {s t : ThreadPool N π β} {a : PoolStep N π β} (h : s.step a = some t)
    (hs : s.Numbered) : t.Numbered := by
  have hnext := line_step h hs
  have hnodup := hnext.nodup hs.nodup
  rcases pushed_step h with ⟨hpushed, hmem⟩ | ⟨front, body, hpushed, hline⟩
  · refine ⟨hnodup, fun i => ?_, fun i j hij hj => ?_⟩
    · rw [hmem, hs.mem, hpushed]
    · rw [hpushed] at hj
      exact hnext.before (hs.back i j hij hj)
  · have hall : ∀ i, i ∈ t.line.all ↔ i = s.pushed.length ∨ i ∈ s.line.all := by
      intro i
      rw [hline]
      split <;> simp
    refine ⟨hnodup, fun i => ?_, fun i j hij hj => ?_⟩
    · rw [hall, hs.mem, hpushed, List.length_append, List.length_singleton]
      omega
    · have hlength : j < s.pushed.length + 1 := by
        by_contra hlong
        rw [hpushed, List.getElem?_eq_none (by simp; omega)] at hj
        exact nomatch hj
      rcases Nat.lt_succ_iff_lt_or_eq.mp hlength with hold | rfl
      · rw [hpushed, List.getElem?_append_left hold] at hj
        exact hnext.before (hs.back i j hij hj)
      · rw [hpushed, List.getElem?_concat_length] at hj
        have hfront : front = false := by simpa using hj
        rw [hline, hfront]
        exact Line.before_pushBack ((hs.mem i).mpr hij)

/-! ## The tasks of the workers -/

/-- What a step does to the tasks that have left the deque. -/
inductive TaskStep (s t : ThreadPool N π β) : Prop
  | stay (hcurrent : ∀ v, (t.workers v).current = (s.workers v).current)
      (hrunning : ∀ v, (t.workers v).pc = .running ↔ (s.workers v).pc = .running)
      (hpulled : t.pulled = s.pulled) (hcalls : t.calls = s.calls)
      (hfinished : t.finished = s.finished)
  | pull (w : Fin N) (i : Nat) (hidle : (s.workers w).current = none)
      (hi : i ∈ s.taskDeque.map Task.id) (hcurrent : (t.workers w).current = some i)
      (hothers : ∀ v, v ≠ w → t.workers v = s.workers v)
      (hpulled : t.pulled = s.pulled ++ [i]) (hcalls : t.calls = s.calls)
      (hfinished : t.finished = s.finished)
  | call (w : Fin N) (i : Nat) (hpc : (s.workers w).pc ≠ .running)
      (hi : (s.workers w).current = some i) (hrunning : (t.workers w).pc = .running)
      (hcurrent : ∀ v, (t.workers v).current = (s.workers v).current)
      (hothers : ∀ v, v ≠ w → t.workers v = s.workers v)
      (hpulled : t.pulled = s.pulled) (hcalls : t.calls = s.calls ++ [i])
      (hfinished : t.finished = s.finished)
  | finish (w : Fin N) (i : Nat) (hi : (s.workers w).current = some i)
      (hcurrent : (t.workers w).current = none)
      (hothers : ∀ v, v ≠ w → t.workers v = s.workers v)
      (hpulled : t.pulled = s.pulled) (hcalls : t.calls = s.calls)
      (hfinished : t.finished = s.finished ++ [i])

private theorem setPc_current (s : ThreadPool N π β) {w : Fin N} {pc : WorkerPc}
    (hbusy : pc.busy = (s.workers w).pc.busy) (v : Fin N) :
    ((s.setPc w pc).workers v).current = (s.workers v).current := by
  by_cases hvw : v = w
  · subst hvw
    simp [Worker.current, hbusy]
  · simp [Worker.current, setPc_pc_of_ne s hvw]

private theorem setPc_running (s : ThreadPool N π β) {w : Fin N} {pc : WorkerPc}
    (hpc : pc ≠ .running) (hold : (s.workers w).pc ≠ .running) (v : Fin N) :
    ((s.setPc w pc).workers v).pc = .running ↔ (s.workers v).pc = .running := by
  by_cases hvw : v = w
  · subst hvw
    simp [hpc, hold]
  · rw [setPc_pc_of_ne s hvw]

private theorem setPc_of_ne (s : ThreadPool N π β) {w v : Fin N} (h : v ≠ w) (pc : WorkerPc) :
    (s.setPc w pc).workers v = s.workers v := by
  simp [setPc, h]

private theorem taskStep [DecidableEq π] {s t : ThreadPool N π β} {a : PoolStep N π β} (h : s.step a = some t) :
    s.TaskStep t := by
  cases fires h with
  | whileTest w hpc | doneTest w hpc =>
    refine .stay (setPc_current s ?_) (setPc_running s ?_ (by simp [hpc])) rfl rfl rfl
    · rw [hpc]
      split <;> rfl
    · split <;> simp
  | lock w hpc hfree =>
    refine .stay (setPc_current _ ?_) (setPc_running _ (by simp) ?_) rfl rfl rfl
    · rcases hpc with hpc | hpc <;> simp [hpc, WorkerPc.busy]
    · rcases hpc with hpc | hpc <;> simp [hpc]
  | ready w hpc | notReady w hpc | block w hpc | unlock w hpc | leave w hpc | spurious w hpc =>
    exact .stay (setPc_current _ (by simp [hpc, WorkerPc.busy]))
      (setPc_running _ (by simp) (by simp [hpc])) rfl rfl rfl
  | notifyOne p w _ hw =>
    exact .stay (setPc_current s (by simp [hw, WorkerPc.busy]))
      (setPc_running s (by simp) (by simp [hw])) rfl rfl rfl
  | pullTask w u us hpc hdeque =>
    refine .pull w u.id (by simp [Worker.current, hpc, WorkerPc.busy]) (by simp [hdeque])
      (by simp [Worker.current, WorkerPc.busy]) (fun v hvw => ?_) rfl rfl rfl
    simp [hvw]
  | callTask w u hpc htask =>
    refine .call w u.id (by simp [hpc]) (by simp [Worker.current, hpc, htask, WorkerPc.busy])
      (by simp) (setPc_current _ (by simp [hpc, WorkerPc.busy]))
      (fun v hvw => setPc_of_ne _ hvw _) rfl rfl rfl
  | finish w u hpc htask =>
    exact .finish w u.id (by simp [Worker.current, hpc, htask, WorkerPc.busy])
      (by simp [Worker.current, WorkerPc.busy]) (fun v hvw => setPc_of_ne _ hvw _) rfl rfl rfl
  | startPush | pushLock | enqueue | pushUnlock | notifyNobody | storeDone | join | joined =>
    exact .stay (fun _ => rfl) (fun _ => Iff.rfl) rfl rfl rfl
  | notifyAll hpc =>
    refine .stay (fun v => ?_) (fun v => ?_) rfl rfl rfl
    · change Worker.current ⟨(s.workers v).pc.wake, (s.workers v).task⟩ = _
      simp [Worker.current]
    · change (s.workers v).pc.wake = .running ↔ _
      cases (s.workers v).pc <;> simp [WorkerPc.wake]

/-- A task that has left the deque is with one worker until it is finished, and is called
there once. -/
structure Placed (s : ThreadPool N π β) : Prop where
  running : ∀ w i, (s.workers w).current = some i → i ∈ s.pulled ∧ i ∉ s.finished
  unique : ∀ v w i, (s.workers v).current = some i → (s.workers w).current = some i → v = w
  settled : ∀ i ∈ s.pulled, i ∈ s.finished ∨ ∃ w, (s.workers w).current = some i
  finished : ∀ i ∈ s.finished, i ∈ s.pulled
  finishedOnce : s.finished.Nodup
  called : ∀ i ∈ s.calls, i ∈ s.pulled
  calledOnce : s.calls.Nodup
  uncalled : ∀ w i, (s.workers w).current = some i → (s.workers w).pc ≠ .running → i ∉ s.calls

private theorem placed_init : (init N π β).Placed := by
  constructor <;> simp [init, Worker.current, WorkerPc.busy]

private theorem placed_pull {s t : ThreadPool N π β} (hs : s.Placed) (hline : s.line.all.Nodup)
    {w : Fin N} {i : Nat} (hidle : (s.workers w).current = none)
    (hi : i ∈ s.taskDeque.map Task.id) (hcurrent : (t.workers w).current = some i)
    (hothers : ∀ v, v ≠ w → t.workers v = s.workers v)
    (hpulled : t.pulled = s.pulled ++ [i]) (hcalls : t.calls = s.calls)
    (hfinished : t.finished = s.finished) : t.Placed := by
  have hfresh : i ∉ s.pulled := fun hmem => List.disjoint_of_nodup_append hline hmem hi
  have hcases : ∀ v j, (t.workers v).current = some j →
      (v = w ∧ j = i) ∨ (v ≠ w ∧ (s.workers v).current = some j) := by
    intro v j hj
    by_cases hvw : v = w
    · subst hvw
      exact Or.inl ⟨rfl, Option.some.inj (hj.symm.trans hcurrent)⟩
    · exact Or.inr ⟨hvw, hothers v hvw ▸ hj⟩
  refine ⟨?_, ?_, ?_, ?_, hfinished ▸ hs.finishedOnce, ?_, hcalls ▸ hs.calledOnce, ?_⟩
  · intro v j hj
    rw [hpulled, hfinished]
    rcases hcases v j hj with ⟨-, rfl⟩ | ⟨-, hj⟩
    · exact ⟨by simp, fun hmem => hfresh (hs.finished j hmem)⟩
    · exact ⟨List.mem_append_left _ (hs.running v j hj).1, (hs.running v j hj).2⟩
  · intro u v j hu hv
    rcases hcases u j hu with ⟨rfl, rfl⟩ | ⟨-, hu⟩ <;> rcases hcases v j hv with ⟨rfl, hji⟩ | ⟨-, hv⟩
    · rfl
    · exact absurd (hs.running v j hv).1 hfresh
    · exact absurd (hji ▸ (hs.running u j hu).1) hfresh
    · exact hs.unique u v j hu hv
  · intro j hj
    rw [hpulled, List.mem_append, List.mem_singleton] at hj
    rw [hfinished]
    rcases hj with hj | rfl
    · refine (hs.settled j hj).imp id fun ⟨v, hv⟩ => ⟨v, ?_⟩
      have hvw : v ≠ w := by
        rintro rfl
        simp [hidle] at hv
      rw [hothers v hvw, hv]
    · exact Or.inr ⟨w, hcurrent⟩
  · intro j hj
    rw [hpulled]
    exact List.mem_append_left _ (hs.finished j (hfinished ▸ hj))
  · intro j hj
    rw [hpulled]
    exact List.mem_append_left _ (hs.called j (hcalls ▸ hj))
  · intro v j hj hpc
    rw [hcalls]
    rcases hcases v j hj with ⟨-, rfl⟩ | ⟨hvw, hj⟩
    · exact fun hmem => hfresh (hs.called j hmem)
    · exact hs.uncalled v j hj (hothers v hvw ▸ hpc)

private theorem placed_finish {s t : ThreadPool N π β} (hs : s.Placed) {w : Fin N} {i : Nat}
    (hi : (s.workers w).current = some i) (hcurrent : (t.workers w).current = none)
    (hothers : ∀ v, v ≠ w → t.workers v = s.workers v) (hpulled : t.pulled = s.pulled)
    (hcalls : t.calls = s.calls) (hfinished : t.finished = s.finished ++ [i]) : t.Placed := by
  have hcases : ∀ v j, (t.workers v).current = some j → v ≠ w ∧ (s.workers v).current = some j := by
    intro v j hj
    have hvw : v ≠ w := by
      rintro rfl
      simp [hcurrent] at hj
    exact ⟨hvw, hothers v hvw ▸ hj⟩
  have hrunning := hs.running w i hi
  refine ⟨?_, ?_, ?_, ?_, ?_, ?_, hcalls ▸ hs.calledOnce, ?_⟩
  · intro v j hj
    obtain ⟨hvw, hj⟩ := hcases v j hj
    rw [hpulled, hfinished, List.mem_append, List.mem_singleton, not_or]
    refine ⟨(hs.running v j hj).1, (hs.running v j hj).2, ?_⟩
    rintro rfl
    exact hvw (hs.unique v w j hj hi)
  · intro u v j hu hv
    exact hs.unique u v j (hcases u j hu).2 (hcases v j hv).2
  · intro j hj
    rw [hfinished, List.mem_append, List.mem_singleton]
    rcases hs.settled j (hpulled ▸ hj) with hj | ⟨v, hv⟩
    · exact Or.inl (Or.inl hj)
    · by_cases hvw : v = w
      · subst hvw
        exact Or.inl (Or.inr (Option.some.inj (hv.symm.trans hi)))
      · exact Or.inr ⟨v, by rw [hothers v hvw, hv]⟩
  · intro j hj
    rw [hfinished, List.mem_append, List.mem_singleton] at hj
    rw [hpulled]
    rcases hj with hj | rfl
    · exact hs.finished j hj
    · exact hrunning.1
  · rw [hfinished, ← List.concat_eq_append]
    exact hs.finishedOnce.concat hrunning.2
  · intro j hj
    exact hpulled ▸ hs.called j (hcalls ▸ hj)
  · intro v j hj hpc
    obtain ⟨hvw, hj⟩ := hcases v j hj
    exact hcalls ▸ hs.uncalled v j hj (hothers v hvw ▸ hpc)

private theorem placed_call {s t : ThreadPool N π β} (hs : s.Placed) {w : Fin N} {i : Nat}
    (hpc : (s.workers w).pc ≠ .running) (hi : (s.workers w).current = some i)
    (hrunning : (t.workers w).pc = .running)
    (hcurrent : ∀ v, (t.workers v).current = (s.workers v).current)
    (hothers : ∀ v, v ≠ w → t.workers v = s.workers v) (hpulled : t.pulled = s.pulled)
    (hcalls : t.calls = s.calls ++ [i]) (hfinished : t.finished = s.finished) : t.Placed := by
  refine ⟨?_, ?_, ?_, ?_, ?_, ?_, ?_, ?_⟩
  · intro v j hj
    exact hpulled ▸ hfinished ▸ hs.running v j (hcurrent v ▸ hj)
  · intro u v j hu hv
    exact hs.unique u v j (hcurrent u ▸ hu) (hcurrent v ▸ hv)
  · intro j hj
    rw [hfinished]
    simpa only [hcurrent] using hs.settled j (hpulled ▸ hj)
  · exact hpulled ▸ hfinished ▸ hs.finished
  · exact hfinished ▸ hs.finishedOnce
  · intro j hj
    rw [hcalls, List.mem_append, List.mem_singleton] at hj
    rw [hpulled]
    rcases hj with hj | rfl
    · exact hs.called j hj
    · exact (hs.running w j hi).1
  · rw [hcalls, ← List.concat_eq_append]
    exact hs.calledOnce.concat (hs.uncalled w i hi hpc)
  · intro v j hj hv
    have hvw : v ≠ w := by
      rintro rfl
      exact hv hrunning
    rw [hcurrent] at hj
    rw [hcalls, List.mem_append, List.mem_singleton, not_or]
    refine ⟨hs.uncalled v j hj (hothers v hvw ▸ hv), ?_⟩
    rintro rfl
    exact hvw (hs.unique v w j hj hi)

private theorem placed_step [DecidableEq π] {s t : ThreadPool N π β} {a : PoolStep N π β} (h : s.step a = some t)
    (hline : s.line.all.Nodup) (hs : s.Placed) : t.Placed := by
  cases taskStep h with
  | stay hcurrent hrunning hpulled hcalls hfinished =>
    constructor
    · simpa only [hcurrent, hpulled, hfinished] using hs.running
    · simpa only [hcurrent] using hs.unique
    · simpa only [hcurrent, hpulled, hfinished] using hs.settled
    · simpa only [hpulled, hfinished] using hs.finished
    · exact hfinished ▸ hs.finishedOnce
    · simpa only [hpulled, hcalls] using hs.called
    · exact hcalls ▸ hs.calledOnce
    · simpa only [hcurrent, hcalls, ne_eq, hrunning] using hs.uncalled
  | pull w i hidle hi hcurrent hothers hpulled hcalls hfinished =>
    exact placed_pull hs hline hidle hi hcurrent hothers hpulled hcalls hfinished
  | call w i hpc hi hrunning hcurrent hothers hpulled hcalls hfinished =>
    exact placed_call hs hpc hi hrunning hcurrent hothers hpulled hcalls hfinished
  | finish w i hi hcurrent hothers hpulled hcalls hfinished =>
    exact placed_finish hs hi hcurrent hothers hpulled hcalls hfinished

/-! ## The bodies of the tasks -/

/-- Every task in the deque or with a worker carries the body that was pushed under its
number. -/
structure Faithful (s : ThreadPool N π β) : Prop where
  deque : ∀ t ∈ s.taskDeque, (s.pushed[t.id]?).map Prod.snd = some t.body
  workers : ∀ w t, (s.workers w).task = some t → (s.pushed[t.id]?).map Prod.snd = some t.body

theorem faithful_init : (init N π β).Faithful := by
  constructor <;> simp [init]

private theorem getElem?_map_append {l l' : List (Bool × β)} {i : Nat} {body : β}
    (h : (l[i]?).map Prod.snd = some body) : ((l ++ l')[i]?).map Prod.snd = some body := by
  obtain ⟨x, hx, rfl⟩ := Option.map_eq_some_iff.mp h
  obtain ⟨hi, -⟩ := List.getElem?_eq_some_iff.mp hx
  rw [List.getElem?_append_left hi, hx]
  rfl

theorem faithful_step [DecidableEq π] {s t : ThreadPool N π β} {a : PoolStep N π β}
    (h : s.step a = some t) (hs : s.Faithful) : t.Faithful := by
  have hsetPc : ∀ {w : Fin N} {pc : WorkerPc} {v : Fin N} {u : Task β},
      ((s.setPc w pc).workers v).task = some u → (s.pushed[u.id]?).map Prod.snd = some u.body := by
    intro w pc v u hu
    rw [setPc_task] at hu
    exact hs.workers v u hu
  cases fires h with
  | pullTask w u us hpc hdeque =>
    have hdequeue := List.forall_mem_cons.mp (hdeque ▸ hs.deque)
    refine ⟨hdequeue.2, fun v x hx => ?_⟩
    by_cases hvw : v = w
    · subst hvw
      obtain rfl : u = x := by simpa using hx
      exact hdequeue.1
    · exact hs.workers v x (by simpa [hvw] using hx)
  | enqueue p front body hpc =>
    have hnew : ((s.pushed ++ [(front, body)])[s.pushed.length]?).map Prod.snd = some body := by
      simp
    refine ⟨fun x hx => ?_, fun v x hx => getElem?_map_append (hs.workers v x hx)⟩
    have hmem : x = ⟨s.pushed.length, body⟩ ∨ x ∈ s.taskDeque := by
      cases front with
      | true => exact List.mem_cons.mp hx
      | false => exact (List.mem_append.mp hx).symm.imp List.mem_singleton.mp id
    rcases hmem with rfl | hold
    · exact hnew
    · exact getElem?_map_append (hs.deque x hold)
  | startPush | pushLock | pushUnlock | notifyNobody | storeDone | join | joined =>
    exact ⟨hs.deque, hs.workers⟩
  | notifyAll => exact ⟨hs.deque, fun v x hx => hs.workers v x (by simpa using hx)⟩
  | notifyOne => exact ⟨hs.deque, fun v x hx => hsetPc hx⟩
  | _ => exact ⟨hs.deque, fun v x hx => hsetPc hx⟩

/-- The pushes that the callers have begun, in the case of a single caller. -/
def begun (s : ThreadPool N Unit β) : List (Bool × β) := s.pushed ++ (s.pushers ()).pending

theorem begun_step {s t : ThreadPool N Unit β} {a : PoolStep N Unit β} (h : s.step a = some t) :
    t.begun = s.begun ++ (match a with | .startPush _ front body => [(front, body)] | _ => []) := by
  cases fires h with
  | startPush p front body hpc => simp [begun, setPusher, hpc, PusherPc.pending]
  | pushLock p front body hpc => simp [begun, setPusher, hpc, PusherPc.pending]
  | enqueue p front body hpc => simp [begun, setPusher, ThreadPool.enqueue, hpc, PusherPc.pending]
  | pushUnlock p hpc => simp [begun, setPusher, hpc, PusherPc.pending]
  | notifyOne p w hpc hw => simp [begun, setPusher, setPc, hpc, PusherPc.pending]
  | notifyNobody p hpc hnobody => simp [begun, setPusher, hpc, PusherPc.pending]
  | _ => simp [begun, setPc, wakeAll]

theorem finished_step [DecidableEq π] {s t : ThreadPool N π β} {a : PoolStep N π β}
    (h : s.step a = some t) : t.finished = s.finished ∨
      ∃ w u, a = .worker w ∧ (s.workers w).pc = .running ∧ (s.workers w).task = some u ∧
        t.finished = s.finished ++ [u.id] := by
  cases fires h with
  | finish w u hpc htask => exact Or.inr ⟨w, u, rfl, hpc, htask, rfl⟩
  | _ => exact Or.inl rfl

/-! ## The accounting -/

private theorem existsUnique_place {s : ThreadPool N π β} (hnum : s.Numbered) (hs : s.Placed)
    {i : Nat} (hi : i < s.pushed.length) : ∃! q, s.At i q := by
  have hdisjoint := List.disjoint_of_nodup_append hnum.nodup
  have hpulled : ∀ q, s.At i q → q ≠ .deque → i ∈ s.pulled := by
    intro q hq hne
    cases q with
    | deque => exact absurd rfl hne
    | worker w => exact (hs.running w i hq).1
    | finished => exact hs.finished i hq
  rcases List.mem_append.mp ((hnum.mem i).mpr hi) with hgone | hqueue
  · rcases hs.settled i hgone with hfinished | ⟨w, hw⟩
    · refine ⟨.finished, hfinished, fun q hq => ?_⟩
      cases q with
      | deque => exact absurd hq (hdisjoint hgone)
      | worker v => exact absurd hfinished (hs.running v i hq).2
      | finished => rfl
    · refine ⟨.worker w, hw, fun q hq => ?_⟩
      cases q with
      | deque => exact absurd hq (hdisjoint hgone)
      | worker v => rw [hs.unique v w i hq hw]
      | finished => exact absurd hq (hs.running w i hw).2
  · refine ⟨.deque, hqueue, fun q hq => ?_⟩
    by_contra hne
    exact hdisjoint (hpulled q hq hne) hqueue

theorem history_init : (init N π β).Numbered ∧ (init N π β).Placed := ⟨numbered_init, placed_init⟩

theorem history_step [DecidableEq π] {s t : ThreadPool N π β} {a : PoolStep N π β}
    (h : s.step a = some t) (hs : s.Numbered ∧ s.Placed) : t.Numbered ∧ t.Placed :=
  ⟨numbered_step h hs.1, placed_step h hs.1.nodup hs.2⟩

private theorem pulled_before [DecidableEq π] {s t : ThreadPool N π β} {as : List (PoolStep N π β)}
    (hrun : (poolMachine N π β).run s as = some t) (hs : s.Numbered ∧ s.Placed) {i j : Nat}
    (hij : Line.Before i j s.line.all) (hj : j ∈ t.pulled) : [i, j].Sublist t.pulled := by
  have hlater := Machine.run_invariant
    (P := fun u : ThreadPool N π β => (u.Numbered ∧ u.Placed) ∧ Line.Before i j u.line.all)
    (fun u a v h hu => ⟨history_step h hu.1, (line_step h hu.1.1).before hu.2⟩) hrun ⟨hs, hij⟩
  exact Line.Before.gone hlater.2 hlater.1.1.nodup hj

/-- Every task that was pushed is in one place and is called at most once; a task pushed to the
back is pulled behind everything pushed earlier; and a task pushed to the front is pulled ahead
of everything that was in the deque when it was pushed. -/
theorem task_accounting [DecidableEq π] {as : List (PoolStep N π β)} {t : ThreadPool N π β}
    (hrun : (poolMachine N π β).run (.init N π β) as = some t) :
    (∀ i < t.pushed.length, (∃! q, t.At i q) ∧ t.calls.count i ≤ 1) ∧
      (t.taskDeque.map Task.id).Nodup ∧ t.pulled.Nodup ∧ t.finished.Nodup ∧
      (∀ i j, i < j → (t.pushed[j]?).map Prod.fst = some false → j ∈ t.pulled →
        [i, j].Sublist t.pulled) ∧
      ∀ bs p cs s body, as = bs ++ .pusher p :: cs →
        (poolMachine N π β).run (.init N π β) bs = some s → s.pushers p = .enqueue true body →
        ∀ i ∈ s.taskDeque.map Task.id, i ∈ t.pulled → [s.pushed.length, i].Sublist t.pulled := by
  have hhistory : ∀ {bs} {s : ThreadPool N π β},
      (poolMachine N π β).run (.init N π β) bs = some s → s.Numbered ∧ s.Placed :=
    fun h => Machine.run_invariant (P := fun u : ThreadPool N π β => u.Numbered ∧ u.Placed)
      (fun _ _ _ => history_step) h history_init
  obtain ⟨hnum, hplaced⟩ := hhistory hrun
  have hnodup := List.nodup_append.mp hnum.nodup
  refine ⟨fun i hi => ⟨existsUnique_place hnum hplaced hi, ?_⟩, hnodup.2.1, hnodup.1,
    hplaced.finishedOnce, fun i j hij hback hj => ?_, ?_⟩
  · exact List.nodup_iff_count_le_one.mp hplaced.calledOnce i
  · exact (hnum.back i j hij hback).gone hnum.nodup hj
  · rintro bs p cs s body rfl hbs hpc i hi hpulled
    have hs := hhistory hbs
    rw [Machine.run_append, hbs, Option.bind_some, Machine.run_cons_eq_some] at hrun
    obtain ⟨u, hu, hrest⟩ := hrun
    have hu : s.step (.pusher p) = some u := hu
    have hstate : (s.enqueue true body).setPusher p .unlock = u := by
      simpa [step, pusherStep, hpc] using hu
    have hfirst : Line.Before s.pushed.length i u.line.all := by
      rw [← hstate, line_enqueue]
      exact Line.before_pushFront hi
    exact pulled_before hrest (history_step hu hs) hfirst hpulled

/-- A task is pushed to either end of the deque before the worker pulls one. -/
def pushBothEnds : List (PoolStep 1 Unit Nat) :=
  [.startPush () false 10, .pusher (), .pusher (), .pusher (), .notifyOne () none,
    .startPush () true 11, .pusher (), .pusher (), .pusher (), .notifyOne () none,
    .worker 0, .worker 0, .worker 0, .worker 0, .worker 0, .worker 0, .worker 0, .worker 0]

theorem task_accounting_both_ends :
    ∃ t, (poolMachine 1 Unit Nat).run (.init 1 Unit Nat) pushBothEnds = some t ∧
      t.pulled = [1] ∧
      (∀ i < t.pushed.length, (∃! q, t.At i q) ∧ t.calls.count i ≤ 1) ∧
      (t.taskDeque.map Task.id).Nodup ∧ t.pulled.Nodup ∧ t.finished.Nodup ∧
      (∀ i j, i < j → (t.pushed[j]?).map Prod.fst = some false → j ∈ t.pulled →
        [i, j].Sublist t.pulled) ∧
      ∀ bs p cs s body, pushBothEnds = bs ++ .pusher p :: cs →
        (poolMachine 1 Unit Nat).run (.init 1 Unit Nat) bs = some s →
        s.pushers p = .enqueue true body →
        ∀ i ∈ s.taskDeque.map Task.id, i ∈ t.pulled → [s.pushed.length, i].Sublist t.pulled := by
  have hstate : ((poolMachine 1 Unit Nat).run (.init 1 Unit Nat) pushBothEnds).any
      (fun t => t.pulled == [1]) = true := by decide
  obtain ⟨t, hrun, ht⟩ := (Option.any_eq_true _ _).mp hstate
  exact ⟨t, hrun, beq_iff_eq.mp ht, task_accounting hrun⟩

end ThreadPool

end PetProject.DbModule
