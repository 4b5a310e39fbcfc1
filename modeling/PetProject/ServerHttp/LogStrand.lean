import PetProject.Framework.Machine
import PetProject.Framework.Strand
import PetProject.Logger.Restarts

/-!
# The log of the server

`Logger_srvr_http::make_record`, called by any number of threads: it reads the clock and posts a
handler to a strand of the `io_context`, which writes the record in three pieces. `~Server_HTTP`
stops the `io_context` before it makes its last record.
-/

namespace PetProject.ServerHttp

open Framework Logger

/-- A call of `make_record`, and whether the `io_context` had been stopped before it. -/
structure Call (ι : Type*) where
  thread : ι
  record : Record
  late : Bool

/-- The calls between the clock and the post, the strand, and the calls that have been made. -/
structure ServerLog (ι : Type*) where
  making : ι → Option (Call ι)
  strand : Strand (Call ι) Text
  calls : List (Call ι)

inductive ServerLogStep (ι : Type*)
  | readClock (i : ι) (now : Int) (event : Text)
  | post (i : ι)
  | next
  | write
  | stop
  deriving DecidableEq, Repr

/-- What the handler writes, piece by piece. -/
def pieces {ι : Type*} (putTime : Int → Text) (call : Call ι) : List Text :=
  [putTime call.record.time, call.record.event, ['\n']]

namespace ServerLog

variable {ι : Type*} [DecidableEq ι] (putTime : Int → Text)

def start (ι : Type*) : ServerLog ι := ⟨fun _ => none, .empty, []⟩

def step (s : ServerLog ι) : ServerLogStep ι → Option (ServerLog ι)
  | .readClock i now event =>
    if s.making i = none then
      let call : Call ι := ⟨i, ⟨now, event⟩, s.strand.stopped⟩
      some { s with
        making := Function.update s.making i (some call)
        calls := s.calls ++ [call] }
    else none
  | .post i => (s.making i).map fun call =>
      { s with making := Function.update s.making i none, strand := s.strand.post call }
  | .next => (s.strand.next (pieces putTime)).map fun strand => { s with strand := strand }
  | .write => s.strand.act.map fun strand => { s with strand := strand }
  | .stop => some { s with strand := s.strand.stop }

end ServerLog

def serverLogMachine (ι : Type*) [DecidableEq ι] (putTime : Int → Text) :
    Machine (ServerLog ι) (ServerLogStep ι) :=
  ⟨ServerLog.step putTime⟩

namespace ServerLog

variable {ι : Type*} [DecidableEq ι] {putTime : Int → Text} {s t : ServerLog ι}

/-- The calls of one thread. -/
def callsOf (i : ι) (calls : List (Call ι)) : List (Call ι) := calls.filter fun c => c.thread = i

/-- The handlers run one at a time; the calls of each thread have been posted in the order in which
it has made them, but for the one that it is making; and no call that came behind the stop is
written. -/
structure Orderly (putTime : Int → Text) (s : ServerLog ι) : Prop where
  serial : s.strand.Serial (pieces putTime)
  making : ∀ i, ∀ c ∈ s.making i, c.thread = i
  posted : ∀ i, callsOf i s.strand.posted ++ (s.making i).toList = callsOf i s.calls
  late : ∀ c ∈ s.strand.begun, c.late = false
  running : s.strand.stoppedAt = none → ∀ c ∈ s.calls, c.late = false
  stopped : ∀ n ∈ s.strand.stoppedAt,
    n ≤ s.strand.posted.length ∧ ∀ c ∈ s.strand.allowed, c.late = false

theorem orderly_start : (start ι).Orderly putTime where
  serial := Strand.serial_empty
  making := nofun
  posted _ := rfl
  late := nofun
  running _ := nofun
  stopped := nofun

private theorem Orderly.mem_calls (h : s.Orderly putTime) {c : Call ι} (hc : c ∈ s.strand.posted) :
    c ∈ s.calls := by
  have hmem : c ∈ callsOf c.thread s.strand.posted :=
    List.mem_filter.mpr ⟨hc, decide_eq_true rfl⟩
  have hcalls := List.mem_append_left (s.making c.thread).toList hmem
  rw [h.posted c.thread] at hcalls
  exact (List.mem_filter.mp hcalls).1

private theorem callsOf_append_singleton (i : ι) (calls : List (Call ι)) (c : Call ι) :
    callsOf i (calls ++ [c]) = if c.thread = i then callsOf i calls ++ [c] else callsOf i calls := by
  rw [callsOf, List.filter_append, List.filter_singleton]
  by_cases hi : c.thread = i
  · simp [hi, callsOf]
  · simp [hi, callsOf]

private theorem Orderly.late_of_allowed (h : s.Orderly putTime) {c : Call ι}
    (hc : c ∈ s.strand.allowed) : c.late = false := by
  cases hstopped : s.strand.stoppedAt with
  | none => exact h.running hstopped c (h.mem_calls (s.strand.allowed_prefix.subset hc))
  | some n => exact (h.stopped n hstopped).2 c hc

private theorem Orderly.advance (h : s.Orderly putTime) {strand : Strand (Call ι) Text}
    (hserial : strand.Serial (pieces putTime)) (hposted : strand.posted = s.strand.posted)
    (hlate : ∀ c ∈ strand.begun, c.late = false)
    (hstopped : strand.stoppedAt = s.strand.stoppedAt) :
    Orderly putTime { s with strand := strand } := by
  have hallowed : strand.allowed = s.strand.allowed := by
    rw [Strand.allowed, Strand.allowed, hstopped, hposted]
  refine ⟨hserial, h.making, fun i => ?_, hlate, fun hrunning => ?_, fun n hn => ?_⟩
  · rw [hposted]
    exact h.posted i
  · exact h.running (hstopped.symm.trans hrunning)
  · rw [hposted, hallowed]
    exact h.stopped n (hstopped.symm.trans hn)

private theorem orderly_readClock {i : ι} (h : s.Orderly putTime) (hfree : s.making i = none)
    {call : Call ι} (hthread : call.thread = i) (hlate : call.late = s.strand.stopped) :
    Orderly putTime { s with
      making := Function.update s.making i (some call)
      calls := s.calls ++ [call] } := by
  refine ⟨h.serial, fun j c hc => ?_, fun j => ?_, h.late, fun hrunning c hc => ?_, h.stopped⟩
  · dsimp only at hc
    by_cases hj : j = i
    · subst hj
      rw [Function.update_self] at hc
      rw [← Option.some.inj hc, hthread]
    · rw [Function.update_of_ne hj] at hc
      exact h.making j c hc
  · have hposted := h.posted j
    rw [callsOf_append_singleton, hthread]
    dsimp only
    by_cases hj : j = i
    · subst hj
      rw [hfree, Option.toList_none, List.append_nil] at hposted
      rw [Function.update_self, if_pos rfl, hposted]
      rfl
    · rw [Function.update_of_ne hj, if_neg (Ne.symm hj)]
      exact hposted
  · rcases List.mem_append.mp hc with hc | hc
    · exact h.running hrunning c hc
    · rw [List.mem_singleton.mp hc, hlate, Strand.stopped, hrunning]
      rfl

private theorem orderly_post {i : ι} {call : Call ι} (h : s.Orderly putTime)
    (hcall : s.making i = some call) :
    Orderly putTime { s with
      making := Function.update s.making i none
      strand := s.strand.post call } := by
  have hthread := h.making i call hcall
  refine ⟨h.serial.post call, fun j c hc => ?_, fun j => ?_, h.late, h.running, fun n hn => ?_⟩
  · dsimp only at hc
    by_cases hj : j = i
    · subst hj
      rw [Function.update_self] at hc
      cases hc
    · rw [Function.update_of_ne hj] at hc
      exact h.making j c hc
  · have hposted := h.posted j
    rw [Strand.posted_post, callsOf_append_singleton, hthread]
    dsimp only
    by_cases hj : j = i
    · subst hj
      rw [hcall, Option.toList_some] at hposted
      rw [Function.update_self, if_pos rfl, Option.toList_none, List.append_nil]
      exact hposted
    · rw [Function.update_of_ne hj, if_neg (Ne.symm hj)]
      exact hposted
  · have hn : s.strand.stoppedAt = some n := hn
    obtain ⟨hle, hallowed⟩ := h.stopped n hn
    have hkept := Strand.allowed_post_of_stopped hn hle call
    refine ⟨?_, fun c hc => hallowed c (hkept ▸ hc)⟩
    rw [Strand.posted_post, List.length_append]
    exact Nat.le_add_right_of_le hle

private theorem orderly_stop (h : s.Orderly putTime) :
    Orderly putTime { s with strand := s.strand.stop } := by
  refine ⟨h.serial.stop, h.making, h.posted, h.late, nofun, fun n hn => ?_⟩
  have hallowed : s.strand.stop.allowed = s.strand.allowed := s.strand.allowed_stop
  obtain rfl : s.strand.stoppedAt.getD s.strand.posted.length = n := Option.some.inj hn
  refine ⟨?_, fun c hc => h.late_of_allowed (hallowed ▸ hc)⟩
  cases hstopped : s.strand.stoppedAt with
  | none => exact le_rfl
  | some m => exact (h.stopped m hstopped).1

theorem orderly_step {a : ServerLogStep ι} (hstep : s.step putTime a = some t)
    (h : s.Orderly putTime) : t.Orderly putTime := by
  cases a with
  | readClock i now event =>
    unfold step at hstep
    dsimp only at hstep
    split at hstep
    case isFalse => cases hstep
    case isTrue hfree =>
      obtain rfl := Option.some.inj hstep
      exact orderly_readClock h hfree rfl rfl
  | post i =>
    obtain ⟨call, hcall, rfl⟩ := Option.map_eq_some_iff.mp hstep
    exact orderly_post h hcall
  | next =>
    obtain ⟨strand, hnext, rfl⟩ := Option.map_eq_some_iff.mp hstep
    obtain ⟨-, c, hallowed, -, hbegun, -, hstopped, -⟩ := Strand.next_spec hnext
    refine h.advance (h.serial.next hnext) (Strand.posted_next hnext) ?_ hstopped
    intro c' hc'
    rw [hbegun] at hc'
    rcases List.mem_append.mp hc' with hc' | hc'
    · exact h.late c' hc'
    · rw [List.mem_singleton.mp hc']
      exact h.late_of_allowed hallowed
  | write =>
    obtain ⟨strand, hact, rfl⟩ := Option.map_eq_some_iff.mp hstep
    obtain ⟨-, -, -, hbegun, -, hstopped⟩ := Strand.act_spec hact
    refine h.advance (h.serial.act hact) (Strand.posted_act hact) ?_ hstopped
    rw [hbegun]
    exact h.late
  | stop =>
    obtain rfl := Option.some.inj hstep
    exact orderly_stop h

private theorem stopped_step {a : ServerLogStep ι} (hstep : s.step putTime a = some t)
    (h : s.strand.stopped = true) : t.strand.stopped = true := by
  cases a with
  | readClock i now event =>
    unfold step at hstep
    dsimp only at hstep
    split at hstep
    case isTrue =>
      obtain rfl := Option.some.inj hstep
      exact h
    case isFalse => exact nomatch hstep
  | post i =>
    obtain ⟨call, -, rfl⟩ := Option.map_eq_some_iff.mp hstep
    exact h
  | next =>
    obtain ⟨strand, hnext, rfl⟩ := Option.map_eq_some_iff.mp hstep
    obtain ⟨-, -, -, -, -, -, hstopped, -⟩ := Strand.next_spec hnext
    rw [Strand.stopped, hstopped]
    exact h
  | write =>
    obtain ⟨strand, hact, rfl⟩ := Option.map_eq_some_iff.mp hstep
    obtain ⟨-, -, -, -, -, hstopped⟩ := Strand.act_spec hact
    rw [Strand.stopped, hstopped]
    exact h
  | stop =>
    obtain rfl := Option.some.inj hstep
    rfl

private theorem mem_posted_step {a : ServerLogStep ι} (hstep : s.step putTime a = some t)
    {c : Call ι} (hc : c ∈ s.strand.posted) : c ∈ t.strand.posted := by
  cases a with
  | readClock i now event =>
    unfold step at hstep
    dsimp only at hstep
    split at hstep
    case isTrue =>
      obtain rfl := Option.some.inj hstep
      exact hc
    case isFalse => exact nomatch hstep
  | post i =>
    obtain ⟨call, -, rfl⟩ := Option.map_eq_some_iff.mp hstep
    rw [Strand.posted_post]
    exact List.mem_append_left _ hc
  | next =>
    obtain ⟨strand, hnext, rfl⟩ := Option.map_eq_some_iff.mp hstep
    rwa [← Strand.posted_next hnext] at hc
  | write =>
    obtain ⟨strand, hact, rfl⟩ := Option.map_eq_some_iff.mp hstep
    rwa [← Strand.posted_act hact] at hc
  | stop =>
    obtain rfl := Option.some.inj hstep
    exact hc

/-- The call has been made: it is posted, or its thread is about to post it. -/
def Made (c : Call ι) (s : ServerLog ι) : Prop :=
  c ∈ s.strand.posted ∨ s.making c.thread = some c

private theorem made_step {a : ServerLogStep ι} (hstep : s.step putTime a = some t) {c : Call ι}
    (h : Made c s) : Made c t := by
  rcases h with hposted | hmaking
  · exact Or.inl (mem_posted_step hstep hposted)
  cases a with
  | readClock i now event =>
    unfold step at hstep
    dsimp only at hstep
    split at hstep
    case isTrue hfree =>
      obtain rfl := Option.some.inj hstep
      have hne : c.thread ≠ i := by
        rintro rfl
        exact nomatch hfree.symm.trans hmaking
      exact Or.inr ((Function.update_of_ne hne _ _).trans hmaking)
    case isFalse => exact nomatch hstep
  | post i =>
    obtain ⟨call, hcall, rfl⟩ := Option.map_eq_some_iff.mp hstep
    by_cases hi : c.thread = i
    · obtain rfl : c = call := Option.some.inj (hmaking.symm.trans (hi ▸ hcall))
      refine Or.inl ?_
      rw [Strand.posted_post]
      exact List.mem_append_right _ (List.mem_singleton_self c)
    · exact Or.inr ((Function.update_of_ne hi _ _).trans hmaking)
  | next =>
    obtain ⟨strand, -, rfl⟩ := Option.map_eq_some_iff.mp hstep
    exact Or.inr hmaking
  | write =>
    obtain ⟨strand, -, rfl⟩ := Option.map_eq_some_iff.mp hstep
    exact Or.inr hmaking
  | stop =>
    obtain rfl := Option.some.inj hstep
    exact Or.inr hmaking

end ServerLog

/-- Whatever the threads do, the text of the log is that of the first calls that have been posted,
one record behind the other, but for the pieces of the last one that are still to be written; and
the calls of each thread are posted in the order in which it makes them. -/
theorem log_records_stay_whole {ι : Type*} [DecidableEq ι] (putTime : Int → Text)
    (as : List (ServerLogStep ι)) :
    (serverLogMachine ι putTime).Always
      (fun s => s.strand.output ++ s.strand.current = s.strand.begun.flatMap (pieces putTime) ∧
        s.strand.begun <+: s.strand.posted ∧
        ∀ i, ServerLog.callsOf i s.strand.posted <+: ServerLog.callsOf i s.calls)
      (.start ι) as :=
  (Machine.always_of_step (fun _ _ _ => ServerLog.orderly_step) ServerLog.orderly_start as).mono
    fun _ h => ⟨h.serial, List.prefix_append _ _, fun i => ⟨_, h.posted i⟩⟩

/-- The record that `~Server_HTTP` makes. -/
def stoppingRecord (now : Int) (serverName : Text) : Record :=
  ⟨now, serverName ++ " stopping...".toList⟩

/-- The record that the destructor makes, behind the stop of the `io_context`, is posted and never
written, whatever happens before, between and behind. -/
theorem stopping_record_is_lost {ι : Type*} [DecidableEq ι] (putTime : Int → Text)
    (before joining making behind : List (ServerLogStep ι)) (i : ι) (now : Int) (serverName : Text)
    {s : ServerLog ι}
    (hrun : (serverLogMachine ι putTime).run (.start ι)
      (before ++ .stop :: joining ++
        .readClock i now (stoppingRecord now serverName).event :: making ++
          .post i :: behind) = some s) :
    ∃ c ∈ s.strand.posted, c.thread = i ∧ c.record = stoppingRecord now serverName ∧
      c ∉ s.strand.begun := by
  let c : Call ι := ⟨i, stoppingRecord now serverName, true⟩
  have horderly : s.Orderly putTime :=
    Machine.run_invariant (fun _ _ _ => ServerLog.orderly_step) hrun ServerLog.orderly_start
  simp only [List.append_assoc, List.cons_append, Machine.run_append_eq_some,
    Machine.run_cons_eq_some] at hrun
  obtain ⟨t, -, u, hstop, v, hjoining, w, hread, x, hmaking, y, hpost, hbehind⟩ := hrun
  have hstopped : v.strand.stopped = true := by
    obtain rfl := Option.some.inj hstop
    exact Machine.run_invariant (P := fun v => v.strand.stopped = true)
      (fun _ _ _ => ServerLog.stopped_step) hjoining rfl
  have hmade : ServerLog.Made c w := by
    have hw := hread
    unfold serverLogMachine ServerLog.step at hw
    dsimp only at hw
    split at hw
    case isTrue =>
      obtain rfl := Option.some.inj hw
      rw [hstopped]
      exact Or.inr (Function.update_self i _ _)
    case isFalse => exact nomatch hw
  have hkept : ServerLog.Made c x :=
    Machine.run_invariant (P := ServerLog.Made c)
      (fun _ _ _ hstep hc => ServerLog.made_step hstep hc) hmaking hmade
  have hposted : c ∈ y.strand.posted := by
    have hpost : x.step putTime (.post i) = some y := hpost
    have hy := ServerLog.made_step hpost hkept
    obtain ⟨call, -, rfl⟩ := Option.map_eq_some_iff.mp hpost
    -- the thread has nothing left to post
    have hnone : Function.update x.making i none i = none := Function.update_self i _ _
    exact hy.resolve_right fun hcall => nomatch hnone.symm.trans hcall
  have hstill : c ∈ s.strand.posted :=
    Machine.run_invariant (P := fun v => c ∈ v.strand.posted)
      (fun _ _ _ hstep hc => ServerLog.mem_posted_step hstep hc) hbehind hposted
  exact ⟨c, hstill, rfl, rfl, fun hbegun => Bool.false_ne_true (horderly.late c hbegun).symm⟩

/-- The server starts and is stopped while its first record is written; the handler that waits
behind it is still run. -/
theorem stopping_record_is_lost_short_run :
    ∃ s : ServerLog Unit, (serverLogMachine Unit fun _ => []).run (.start Unit)
        ([.readClock () 1 "s starting...".toList, .post (), .next, .readClock () 2 [], .post ()] ++
          .stop :: [.write, .write, .write, .next, .write] ++
            .readClock () 3 (stoppingRecord 3 ['s']).event :: [.write] ++ .post () :: [.write]) =
              some s ∧
      ∃ c ∈ s.strand.posted, c.thread = () ∧ c.record = stoppingRecord 3 ['s'] ∧
        c ∉ s.strand.begun := by
  obtain ⟨s, hs⟩ := Option.isSome_iff_exists.mp
    (show ((serverLogMachine Unit fun _ => []).run (.start Unit)
      ([.readClock () 1 "s starting...".toList, .post (), .next, .readClock () 2 [], .post ()] ++
        .stop :: [.write, .write, .write, .next, .write] ++
          .readClock () 3 (stoppingRecord 3 ['s']).event :: [.write] ++
            .post () :: [.write])).isSome by decide +kernel)
  exact ⟨s, hs, stopping_record_is_lost (fun _ => []) _ _ _ _ () 3 ['s'] hs⟩

end PetProject.ServerHttp
