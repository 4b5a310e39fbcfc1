import PetProject.Framework.InputStream
import PetProject.Framework.Custody
import PetProject.Framework.Machine

/-!
# The console of the client

`Client_HTTP::Messaging`, shared by the threads that run the `io_context`. `synch_cin` reads a line
under the mutex `im`, into a `target` that each of its two instances has once in every thread.
`synch_cout` takes no mutex: it loads `current_cin_thread` to see whether somebody is being asked,
and loads it again to say who.
-/

namespace PetProject.ClientHttp

open Framework

/-- The instances of `synch_cin`: a target is asked for with a string, the name of a file with a
literal. -/
inductive Prompt
  | target
  | fileName
  deriving DecidableEq, Repr

/-- Where a thread stands in `synch_cin`, or between the two loads of `synch_cout`. -/
inductive ConsolePc
  | outside
  | lock (p : Prompt)
  | store (p : Prompt)
  | getline (p : Prompt)
  | clear (p : Prompt)
  | unlock (p : Prompt)
  | remind
  deriving DecidableEq, Repr

/-- The members of `Messaging`, standard input and the threads, with the values that `synch_cin`
has returned and the ids that `synch_cout` has printed, each in order. -/
structure Messaging (τ : Type*) where
  im : Option τ
  cin : InputStream
  currentCinThread : Option τ
  target : τ × Prompt → Text
  pc : τ → ConsolePc
  answers : List ((τ × Prompt) × Text)
  reminders : List (Option τ)

inductive MessagingStep (τ : Type*)
  | synchCin (t : τ) (p : Prompt)
  | synchCout (t : τ)
  | run (t : τ)
  deriving DecidableEq, Repr

namespace Messaging

variable {τ : Type*} [DecidableEq τ]

def init (τ : Type*) (cin : InputStream) : Messaging τ where
  im := none
  cin := cin
  currentCinThread := none
  target _ := []
  pc _ := .outside
  answers := []
  reminders := []

def setPc (s : Messaging τ) (t : τ) (pc : ConsolePc) : Messaging τ :=
  { s with pc := Function.update s.pc t pc }

/-- The next access of a thread to the mutex, the stream or the atomic. -/
def runStep (s : Messaging τ) (t : τ) : Option (Messaging τ) :=
  match s.pc t with
  | .outside => none
  | .lock p => if s.im = none then some (setPc { s with im := some t } t (.store p)) else none
  | .store p => some (setPc { s with currentCinThread := some t } t (.getline p))
  | .getline p =>
    let read := s.cin.getline (s.target (t, p))
    some (setPc { s with cin := read.2, target := Function.update s.target (t, p) read.1 } t
      (.clear p))
  | .clear p => some (setPc { s with currentCinThread := none } t (.unlock p))
  | .unlock p =>
    some (setPc { s with
      im := none, answers := s.answers ++ [((t, p), s.target (t, p))] } t .outside)
  | .remind => some (setPc { s with reminders := s.reminders ++ [s.currentCinThread] } t .outside)

def step (s : Messaging τ) : MessagingStep τ → Option (Messaging τ)
  | .synchCin t p => if s.pc t = .outside then some (s.setPc t (.lock p)) else none
  | .synchCout t =>
    if s.pc t = .outside then
      some (if s.currentCinThread = none then s else s.setPc t .remind)
    else none
  | .run t => s.runStep t

/-- The enabled steps. -/
inductive Fires (s : Messaging τ) : MessagingStep τ → Messaging τ → Prop
  | synchCin (t : τ) (p : Prompt) (hpc : s.pc t = .outside) :
      Fires s (.synchCin t p) (s.setPc t (.lock p))
  | nobody (t : τ) (hpc : s.pc t = .outside) : Fires s (.synchCout t) s
  | somebody (t : τ) (hpc : s.pc t = .outside) : Fires s (.synchCout t) (s.setPc t .remind)
  | lock (t : τ) (p : Prompt) (hpc : s.pc t = .lock p) (hfree : s.im = none) :
      Fires s (.run t) (setPc { s with im := some t } t (.store p))
  | store (t : τ) (p : Prompt) (hpc : s.pc t = .store p) :
      Fires s (.run t) (setPc { s with currentCinThread := some t } t (.getline p))
  | getline (t : τ) (p : Prompt) (hpc : s.pc t = .getline p) :
      Fires s (.run t) (setPc { s with
        cin := (s.cin.getline (s.target (t, p))).2
        target := Function.update s.target (t, p) (s.cin.getline (s.target (t, p))).1 } t
          (.clear p))
  | clear (t : τ) (p : Prompt) (hpc : s.pc t = .clear p) :
      Fires s (.run t) (setPc { s with currentCinThread := none } t (.unlock p))
  | unlock (t : τ) (p : Prompt) (hpc : s.pc t = .unlock p) :
      Fires s (.run t) (setPc { s with
        im := none, answers := s.answers ++ [((t, p), s.target (t, p))] } t .outside)
  | remind (t : τ) (hpc : s.pc t = .remind) :
      Fires s (.run t)
        (setPc { s with reminders := s.reminders ++ [s.currentCinThread] } t .outside)

theorem fires {s s' : Messaging τ} {a : MessagingStep τ} (h : s.step a = some s') :
    s.Fires a s' := by
  cases a with
  | synchCin t p =>
    rw [step] at h
    split at h
    case isTrue hpc => exact Option.some.inj h ▸ .synchCin t p hpc
    case isFalse => cases h
  | synchCout t =>
    rw [step] at h
    split at h
    case isTrue hpc =>
      rw [← Option.some.inj h]
      split
      · exact .nobody t hpc
      · exact .somebody t hpc
    case isFalse => cases h
  | run t =>
    change s.runStep t = some s' at h
    unfold runStep at h
    cases hpc : s.pc t with
    | outside => rw [hpc] at h; cases h
    | lock p =>
      rw [hpc] at h
      dsimp only at h
      split at h
      case isTrue hfree => exact Option.some.inj h ▸ .lock t p hpc hfree
      case isFalse => cases h
    | store p => rw [hpc] at h; exact Option.some.inj h ▸ .store t p hpc
    | getline p => rw [hpc] at h; exact Option.some.inj h ▸ .getline t p hpc
    | clear p => rw [hpc] at h; exact Option.some.inj h ▸ .clear t p hpc
    | unlock p => rw [hpc] at h; exact Option.some.inj h ▸ .unlock t p hpc
    | remind => rw [hpc] at h; exact Option.some.inj h ▸ .remind t hpc

end Messaging

def messagingMachine (τ : Type*) [DecidableEq τ] : Machine (Messaging τ) (MessagingStep τ) :=
  ⟨Messaging.step⟩

/-! ## One reader at a time -/

/-- The thread holds `im`. -/
def ConsolePc.inside : ConsolePc → Bool
  | .store _ | .getline _ | .clear _ | .unlock _ => true
  | _ => false

/-- The thread is being asked: it has stored its id and has not cleared it. -/
def ConsolePc.asked : ConsolePc → Bool
  | .getline _ | .clear _ => true
  | _ => false

/-- The prompt whose line the thread has read and has yet to return. -/
def ConsolePc.took : ConsolePc → Option Prompt
  | .clear p | .unlock p => some p
  | _ => none

private theorem ConsolePc.inside_of_asked {pc : ConsolePc} (h : pc.asked) : pc.inside := by
  cases pc <;> first | rfl | cases h

private theorem ConsolePc.inside_of_took {pc : ConsolePc} {p : Prompt} (h : pc.took = some p) :
    pc.inside := by
  cases pc <;> first | rfl | cases h

namespace Messaging

variable {τ : Type*} [DecidableEq τ] {lines : List Text} {s s' : Messaging τ}

def callers (s : Messaging τ) : List (τ × Prompt) := s.answers.map Prod.fst

/-- The owner of the mutex is the only reader, `current_cin_thread` is the thread that is being
asked, and every line has been returned but for the one that the owner may have just read. -/
structure Orderly (lines : List Text) (s : Messaging τ) : Prop where
  owned : Owned s.im fun t => (s.pc t).inside
  current : ∀ t, s.currentCinThread = some t ↔ (s.pc t).asked
  between : (∀ t, (s.pc t).took = none) → Read lines s.callers s.cin s.target
  during : ∀ t p, (s.pc t).took = some p → Read lines (s.callers ++ [(t, p)]) s.cin s.target
  inTurn : InTurn lines s.answers

private theorem orderly_init (τ : Type*) [DecidableEq τ] (cin : InputStream) :
    (init τ cin).Orderly cin.lines where
  owned _ h := by cases h
  current := by simp [init, ConsolePc.asked]
  between _ := ⟨rfl, fun _ => rfl⟩
  during _ _ h := by cases h
  inTurn _ _ _ h := by cases h

@[simp] theorem setPc_pc_self (s : Messaging τ) (t : τ) (pc : ConsolePc) :
    (s.setPc t pc).pc t = pc := by
  simp [setPc]

theorem setPc_pc_of_ne (s : Messaging τ) {t u : τ} (h : u ≠ t) (pc : ConsolePc) :
    (s.setPc t pc).pc u = s.pc u := by
  simp [setPc, h]

private theorem apply_setPc {β : Type} (f : ConsolePc → β) {t : τ} {pc : ConsolePc}
    (h : f pc = f (s.pc t)) (u : τ) : f ((s.setPc t pc).pc u) = f (s.pc u) := by
  by_cases hu : u = t
  · rw [hu, setPc_pc_self, h]
  · rw [setPc_pc_of_ne s hu]

namespace Orderly

variable {t : τ} {p : Prompt} {pc : ConsolePc}

theorem setPc (h : s.Orderly lines) (hinside : pc.inside = (s.pc t).inside)
    (hasked : pc.asked = (s.pc t).asked) (htook : pc.took = (s.pc t).took) :
    (s.setPc t pc).Orderly lines where
  owned := h.owned.keep fun u hu => apply_setPc ConsolePc.inside hinside u ▸ hu
  current u := by rw [apply_setPc ConsolePc.asked hasked u]; exact h.current u
  between hnone := h.between fun u => (apply_setPc ConsolePc.took htook u).symm.trans (hnone u)
  during u q hu := h.during u q ((apply_setPc ConsolePc.took htook u).symm.trans hu)
  inTurn := h.inTurn

theorem alone (h : s.Orderly lines) (ht : (s.pc t).inside) {u : τ} (hu : u ≠ t) :
    (s.pc u).inside = false :=
  Bool.eq_false_iff.mpr fun hinside => hu (h.owned.unique hinside ht)

theorem nobody (h : s.Orderly lines) (hfree : s.im = none) (u : τ) : (s.pc u).inside = false :=
  Bool.eq_false_iff.mpr fun hinside => by simpa [hfree] using h.owned u hinside

private theorem current_eq_none (h : s.Orderly lines) (hasked : ∀ u, (s.pc u).asked = false) :
    s.currentCinThread = none :=
  Option.eq_none_iff_forall_ne_some.mpr fun u hu => by simpa [hasked u] using (h.current u).mp hu

private theorem of_alone (hpc : s'.pc = Function.update s.pc t pc)
    (halone : ∀ u, u ≠ t → (s.pc u).inside = false) (him : pc.inside → s'.im = some t)
    (hcurrent : s'.currentCinThread = if pc.asked then some t else none)
    (hread : Read lines (pc.took.elim s'.callers fun p => s'.callers ++ [(t, p)]) s'.cin s'.target)
    (hturn : InTurn lines s'.answers) : s'.Orderly lines := by
  have hself : s'.pc t = pc := by rw [hpc, Function.update_self]
  have hother : ∀ u, u ≠ t → (s'.pc u).inside = false := fun u hu => by
    rw [hpc, Function.update_of_ne hu]
    exact halone u hu
  refine ⟨?_, ?_, ?_, ?_, hturn⟩
  · intro u hu
    by_cases hut : u = t
    · subst hut
      exact him (hself ▸ hu)
    · exact absurd hu (by simp [hother u hut])
  · intro u
    rw [hcurrent]
    by_cases hut : u = t
    · subst hut
      rw [hself]
      simp
    · refine iff_of_false ?_ fun hasked => ?_
      · split
        · exact fun heq => hut (Option.some.inj heq).symm
        · exact fun heq => by cases heq
      · exact absurd (ConsolePc.inside_of_asked hasked) (by simp [hother u hut])
  · intro hnone
    have htook : pc.took = none := hself ▸ hnone t
    simpa [htook] using hread
  · intro u q hu
    by_cases hut : u = t
    · subst hut
      have htook : pc.took = some q := hself ▸ hu
      simpa [htook] using hread
    · exact absurd (ConsolePc.inside_of_took hu) (by simp [hother u hut])

private theorem read_of_not_took (h : s.Orderly lines) (htook : (s.pc t).took = none)
    (halone : ∀ u, u ≠ t → (s.pc u).inside = false) :
    Read lines s.callers s.cin s.target := by
  refine h.between fun u => ?_
  by_cases hut : u = t
  · rw [hut, htook]
  · refine Option.eq_none_iff_forall_ne_some.mpr fun q hq => ?_
    exact absurd (ConsolePc.inside_of_took hq) (by simp [halone u hut])

end Orderly

theorem orderly_step {a : MessagingStep τ} (hstep : s.step a = some s') (h : s.Orderly lines) :
    s'.Orderly lines := by
  cases fires hstep with
  | synchCin t p hpc => exact h.setPc (by rw [hpc]; rfl) (by rw [hpc]; rfl) (by rw [hpc]; rfl)
  | nobody t hpc => exact h
  | somebody t hpc => exact h.setPc (by rw [hpc]; rfl) (by rw [hpc]; rfl) (by rw [hpc]; rfl)
  | remind t hpc =>
    have hout : (s.setPc t .outside).Orderly lines :=
      h.setPc (by rw [hpc]; rfl) (by rw [hpc]; rfl) (by rw [hpc]; rfl)
    exact ⟨hout.owned, hout.current, hout.between, hout.during, hout.inTurn⟩
  | lock t p hpc hfree =>
    have halone := fun u (_ : u ≠ t) => h.nobody hfree u
    have hread : Read lines s.callers s.cin s.target :=
      h.read_of_not_took (t := t) (by rw [hpc]; rfl) halone
    refine .of_alone rfl halone (fun _ => rfl) (h.current_eq_none fun u => ?_) hread h.inTurn
    exact Bool.eq_false_iff.mpr fun hasked =>
      absurd (ConsolePc.inside_of_asked hasked) (by simp [h.nobody hfree u])
  | store t p hpc =>
    have hinside : (s.pc t).inside := by rw [hpc]; rfl
    have hread : Read lines s.callers s.cin s.target :=
      h.read_of_not_took (t := t) (by rw [hpc]; rfl) fun u => h.alone hinside
    exact .of_alone rfl (fun u => h.alone hinside) (fun _ => h.owned t hinside) rfl hread h.inTurn
  | getline t p hpc =>
    have hinside : (s.pc t).inside := by rw [hpc]; rfl
    have hread : Read lines s.callers s.cin s.target :=
      h.read_of_not_took (t := t) (by rw [hpc]; rfl) fun u => h.alone hinside
    exact .of_alone rfl (fun u => h.alone hinside) (fun _ => h.owned t hinside)
      ((h.current t).mpr (by rw [hpc]; rfl)) (hread.getline (t, p)) h.inTurn
  | clear t p hpc =>
    have hinside : (s.pc t).inside := by rw [hpc]; rfl
    exact .of_alone rfl (fun u => h.alone hinside) (fun _ => h.owned t hinside) rfl
      (h.during t p (by rw [hpc]; rfl)) h.inTurn
  | unlock t p hpc =>
    have hinside : (s.pc t).inside := by rw [hpc]; rfl
    have hread : Read lines (s.callers ++ [(t, p)]) s.cin s.target :=
      h.during t p (by rw [hpc]; rfl)
    refine .of_alone rfl (fun u => h.alone hinside) (by simp [ConsolePc.inside])
      (h.current_eq_none fun u => ?_) ?_ ?_
    · by_cases hu : u = t
      · rw [hu, hpc]
        rfl
      · exact Bool.eq_false_iff.mpr fun hasked =>
          absurd (ConsolePc.inside_of_asked hasked) (by simp [h.alone hinside hu])
    · have hcallers : Read lines ((s.answers ++ [((t, p), s.target (t, p))]).map Prod.fst) s.cin
          s.target := by
        rw [List.map_append]
        exact hread
      exact hcallers
    · rw [hread.held]
      exact h.inTurn.append (t, p)

/-! ## What the threads are told -/

/-- Whatever the threads do, the lines of the input go to the calls of `synch_cin` in the order in
which these return, and behind the input a call returns the last line that its thread got at the
same prompt. -/
theorem lines_go_round (τ : Type*) [DecidableEq τ] (cin : InputStream)
    (steps : List (MessagingStep τ)) :
    (messagingMachine τ).Always (fun s => InTurn cin.lines s.answers) (init τ cin) steps :=
  Machine.Always.mono (fun _ h => h.inTurn) (Machine.always_of_step (P := Orderly cin.lines)
    (fun _ _ _ hstep h => orderly_step hstep h) (orderly_init τ cin) steps)

/-- What `synch_cout` adds to a message names the thread that is being asked at that moment, and
nobody if nobody is. -/
theorem reminders_name_asked (τ : Type*) [DecidableEq τ] (cin : InputStream)
    (steps : List (MessagingStep τ)) :
    (messagingMachine τ).Throughout (fun s _ s' => s'.reminders = s.reminders ∨
      ∃ who, s'.reminders = s.reminders ++ [who] ∧ ∀ t, who = some t ↔ (s.pc t).asked)
      (init τ cin) steps := by
  refine Machine.throughout_of_step (I := Orderly cin.lines)
    (fun _ _ _ hstep h => orderly_step hstep h) (fun s a s' hstep h => ?_)
    (orderly_init τ cin) steps
  cases fires hstep with
  | remind t hpc => exact Or.inr ⟨s.currentCinThread, rfl, h.current⟩
  | _ => exact Or.inl rfl

end Messaging

end PetProject.ClientHttp
