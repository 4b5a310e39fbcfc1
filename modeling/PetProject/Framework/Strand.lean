import Mathlib.Data.List.Basic

/-!
# Strands

What a strand promises: the handlers that are posted to it run one at a time and in the order of
the posts, each a list of actions between which anything else may happen. When its executor is
stopped, the handlers that wait may still be begun, by a thread that is running the strand; none
that is posted later ever is.
-/

namespace Framework

/-- The handlers that have been begun, the actions of the last one that are still to be taken, the
handlers that wait, how many had been posted when the executor was stopped, and all actions that
have been taken. -/
structure Strand (τ β : Type*) where
  begun : List τ
  current : List β
  waiting : List τ
  stoppedAt : Option Nat
  output : List β

namespace Strand

variable {τ β : Type*}

def empty : Strand τ β := ⟨[], [], [], none, []⟩

def post (S : Strand τ β) (x : τ) : Strand τ β := { S with waiting := S.waiting ++ [x] }

def stopped (S : Strand τ β) : Bool := S.stoppedAt.isSome

/-- The handlers that have been posted, in order. -/
def posted (S : Strand τ β) : List τ := S.begun ++ S.waiting

/-- The handlers that may be begun: those that have been posted before the executor was stopped. -/
def allowed (S : Strand τ β) : List τ :=
  match S.stoppedAt with
  | none => S.posted
  | some n => S.posted.take n

/-- The next handler may be begun when the one before it has returned. -/
def next (actions : τ → List β) (S : Strand τ β) : Option (Strand τ β) :=
  match S.current, S.waiting with
  | [], x :: waiting =>
    if S.begun.length < S.allowed.length then
      some { S with begun := S.begun ++ [x], current := actions x, waiting := waiting }
    else none
  | _, _ => none

def act (S : Strand τ β) : Option (Strand τ β) :=
  match S.current with
  | [] => none
  | b :: current => some { S with current := current, output := S.output ++ [b] }

/-- Only the first of several stops counts. -/
def stop (S : Strand τ β) : Strand τ β :=
  { S with stoppedAt := some (S.stoppedAt.getD S.posted.length) }

variable {actions : τ → List β} {S S' : Strand τ β}

theorem allowed_prefix (S : Strand τ β) : S.allowed <+: S.posted := by
  unfold allowed
  split
  case h_1 => exact List.prefix_refl _
  case h_2 n _ => exact List.take_prefix n _

theorem next_spec (h : S.next actions = some S') : S.current = [] ∧
    ∃ x ∈ S.allowed, S.waiting = x :: S'.waiting ∧ S'.begun = S.begun ++ [x] ∧
      S'.current = actions x ∧ S'.stoppedAt = S.stoppedAt ∧ S'.output = S.output := by
  unfold next at h
  split at h
  case h_1 x waiting hcurrent hwaiting =>
    split at h
    case isTrue hlt =>
      obtain rfl := Option.some.inj h
      have hx : S.allowed[S.begun.length] = x := by
        rw [S.allowed_prefix.getElem hlt]
        simp [posted, hwaiting]
      exact ⟨hcurrent, x, hx ▸ List.getElem_mem hlt, hwaiting, rfl, rfl, rfl, rfl⟩
    case isFalse => exact nomatch h
  case h_2 => exact nomatch h

theorem act_spec (h : S.act = some S') : ∃ b, S.current = b :: S'.current ∧
    S'.output = S.output ++ [b] ∧ S'.begun = S.begun ∧ S'.waiting = S.waiting ∧
      S'.stoppedAt = S.stoppedAt := by
  unfold act at h
  split at h
  case h_1 => exact nomatch h
  case h_2 b current hcurrent =>
    obtain rfl := Option.some.inj h
    exact ⟨b, hcurrent, rfl, rfl, rfl, rfl⟩

/-! ## One handler at a time -/

/-- What has been done and what the handler that runs has still to do are the handlers that have
been begun, one behind the other. -/
def Serial (actions : τ → List β) (S : Strand τ β) : Prop :=
  S.output ++ S.current = S.begun.flatMap actions

theorem serial_empty : (empty : Strand τ β).Serial actions := rfl

theorem Serial.post (h : S.Serial actions) (x : τ) : (S.post x).Serial actions := h

theorem Serial.stop (h : S.Serial actions) : S.stop.Serial actions := h

theorem Serial.next (h : S.Serial actions) (hnext : S.next actions = some S') :
    S'.Serial actions := by
  obtain ⟨hcurrent, x, -, -, hbegun, hactions, -, houtput⟩ := next_spec hnext
  rw [Serial, hcurrent, List.append_nil] at h
  rw [Serial, hbegun, hactions, houtput, h, List.flatMap_append, List.flatMap_singleton]

theorem Serial.act (h : S.Serial actions) (hact : S.act = some S') : S'.Serial actions := by
  obtain ⟨b, hcurrent, houtput, hbegun, -, -⟩ := act_spec hact
  rw [Serial, hcurrent, List.append_cons] at h
  rw [Serial, houtput, hbegun, h]

theorem posted_post (S : Strand τ β) (x : τ) : (S.post x).posted = S.posted ++ [x] :=
  (List.append_assoc _ _ _).symm

theorem posted_next (h : S.next actions = some S') : S'.posted = S.posted := by
  obtain ⟨-, x, -, hwaiting, hbegun, -⟩ := next_spec h
  rw [posted, posted, hbegun, hwaiting, List.append_assoc]
  rfl

/-- A handler that is posted behind the stop is not allowed any more. -/
theorem allowed_post_of_stopped {n : Nat} (hn : S.stoppedAt = some n) (hle : n ≤ S.posted.length)
    (x : τ) : (S.post x).allowed = S.allowed := by
  have hstopped : (S.post x).stoppedAt = some n := hn
  rw [allowed, allowed, hstopped, hn, posted_post]
  exact List.take_append_of_le_length hle

theorem allowed_stop (S : Strand τ β) : S.stop.allowed = S.allowed := by
  have hstopped : S.stop.stoppedAt = some (S.stoppedAt.getD S.posted.length) := rfl
  rw [allowed, hstopped, allowed]
  cases S.stoppedAt with
  | none => exact List.take_length
  | some n => rfl

theorem posted_act (h : S.act = some S') : S'.posted = S.posted := by
  obtain ⟨-, -, -, hbegun, hwaiting, -⟩ := act_spec h
  rw [posted, posted, hbegun, hwaiting]

end Strand

end Framework
