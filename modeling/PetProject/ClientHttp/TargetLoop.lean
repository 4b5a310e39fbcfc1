import Mathlib.Data.Fintype.Basic
import Mathlib.Logic.Function.Basic
import PetProject.Framework.Machine
import PetProject.Framework.SqlText

/-!
# The target loop of the client

`Client_HTTP::do_session`, run by any number of coroutines that share `targets_index`,
`targets_loops` and `targets_looping_over`. A step is one access to one of the three atomics, one
line of input, or one exchange with the server. The session that runs past the end of `targets`
starts a new round: it decrements the number of loops, resets the index and takes an element
without looking at the size.
-/

namespace PetProject.ClientHttp

open Framework

/-- What a session appends to its target. -/
inductive Piece
  | element (k : Nat)
  | line (text : Text)
  deriving DecidableEq, Repr

def Piece.text (targets : List Text) : Piece → Text
  | .element k => targets.getD k []
  | .line text => text

/-- Where a session stands in the body of its loop, with `temp_loops` and `temp_index`. -/
inductive SessionPc
  | testOver
  | loadLoops
  | fetch (tempLoops : Int)
  | casLoops (tempLoops : Int) (tempIndex : Nat)
  | casIndex (tempIndex : Nat)
  | checkLoops
  | fetchAgain
  | storeOver
  | testInteractive
  | readLine
  | send
  | closed
  deriving DecidableEq, Repr

/-- A session: what it has appended to `"/"`, and whether it has moved on to interactive input. -/
structure Session where
  pc : SessionPc
  pieces : List Piece
  interactive : Bool
  deriving DecidableEq, Repr

/-- The string `target`. -/
def Session.target (targets : List Text) (u : Session) : Text :=
  '/' :: u.pieces.flatMap (Piece.text targets)

/-- The shared atomics and the sessions, with the indices at which `targets` was accessed and the
targets that were sent, each in order. -/
structure Client (ι : Type*) where
  targetsLoops : Int
  targetsIndex : Nat
  targetsLoopingOver : Bool
  sessions : ι → Session
  accesses : List Nat
  requests : List (List Piece)

inductive ClientStep (ι : Type*)
  | run (i : ι)
  | readLine (i : ι) (line : Text)
  | send (i : ι) (ok : Bool)
  deriving DecidableEq, Repr

namespace Client

variable {ι : Type*}

/-- The state after the constructor, with the number of loops that the user has entered. -/
def init (ι : Type*) (loops : Int) : Client ι where
  targetsLoops := loops
  targetsIndex := 0
  targetsLoopingOver := decide (loops ≤ 0)
  sessions _ := ⟨.testOver, [], false⟩
  accesses := []
  requests := []

variable [DecidableEq ι]

def setSession (s : Client ι) (i : ι) (u : Session) : Client ι :=
  { s with sessions := Function.update s.sessions i u }

def setPc (s : Client ι) (i : ι) (pc : SessionPc) : Client ι :=
  s.setSession i { s.sessions i with pc := pc }

/-- `target.append(targets[targets_index.fetch_add(1)])`. -/
def take (s : Client ι) (i : ι) : Client ι :=
  setSession { s with targetsIndex := s.targetsIndex + 1, accesses := s.accesses ++ [s.targetsIndex] }
    i { s.sessions i with
        pc := .testInteractive, pieces := (s.sessions i).pieces ++ [.element s.targetsIndex] }

/-- The next access of a session to one of the atomics. -/
def runStep (targets : List Text) (s : Client ι) (i : ι) : Option (Client ι) :=
  match (s.sessions i).pc with
  | .testOver => some (s.setPc i (if s.targetsLoopingOver then .testInteractive else .loadLoops))
  | .loadLoops => some (s.setPc i (.fetch s.targetsLoops))
  | .fetch tempLoops =>
    if s.targetsIndex < targets.length then some (s.take i)
    else some (setPc { s with targetsIndex := s.targetsIndex + 1 } i
      (.casLoops tempLoops (s.targetsIndex + 1)))
  | .casLoops tempLoops tempIndex =>
    some (setPc { s with targetsLoops :=
      if s.targetsLoops = tempLoops then tempLoops - 1 else s.targetsLoops } i (.casIndex tempIndex))
  | .casIndex tempIndex =>
    some (setPc { s with targetsIndex :=
      if s.targetsIndex = tempIndex then 0 else s.targetsIndex } i .checkLoops)
  | .checkLoops => some (s.setPc i (if s.targetsLoops > 0 then .fetchAgain else .storeOver))
  | .fetchAgain => some (s.take i)
  | .storeOver => some (setPc { s with targetsLoopingOver := true } i .testInteractive)
  | .testInteractive =>
    if s.targetsLoopingOver then
      some (s.setSession i { s.sessions i with pc := .readLine, interactive := true })
    else some (s.setPc i .send)
  | .readLine | .send | .closed => none

/-- One step of one session; an exchange that fails ends the session. -/
def step (targets : List Text) (s : Client ι) : ClientStep ι → Option (Client ι)
  | .run i => s.runStep targets i
  | .readLine i line =>
    if (s.sessions i).pc = .readLine then
      let u : Session := { s.sessions i with pieces := (s.sessions i).pieces ++ [.line line] }
      some (s.setSession i
        { u with pc := if u.target targets = "/:q".toList then .closed else .send })
    else none
  | .send i ok =>
    if (s.sessions i).pc = .send then
      some (setSession { s with requests := s.requests ++ [(s.sessions i).pieces] } i
        { s.sessions i with pc := if ok then .testOver else .closed, pieces := [] })
    else none

/-- The enabled steps, one rule for each way in which a session can go on. -/
inductive Fires (targets : List Text) (s : Client ι) : ClientStep ι → Client ι → Prop
  | testOver (i : ι) (hpc : (s.sessions i).pc = .testOver) :
      Fires targets s (.run i)
        (s.setPc i (if s.targetsLoopingOver then .testInteractive else .loadLoops))
  | loadLoops (i : ι) (hpc : (s.sessions i).pc = .loadLoops) :
      Fires targets s (.run i) (s.setPc i (.fetch s.targetsLoops))
  | fetch (i : ι) (tempLoops : Int) (hpc : (s.sessions i).pc = .fetch tempLoops)
      (hindex : s.targetsIndex < targets.length) : Fires targets s (.run i) (s.take i)
  | overrun (i : ι) (tempLoops : Int) (hpc : (s.sessions i).pc = .fetch tempLoops)
      (hindex : ¬s.targetsIndex < targets.length) :
      Fires targets s (.run i) (setPc { s with targetsIndex := s.targetsIndex + 1 } i
        (.casLoops tempLoops (s.targetsIndex + 1)))
  | casLoops (i : ι) (tempLoops : Int) (tempIndex : Nat)
      (hpc : (s.sessions i).pc = .casLoops tempLoops tempIndex) :
      Fires targets s (.run i) (setPc { s with targetsLoops :=
        if s.targetsLoops = tempLoops then tempLoops - 1 else s.targetsLoops } i
          (.casIndex tempIndex))
  | casIndex (i : ι) (tempIndex : Nat) (hpc : (s.sessions i).pc = .casIndex tempIndex) :
      Fires targets s (.run i) (setPc { s with targetsIndex :=
        if s.targetsIndex = tempIndex then 0 else s.targetsIndex } i .checkLoops)
  | again (i : ι) (hpc : (s.sessions i).pc = .checkLoops) (hloops : 0 < s.targetsLoops) :
      Fires targets s (.run i) (s.setPc i .fetchAgain)
  | enough (i : ι) (hpc : (s.sessions i).pc = .checkLoops) (hloops : s.targetsLoops ≤ 0) :
      Fires targets s (.run i) (s.setPc i .storeOver)
  | fetchAgain (i : ι) (hpc : (s.sessions i).pc = .fetchAgain) :
      Fires targets s (.run i) (s.take i)
  | storeOver (i : ι) (hpc : (s.sessions i).pc = .storeOver) :
      Fires targets s (.run i) (setPc { s with targetsLoopingOver := true } i .testInteractive)
  | ask (i : ι) (hpc : (s.sessions i).pc = .testInteractive)
      (hover : s.targetsLoopingOver = true) :
      Fires targets s (.run i)
        (s.setSession i { s.sessions i with pc := .readLine, interactive := true })
  | goOn (i : ι) (hpc : (s.sessions i).pc = .testInteractive)
      (hover : s.targetsLoopingOver = false) : Fires targets s (.run i) (s.setPc i .send)
  | readLine (i : ι) (line : Text) (pc : SessionPc) (hpc : (s.sessions i).pc = .readLine)
      (hnext : pc = .closed ∨ pc = .send) :
      Fires targets s (.readLine i line) (s.setSession i
        { s.sessions i with pc := pc, pieces := (s.sessions i).pieces ++ [.line line] })
  | send (i : ι) (ok : Bool) (hpc : (s.sessions i).pc = .send) :
      Fires targets s (.send i ok)
        (setSession { s with requests := s.requests ++ [(s.sessions i).pieces] } i
          { s.sessions i with pc := if ok then .testOver else .closed, pieces := [] })

private theorem fires_run {targets : List Text} {s t : Client ι} {i : ι}
    (h : s.runStep targets i = some t) : s.Fires targets (.run i) t := by
  unfold runStep at h
  cases hpc : (s.sessions i).pc with
  | testOver => rw [hpc] at h; exact Option.some.inj h ▸ .testOver i hpc
  | loadLoops => rw [hpc] at h; exact Option.some.inj h ▸ .loadLoops i hpc
  | fetch tempLoops =>
    rw [hpc] at h
    dsimp only at h
    split at h
    case isTrue hindex => exact Option.some.inj h ▸ .fetch i tempLoops hpc hindex
    case isFalse hindex => exact Option.some.inj h ▸ .overrun i tempLoops hpc hindex
  | casLoops tempLoops tempIndex =>
    rw [hpc] at h
    exact Option.some.inj h ▸ .casLoops i tempLoops tempIndex hpc
  | casIndex tempIndex => rw [hpc] at h; exact Option.some.inj h ▸ .casIndex i tempIndex hpc
  | checkLoops =>
    rw [hpc] at h
    dsimp only at h
    split at h
    case isTrue hloops => exact Option.some.inj h ▸ .again i hpc hloops
    case isFalse hloops => exact Option.some.inj h ▸ .enough i hpc (not_lt.mp hloops)
  | fetchAgain => rw [hpc] at h; exact Option.some.inj h ▸ .fetchAgain i hpc
  | storeOver => rw [hpc] at h; exact Option.some.inj h ▸ .storeOver i hpc
  | testInteractive =>
    rw [hpc] at h
    dsimp only at h
    split at h
    case isTrue hover => exact Option.some.inj h ▸ .ask i hpc hover
    case isFalse hover => exact Option.some.inj h ▸ .goOn i hpc (by simpa using hover)
  | readLine | send | closed => rw [hpc] at h; exact nomatch h

theorem fires {targets : List Text} {s t : Client ι} {a : ClientStep ι}
    (h : s.step targets a = some t) : s.Fires targets a t := by
  cases a with
  | run i => exact fires_run h
  | readLine i line =>
    unfold step at h
    dsimp only at h
    split at h
    case isTrue hpc =>
      refine Option.some.inj h ▸ .readLine i line _ hpc ?_
      split
      · exact Or.inl rfl
      · exact Or.inr rfl
    case isFalse => exact nomatch h
  | send i ok =>
    unfold step at h
    dsimp only at h
    split at h
    case isTrue hpc => exact Option.some.inj h ▸ .send i ok hpc
    case isFalse => exact nomatch h

def pcs (s : Client ι) (i : ι) : SessionPc := (s.sessions i).pc

theorem pcs_setSession (s : Client ι) (i : ι) (u : Session) :
    (s.setSession i u).pcs = Function.update s.pcs i u.pc := by
  funext j
  by_cases hj : j = i
  · subst hj
    simp [pcs, setSession]
  · simp [pcs, setSession, hj]

theorem pcs_setPc (s : Client ι) (i : ι) (pc : SessionPc) :
    (s.setPc i pc).pcs = Function.update s.pcs i pc :=
  pcs_setSession s i _

theorem pcs_take (s : Client ι) (i : ι) :
    (s.take i).pcs = Function.update s.pcs i .testInteractive :=
  pcs_setSession _ i _

end Client

def clientMachine (targets : List Text) (ι : Type*) [DecidableEq ι] :
    Machine (Client ι) (ClientStep ι) :=
  ⟨Client.step targets⟩

/-! ## The bounds of the list -/

/-- The session starts a new round: it has run past the end and has not taken its element. -/
def SessionPc.renewing : SessionPc → Bool
  | .casLoops _ _ | .casIndex _ | .checkLoops | .fetchAgain => true
  | _ => false

/-- Another session may fetch the index: this one has not run past the end, or it has reset the
index and at least one element is left for it. -/
def SessionPc.LeavesRoom (size index : Nat) : SessionPc → Prop
  | .casLoops _ _ | .casIndex _ => False
  | .checkLoops | .fetchAgain => index + 1 < size
  | _ => True

instance (size index : Nat) (pc : SessionPc) : Decidable (pc.LeavesRoom size index) := by
  cases pc <;> unfold SessionPc.LeavesRoom <;> infer_instance

private theorem SessionPc.LeavesRoom.of_renewing {size index : Nat} {pc : SessionPc}
    (h : pc.LeavesRoom size index) (hpc : pc.renewing) : index + 1 < size := by
  cases pc with
  | casLoops | casIndex => exact h.elim
  | checkLoops | fetchAgain => exact h
  | _ => exact nomatch hpc

/-- What a session in a new round knows about the index. -/
def SessionPc.Fits (size index : Nat) : SessionPc → Prop
  | .casLoops _ tempIndex | .casIndex tempIndex => tempIndex = index ∧ index = size + 1
  | .checkLoops | .fetchAgain => index < size
  | _ => True

private theorem SessionPc.LeavesRoom.fits_succ {size index : Nat} {pc : SessionPc}
    (h : pc.LeavesRoom size index) : pc.Fits size (index + 1) := by
  cases pc with
  | casLoops | casIndex => exact h.elim
  | checkLoops | fetchAgain => exact h
  | _ => trivial

private theorem SessionPc.fits_of_not_renewing {pc : SessionPc} (h : ¬pc.renewing) (size index : Nat) :
    pc.Fits size index := by
  cases pc with
  | casLoops | casIndex | checkLoops | fetchAgain => exact absurd rfl h
  | _ => trivial

/-- At most one session is in a new round, and outside of it the index stays in the list. -/
structure Rounds {ι : Type*} (size index : Nat) (pcs : ι → SessionPc) : Prop where
  unique : ∀ i j, (pcs i).renewing → (pcs j).renewing → i = j
  fits : ∀ i, (pcs i).Fits size index
  bounded : (∀ i, ¬(pcs i).renewing) → index ≤ size

namespace Rounds

variable {ι : Type*} [DecidableEq ι] {size index index' : Nat} {pcs : ι → SessionPc} {i : ι}
  {old pc : SessionPc}

omit [DecidableEq ι] in
theorem alone (h : Rounds size index pcs) (hi : (pcs i).renewing) :
    ∀ j, j ≠ i → ¬(pcs j).renewing :=
  fun j hj hrenewing => hj (h.unique j i hrenewing hi)

omit [DecidableEq ι] in
theorem fits_at (h : Rounds size index pcs) (hi : pcs i = old) : old.Fits size index :=
  hi ▸ h.fits i

theorem update (h : Rounds size index pcs) (hpc : pc.Fits size index')
    (halone : pc.renewing → ∀ j, j ≠ i → ¬(pcs j).renewing)
    (hothers : ∀ j, j ≠ i → (pcs j).Fits size index')
    (hbounded : ¬pc.renewing → (∀ j, j ≠ i → ¬(pcs j).renewing) → index' ≤ size) :
    Rounds size index' (Function.update pcs i pc) := by
  have hself : Function.update pcs i pc i = pc := Function.update_self i pc pcs
  have hother : ∀ j, j ≠ i → Function.update pcs i pc j = pcs j := fun j hj =>
    Function.update_of_ne hj pc pcs
  refine ⟨fun j k hj hk => ?_, fun j => ?_, fun hnone => ?_⟩
  · by_cases hji : j = i
    · by_cases hki : k = i
      · rw [hji, hki]
      · rw [hji, hself] at hj
        rw [hother k hki] at hk
        exact absurd hk (halone hj k hki)
    · rw [hother j hji] at hj
      by_cases hki : k = i
      · rw [hki, hself] at hk
        exact absurd hj (halone hk j hji)
      · rw [hother k hki] at hk
        exact h.unique j k hj hk
  · by_cases hji : j = i
    · rw [hji, hself]
      exact hpc
    · rw [hother j hji]
      exact hothers j hji
  · refine hbounded (hself ▸ hnone i) fun j hj => ?_
    have hj' := hnone j
    rwa [hother j hj] at hj'

theorem move (h : Rounds size index pcs) (hi : pcs i = old) (hold : ¬old.renewing)
    (hnew : ¬pc.renewing) : Rounds size index (Function.update pcs i pc) := by
  refine h.update (SessionPc.fits_of_not_renewing hnew _ _) (fun hpc => absurd hpc hnew)
    (fun j _ => h.fits j) fun _ hothers => h.bounded fun j => ?_
  by_cases hj : j = i
  · rwa [hj, hi]
  · exact hothers j hj

theorem turn (h : Rounds size index pcs) (hi : pcs i = old) (hold : old.renewing)
    (hpc : pc.Fits size index') (hbounded : ¬pc.renewing → index' ≤ size) :
    Rounds size index' (Function.update pcs i pc) := by
  have halone := h.alone (i := i) (hi.symm ▸ hold)
  exact h.update hpc (fun _ => halone)
    (fun j hj => SessionPc.fits_of_not_renewing (halone j hj) _ _) fun hnew _ => hbounded hnew

omit [DecidableEq ι] in
theorem at_end (h : Rounds size index pcs) (hi : pcs i = old) (hold : ¬old.renewing)
    (hroom : ∀ j, j ≠ i → (pcs j).LeavesRoom size index) (hindex : ¬index < size) :
    index = size ∧ ∀ j, j ≠ i → ¬(pcs j).renewing := by
  have hothers : ∀ j, j ≠ i → ¬(pcs j).renewing := by
    intro j hj hrenewing
    have hleft := (hroom j hj).of_renewing hrenewing
    omega
  refine ⟨le_antisymm (h.bounded fun j => ?_) (not_lt.mp hindex), hothers⟩
  by_cases hj : j = i
  · rwa [hj, hi]
  · exact hothers j hj

end Rounds

namespace Client

variable {ι : Type*} [DecidableEq ι] {targets : List Text} {s t : Client ι}

/-- A session that fetches the index leaves the others their turn. -/
def InTurn (targets : List Text) (s : Client ι) : ClientStep ι → Prop
  | .run i =>
    match (s.sessions i).pc with
    | .fetch _ =>
      ∀ j, j ≠ i → (s.sessions j).pc.LeavesRoom targets.length s.targetsIndex
    | _ => True
  | _ => True

instance [Fintype ι] (targets : List Text) (s : Client ι) (a : ClientStep ι) :
    Decidable (s.InTurn targets a) := by
  unfold InTurn
  split
  · split <;> infer_instance
  · infer_instance

omit [DecidableEq ι] in
theorem InTurn.room {i : ι} {tempLoops : Int} (h : s.InTurn targets (.run i))
    (hpc : (s.sessions i).pc = .fetch tempLoops) :
    ∀ j, j ≠ i → (s.pcs j).LeavesRoom targets.length s.targetsIndex := by
  unfold InTurn at h
  dsimp only at h
  rw [hpc] at h
  exact h

structure InBounds (targets : List Text) (s : Client ι) : Prop where
  rounds : Rounds targets.length s.targetsIndex s.pcs
  accesses : ∀ k ∈ s.accesses, k < targets.length

omit [DecidableEq ι] in
theorem inBounds_init (loops : Int) : (init ι loops).InBounds targets where
  rounds := ⟨nofun, fun _ => trivial, fun _ => Nat.zero_le _⟩
  accesses := nofun

private theorem accesses_take {i : ι} (h : ∀ k ∈ s.accesses, k < targets.length)
    (hindex : s.targetsIndex < targets.length) :
    ∀ k ∈ (s.take i).accesses, k < targets.length := by
  intro k hk
  rcases List.mem_append.mp hk with hk | hk
  · exact h k hk
  · exact List.mem_singleton.mp hk ▸ hindex

theorem inBounds_step (hne : targets ≠ []) {a : ClientStep ι} (hstep : s.step targets a = some t)
    (hturn : s.InTurn targets a) (h : s.InBounds targets) : t.InBounds targets := by
  obtain ⟨hrounds, haccesses⟩ := h
  cases fires hstep with
  | testOver i hpc =>
    refine ⟨?_, haccesses⟩
    rw [pcs_setPc]
    apply hrounds.move hpc nofun
    split <;> simp [SessionPc.renewing]
  | loadLoops i hpc | storeOver i hpc | goOn i hpc =>
    refine ⟨?_, haccesses⟩
    rw [pcs_setPc]
    exact hrounds.move hpc nofun nofun
  | ask i hpc =>
    refine ⟨?_, haccesses⟩
    rw [pcs_setSession]
    exact hrounds.move hpc nofun nofun
  | readLine i line pc hpc hnext =>
    refine ⟨?_, haccesses⟩
    rw [pcs_setSession]
    apply hrounds.move hpc nofun
    rcases hnext with rfl | rfl <;> simp [SessionPc.renewing]
  | send i ok hpc =>
    refine ⟨?_, haccesses⟩
    rw [pcs_setSession]
    apply hrounds.move hpc nofun
    split <;> simp [SessionPc.renewing]
  | fetch i tempLoops hpc hindex =>
    have hroom := hturn.room hpc
    refine ⟨?_, accesses_take haccesses hindex⟩
    rw [pcs_take]
    exact hrounds.update trivial nofun (fun j hj => (hroom j hj).fits_succ) fun _ _ => hindex
  | overrun i tempLoops hpc hindex =>
    have hroom := hturn.room hpc
    obtain ⟨hend, hothers⟩ := hrounds.at_end hpc nofun hroom hindex
    refine ⟨?_, haccesses⟩
    rw [pcs_setPc]
    exact hrounds.update ⟨rfl, congrArg (· + 1) hend⟩ (fun _ => hothers)
      (fun j hj => SessionPc.fits_of_not_renewing (hothers j hj) _ _) nofun
  | casLoops i tempLoops tempIndex hpc =>
    have hfits := hrounds.fits_at hpc
    refine ⟨?_, haccesses⟩
    rw [pcs_setPc]
    exact hrounds.turn hpc rfl hfits nofun
  | casIndex i tempIndex hpc =>
    obtain ⟨rfl, hend⟩ := hrounds.fits_at hpc
    refine ⟨?_, haccesses⟩
    rw [pcs_setPc]
    refine hrounds.turn hpc rfl ?_ nofun
    simpa [SessionPc.Fits, setPc, setSession] using List.length_pos_iff.mpr hne
  | again i hpc =>
    have hfits := hrounds.fits_at hpc
    refine ⟨?_, haccesses⟩
    rw [pcs_setPc]
    exact hrounds.turn hpc rfl hfits nofun
  | enough i hpc =>
    have hindex : s.targetsIndex < targets.length := hrounds.fits_at hpc
    refine ⟨?_, haccesses⟩
    rw [pcs_setPc]
    exact hrounds.turn hpc rfl trivial fun _ => hindex.le
  | fetchAgain i hpc =>
    have hindex : s.targetsIndex < targets.length := hrounds.fits_at hpc
    refine ⟨?_, accesses_take haccesses hindex⟩
    rw [pcs_take]
    exact hrounds.turn hpc rfl trivial fun _ => hindex

end Client

/-! ## A single loop -/

/-- What a session knows of the number of loops when the user has entered at most one: the
session that runs past the end finds it at zero. -/
def SessionPc.LastLoop (loops : Int) : SessionPc → Prop
  | .fetch tempLoops | .casLoops tempLoops _ => loops ≤ tempLoops ∧ tempLoops ≤ 1
  | .casIndex _ | .checkLoops => loops ≤ 0
  | .fetchAgain => False
  | _ => True

theorem SessionPc.LastLoop.mono {loops loops' : Int} (hle : loops' ≤ loops) {pc : SessionPc}
    (h : pc.LastLoop loops) : pc.LastLoop loops' := by
  cases pc with
  | fetch | casLoops => exact ⟨hle.trans h.1, h.2⟩
  | casIndex | checkLoops => exact hle.trans h
  | fetchAgain => exact h
  | _ => trivial

namespace Client

variable {ι : Type*} [DecidableEq ι] {targets : List Text} {s t : Client ι}

structure OneLoop (targets : List Text) (s : Client ι) : Prop where
  loops : s.targetsLoops ≤ 1
  lastLoop : ∀ i, (s.pcs i).LastLoop s.targetsLoops
  accesses : ∀ k ∈ s.accesses, k < targets.length

omit [DecidableEq ι] in
private theorem oneLoop_init {loops : Int} (hloops : loops ≤ 1) : (init ι loops).OneLoop targets :=
  ⟨hloops, fun _ => trivial, nofun⟩

private theorem lastLoop_update {pcs : ι → SessionPc} {i : ι} {pc : SessionPc}
    {loops loops' : Int} (h : ∀ j, (pcs j).LastLoop loops) (hle : loops' ≤ loops)
    (hpc : pc.LastLoop loops') (j : ι) : (Function.update pcs i pc j).LastLoop loops' := by
  by_cases hj : j = i
  · rw [hj, Function.update_self]
    exact hpc
  · rw [Function.update_of_ne hj]
    exact (h j).mono hle

private theorem oneLoop_step {a : ClientStep ι} (hstep : s.step targets a = some t)
    (h : s.OneLoop targets) : t.OneLoop targets := by
  obtain ⟨hloops, hlast, haccesses⟩ := h
  cases fires hstep with
  | testOver i hpc =>
    refine ⟨hloops, pcs_setPc s i _ ▸ lastLoop_update hlast le_rfl ?_, haccesses⟩
    split <;> trivial
  | loadLoops i hpc =>
    exact ⟨hloops, pcs_setPc s i _ ▸ lastLoop_update hlast le_rfl ⟨le_rfl, hloops⟩, haccesses⟩
  | fetch i tempLoops hpc hindex =>
    exact ⟨hloops, pcs_take s i ▸ lastLoop_update hlast le_rfl trivial,
      accesses_take haccesses hindex⟩
  | overrun i tempLoops hpc hindex =>
    have hi : SessionPc.LastLoop s.targetsLoops (.fetch tempLoops) := hpc ▸ hlast i
    exact ⟨hloops, pcs_setPc _ i _ ▸ lastLoop_update hlast le_rfl hi, haccesses⟩
  | casLoops i tempLoops tempIndex hpc =>
    obtain ⟨hle, hone⟩ : SessionPc.LastLoop s.targetsLoops (.casLoops tempLoops tempIndex) :=
      hpc ▸ hlast i
    -- either this session takes the last loop away or another one has done so
    have hcas : (if s.targetsLoops = tempLoops then tempLoops - 1 else s.targetsLoops) ≤
        min s.targetsLoops 0 := by
      split <;> omega
    exact ⟨(hcas.trans (min_le_left _ _)).trans hloops, pcs_setPc _ i _ ▸
      lastLoop_update hlast (hcas.trans (min_le_left _ _)) (hcas.trans (min_le_right _ _)),
      haccesses⟩
  | casIndex i tempIndex hpc =>
    have hi : SessionPc.LastLoop s.targetsLoops (.casIndex tempIndex) := hpc ▸ hlast i
    exact ⟨hloops, pcs_setPc _ i _ ▸ lastLoop_update hlast le_rfl hi, haccesses⟩
  | again i hpc hpos =>
    have hi : SessionPc.LastLoop s.targetsLoops .checkLoops := hpc ▸ hlast i
    exact absurd hpos (not_lt.mpr hi)
  | fetchAgain i hpc =>
    have hi : SessionPc.LastLoop s.targetsLoops .fetchAgain := hpc ▸ hlast i
    exact hi.elim
  | enough i hpc | storeOver i hpc | goOn i hpc =>
    exact ⟨hloops, pcs_setPc _ i _ ▸ lastLoop_update hlast le_rfl trivial, haccesses⟩
  | ask i hpc =>
    exact ⟨hloops, pcs_setSession _ i _ ▸ lastLoop_update hlast le_rfl trivial, haccesses⟩
  | readLine i line pc hpc hnext =>
    refine ⟨hloops, pcs_setSession _ i _ ▸ lastLoop_update hlast le_rfl ?_, haccesses⟩
    rcases hnext with rfl | rfl <;> trivial
  | send i ok hpc =>
    refine ⟨hloops, pcs_setSession _ i _ ▸ lastLoop_update hlast le_rfl ?_, haccesses⟩
    split <;> trivial

end Client

/-- Every access to the list of targets is in bounds, along every run with one loop and along
every run in which the sessions that fetch the index leave the others their turn. -/
theorem accesses_in_bounds {ι : Type*} [DecidableEq ι] (targets : List Text)
    (hne : targets ≠ []) (loops : Int) (as : List (ClientStep ι))
    (hturn : loops ≤ 1 ∨
      (clientMachine targets ι).Guarded (Client.InTurn targets) (.init ι loops) as) :
    (clientMachine targets ι).Always (fun s => ∀ k ∈ s.accesses, k < targets.length)
      (.init ι loops) as := by
  rcases hturn with hloops | hturn
  · exact (Machine.always_of_step (fun _ _ _ => Client.oneLoop_step)
      (Client.oneLoop_init hloops) as).mono fun _ h => h.accesses
  · exact (hturn.always (fun _ _ _ => Client.inBounds_step hne)
      (Client.inBounds_init loops)).mono fun _ h => h.accesses

/-- One session takes the only target twice, the second time in a new round, while the other one
waits. -/
def renewalSteps : List (ClientStep Bool) :=
  [.run true, .run true, .run true, .run true, .send true true, .run false,
    .run true, .run true, .run true, .run true, .run true, .run true, .run true]

theorem accesses_in_bounds_renewal :
    (clientMachine [['a']] Bool).Always (fun s => ∀ k ∈ s.accesses, k < 1)
      (.init Bool 2) renewalSteps :=
  accesses_in_bounds [['a']] (by decide) 2 renewalSteps (Or.inr (by decide +kernel))

/-- Two sessions run past the end of a list of one target before either of them resets the index;
the first one finds that the index has moved on and takes its element there. -/
def overrunSteps : List (ClientStep Bool) :=
  [.run true, .run true, .run true, .run true, .send true true, .run true, .run true,
    .run false, .run false, .run true, .run false, .run true, .run true, .run true, .run true]

theorem access_out_of_bounds :
    ¬∀ (targets : List Text), targets ≠ [] → ∀ loops : Int, 0 < loops →
      ∀ as : List (ClientStep Bool), (clientMachine targets Bool).Always
        (fun s => ∀ k ∈ s.accesses, k < targets.length) (.init Bool loops) as := by
  intro hclaim
  have hrun : ((clientMachine [['a']] Bool).run (.init Bool 2) overrunSteps).map Client.accesses =
      some [0, 3] := by
    decide +kernel
  obtain ⟨s, hs, haccesses⟩ := Option.map_eq_some_iff.mp hrun
  have hbound := (hclaim [['a']] (by decide) 2 (by decide) overrunSteps).last hs 3
    (haccesses ▸ by decide)
  exact absurd hbound (by decide)

end PetProject.ClientHttp
