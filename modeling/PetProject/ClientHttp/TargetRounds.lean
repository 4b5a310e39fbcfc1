import PetProject.ClientHttp.TargetLoop
import PetProject.Framework.Custody

/-!
# The rounds of the client

What the sessions of the client request in total. Every fetched index is on its way to a request,
and the number of times that an index has been fetched is read off the loops that are left, as
long as the sessions take turns at starting a new round.
-/

namespace PetProject.ClientHttp

open Framework
open scoped BigOperators

/-- One element of the list of targets, or one typed line. -/
def Piece.Known (size : Nat) : Piece → Prop
  | .element k => k < size
  | .line _ => True

/-- A request is for `"/"` followed by one piece. -/
def Single (size : Nat) (pieces : List Piece) : Prop := ∃ p, pieces = [p] ∧ p.Known size

namespace SessionPc

/-- The session runs past the end, and has neither taken an element nor stopped the looping. -/
def turning : SessionPc → Bool
  | .casLoops _ _ | .casIndex _ | .checkLoops | .fetchAgain | .storeOver => true
  | _ => false

/-- The session stands between its two tests of `targets_looping_over`. -/
def betweenTests : SessionPc → Bool
  | .testOver | .readLine | .send | .closed => false
  | _ => true

/-- Another session may fetch the index: this one has not run past the end, or it has started a
round that has an element left for it. -/
def LeavesTurn (size index : Nat) (loops : Int) : SessionPc → Prop
  | .casLoops _ _ | .casIndex _ | .storeOver => False
  | .checkLoops | .fetchAgain => index + 1 < size ∧ 0 < loops
  | _ => True

instance (size index : Nat) (loops : Int) (pc : SessionPc) :
    Decidable (pc.LeavesTurn size index loops) :=
  match pc with
  | .casLoops _ _ | .casIndex _ | .storeOver => instDecidableFalse
  | .checkLoops | .fetchAgain => inferInstanceAs (Decidable (index + 1 < size ∧ 0 < loops))
  | .testOver | .loadLoops | .fetch _ | .testInteractive | .readLine | .send | .closed =>
    instDecidableTrue

private theorem LeavesTurn.leavesRoom {size index : Nat} {loops : Int} {pc : SessionPc}
    (h : pc.LeavesTurn size index loops) : pc.LeavesRoom size index := by
  cases pc with
  | casLoops | casIndex | storeOver => exact h.elim
  | checkLoops | fetchAgain => exact h.1
  | _ => trivial

private theorem LeavesTurn.of_turning {size index : Nat} {loops : Int} {pc : SessionPc}
    (h : pc.LeavesTurn size index loops) (hpc : pc.turning) :
    (pc = .checkLoops ∨ pc = .fetchAgain) ∧ index + 1 < size ∧ 0 < loops := by
  cases pc with
  | casLoops | casIndex | storeOver => exact h.elim
  | checkLoops => exact ⟨Or.inl rfl, h⟩
  | fetchAgain => exact ⟨Or.inr rfl, h⟩
  | _ => exact nomatch hpc

/-- What the session that starts a new round knows about the number of loops. -/
def Stage (index : Nat) (loops : Int) : SessionPc → Prop
  | .casLoops _ _ | .fetchAgain => 0 < loops
  | .casIndex _ => 0 ≤ loops
  | .checkLoops => 0 < loops ∨ loops = 0 ∧ index = 0
  | .storeOver => loops = 0 ∧ index = 0
  | _ => False

private theorem Stage.turning {index : Nat} {loops : Int} {pc : SessionPc} (h : pc.Stage index loops) :
    pc.turning := by
  cases pc with
  | casLoops | casIndex | checkLoops | fetchAgain | storeOver => rfl
  | _ => exact h.elim

/-- The loop that has been taken away while the index still counts the round that it stands for. -/
def lag : SessionPc → Int
  | .casIndex _ => 1
  | _ => 0

end SessionPc

/-- What a session has appended to its target, by where it stands. -/
def SessionPc.Holds (size : Nat) (ended interactive : Bool) (pieces : List Piece) :
    SessionPc → Prop
  | .testOver | .readLine => pieces = []
  | .testInteractive => if ended then pieces = [] else ∃ k, k < size ∧ pieces = [.element k]
  | .send => Single size pieces ∧ (interactive → ∃ line, pieces = [.line line])
  | .closed => ∀ k, .element k ∉ pieces
  | _ => pieces = [] ∧ ended = false

/-- A session turns to interactive input once the looping is over, and never holds more than one
piece. -/
structure Session.InOrder (size : Nat) (ended : Bool) (u : Session) : Prop where
  interactive : u.interactive → ended
  pieces : u.pc.Holds size ended u.interactive u.pieces

theorem Session.InOrder.holds {size : Nat} {ended : Bool} {u : Session} {pc : SessionPc}
    (h : u.InOrder size ended) (hpc : u.pc = pc) : pc.Holds size ended u.interactive u.pieces :=
  hpc ▸ h.pieces

theorem Session.InOrder.stop {size : Nat} {ended : Bool} {u : Session} (h : u.InOrder size ended)
    (hpc : ¬u.pc.betweenTests) : u.InOrder size true := by
  refine ⟨fun _ => rfl, ?_⟩
  have hpieces := h.pieces
  cases hu : u.pc with
  | testOver | readLine | send | closed =>
    rw [hu] at hpieces
    exact hpieces
  | _ =>
    rw [hu] at hpc
    exact absurd rfl hpc

namespace Client

variable {ι : Type*}

/-- How often each index has been fetched, by the loops that are left and the index. -/
def Counted (size : Nat) (total lag : Int) (s : Client ι) : Prop :=
  ∀ k, k < size →
    (s.accesses.count k : Int) = total - (s.targetsLoops + lag) + if k < s.targetsIndex then 1 else 0

/-- Nobody starts a new round. -/
structure Quiet (size : Nat) (total : Int) (s : Client ι) : Prop where
  idle : ∀ i, ¬(s.pcs i).turning
  looping : s.targetsLoopingOver = false → 0 < s.targetsLoops
  ended : s.targetsLoopingOver = true → s.targetsLoops = 0 ∧ s.targetsIndex = 0
  counted : s.Counted size total 0

structure Turning (size : Nat) (total : Int) (s : Client ι) (i : ι) : Prop where
  alone : ∀ j, j ≠ i → ¬(s.pcs j).turning
  stage : (s.pcs i).Stage s.targetsIndex s.targetsLoops
  counted : s.Counted size total (s.pcs i).lag

def Tally (size : Nat) (total : Int) (s : Client ι) : Prop :=
  s.Quiet size total ∨ ∃ i, s.Turning size total i

/-- How often the sessions hold an element. -/
def held [Fintype ι] (s : Client ι) (k : Nat) : Nat :=
  ∑ i, (s.sessions i).pieces.count (.element k)

variable [DecidableEq ι] {targets : List Text} {size : Nat} {total : Int} {s t : Client ι}

/-- A session fetches the index when no other one is in its way, takes away the loop that it has
read, and stops the looping when no other one stands between its two tests. -/
def HasTurn (targets : List Text) (s : Client ι) (i : ι) : SessionPc → Prop
  | .fetch _ =>
    ∀ j, j ≠ i → (s.sessions j).pc.LeavesTurn targets.length s.targetsIndex s.targetsLoops
  | .casLoops tempLoops _ => s.targetsLoops = tempLoops
  | .storeOver => ∀ j, j ≠ i → ¬(s.sessions j).pc.betweenTests
  | _ => True

instance [Fintype ι] (targets : List Text) (s : Client ι) (i : ι) (pc : SessionPc) :
    Decidable (s.HasTurn targets i pc) :=
  match pc with
  | .fetch _ => Fintype.decidableForallFintype
  | .casLoops tempLoops _ => inferInstanceAs (Decidable (s.targetsLoops = tempLoops))
  | .storeOver => Fintype.decidableForallFintype
  | .testOver | .loadLoops | .casIndex _ | .checkLoops | .fetchAgain | .testInteractive
  | .readLine | .send | .closed => instDecidableTrue

/-- The condition on a step in the state in which it is taken. -/
def TakesTurns (targets : List Text) (s : Client ι) : ClientStep ι → Prop
  | .run i => s.HasTurn targets i (s.sessions i).pc
  | .readLine _ _ | .send _ _ => True

instance [Fintype ι] (targets : List Text) (s : Client ι) (a : ClientStep ι) :
    Decidable (s.TakesTurns targets a) :=
  match a with
  | .run i => inferInstanceAs (Decidable (s.HasTurn targets i _))
  | .readLine _ _ | .send _ _ => instDecidableTrue

omit [DecidableEq ι] in
private theorem TakesTurns.hasTurn {i : ι} {pc : SessionPc} (h : s.TakesTurns targets (.run i))
    (hpc : (s.sessions i).pc = pc) : s.HasTurn targets i pc :=
  hpc ▸ h

omit [DecidableEq ι] in
theorem TakesTurns.inTurn {a : ClientStep ι} (h : s.TakesTurns targets a) :
    s.InTurn targets a := by
  cases a with
  | run i =>
    unfold InTurn
    dsimp only
    cases hpc : (s.sessions i).pc with
    | fetch => exact fun j hj => (h.hasTurn hpc j hj).leavesRoom
    | _ => trivial
  | readLine | send => trivial

/-! ## The count -/

private theorem not_turning_update {pcs : ι → SessionPc} {i j : ι} {pc : SessionPc}
    (hpc : ¬pc.turning) (hothers : j ≠ i → ¬(pcs j).turning) :
    ¬(Function.update pcs i pc j).turning := by
  by_cases hj : j = i
  · rw [hj, Function.update_self]
    exact hpc
  · rw [Function.update_of_ne hj]
    exact hothers hj

omit [DecidableEq ι] in
private theorem Tally.turning {i : ι} {pc : SessionPc} (h : s.Tally size total) (hi : s.pcs i = pc)
    (hpc : pc.turning) :
    (∀ j, j ≠ i → ¬(s.pcs j).turning) ∧ pc.Stage s.targetsIndex s.targetsLoops ∧
      s.Counted size total pc.lag := by
  subst hi
  rcases h with hquiet | ⟨j, hj⟩
  · exact absurd hpc (hquiet.idle i)
  · by_cases hij : i = j
    · exact hij ▸ ⟨hj.alone, hj.stage, hj.counted⟩
    · exact absurd hpc (hj.alone i hij)

private theorem turning_of_update {i : ι} {pc : SessionPc} (hpcs : t.pcs = Function.update s.pcs i pc)
    (halone : ∀ j, j ≠ i → ¬(s.pcs j).turning)
    (hstage : pc.Stage t.targetsIndex t.targetsLoops) (hcounted : t.Counted size total pc.lag) :
    t.Turning size total i := by
  have hi : t.pcs i = pc := by rw [hpcs, Function.update_self]
  refine ⟨fun j hj => ?_, hi.symm ▸ hstage, hi.symm ▸ hcounted⟩
  rw [hpcs, Function.update_of_ne hj]
  exact halone j hj

private theorem quiet_of_update {i : ι} {pc : SessionPc} (hpcs : t.pcs = Function.update s.pcs i pc)
    (halone : ∀ j, j ≠ i → ¬(s.pcs j).turning) (hpc : ¬pc.turning)
    (hlooping : t.targetsLoopingOver = false → 0 < t.targetsLoops)
    (hover : t.targetsLoopingOver = true → t.targetsLoops = 0 ∧ t.targetsIndex = 0)
    (hcounted : t.Counted size total 0) : t.Quiet size total :=
  ⟨fun j => hpcs ▸ not_turning_update hpc (halone j), hlooping, hover, hcounted⟩

omit [DecidableEq ι] in
private theorem Turning.ne {i j : ι} {pc : SessionPc} (h : s.Turning size total j) (hi : s.pcs i = pc)
    (hpc : ¬pc.turning) : j ≠ i :=
  fun hji => hpc (hi ▸ hji ▸ h.stage.turning)

theorem Turning.keep {i j : ι} {pc : SessionPc} (h : s.Turning size total j) (hji : j ≠ i)
    (hpcs : t.pcs = Function.update s.pcs i pc) (hpc : ¬pc.turning)
    (hstage : (s.pcs j).Stage t.targetsIndex t.targetsLoops)
    (hcounted : t.Counted size total (s.pcs j).lag) : t.Turning size total j := by
  have hj : t.pcs j = s.pcs j := by rw [hpcs, Function.update_of_ne hji]
  refine ⟨fun k hk => ?_, hj.symm ▸ hstage, hj.symm ▸ hcounted⟩
  rw [hpcs]
  exact not_turning_update hpc fun _ => h.alone k hk

theorem Tally.move {i : ι} {old : SessionPc} {u : Session} (h : s.Tally size total)
    (hi : s.pcs i = old) (hold : ¬old.turning) (hnew : ¬u.pc.turning) :
    (s.setSession i u).Tally size total := by
  have hpcs := pcs_setSession s i u
  rcases h with hquiet | ⟨j, hj⟩
  · exact Or.inl (quiet_of_update hpcs (fun j _ => hquiet.idle j) hnew hquiet.looping hquiet.ended
      hquiet.counted)
  · exact Or.inr ⟨j, hj.keep (hj.ne hi hold) hpcs hnew hj.stage hj.counted⟩

omit [DecidableEq ι] in
theorem Tally.request (h : s.Tally size total) (requests : List (List Piece)) :
    Tally size total { s with requests := requests } := by
  rcases h with hquiet | ⟨j, hj⟩
  · exact Or.inl ⟨hquiet.idle, hquiet.looping, hquiet.ended, hquiet.counted⟩
  · exact Or.inr ⟨j, hj.alone, hj.stage, hj.counted⟩

theorem Counted.take {lag : Int} (h : s.Counted size total lag) (i : ι) :
    (s.take i).Counted size total lag := by
  intro k hk
  have hcount := h k hk
  change ((s.accesses ++ [s.targetsIndex]).count k : Int) =
    total - (s.targetsLoops + lag) + if k < s.targetsIndex + 1 then 1 else 0
  simp only [List.count_append, List.count_singleton, beq_iff_eq]
  rcases lt_trichotomy k s.targetsIndex with hlt | heq | hgt
  · rw [if_pos hlt] at hcount
    rw [if_neg (by omega), if_pos (by omega)]
    omega
  · rw [if_neg (by omega)] at hcount
    rw [if_pos heq.symm, if_pos (by omega)]
    omega
  · rw [if_neg (by omega)] at hcount
    rw [if_neg (by omega), if_neg (by omega)]
    omega

theorem Tally.take {i : ι} {tempLoops : Int} (h : s.Tally size total)
    (hpc : (s.sessions i).pc = .fetch tempLoops)
    (hroom : ∀ j, j ≠ i → (s.pcs j).LeavesTurn size s.targetsIndex s.targetsLoops)
    (hover : s.targetsLoopingOver = false) : (s.take i).Tally size total := by
  have hpcs := pcs_take s i
  rcases h with hquiet | ⟨j, hj⟩
  · refine Or.inl (quiet_of_update hpcs (fun j _ => hquiet.idle j) nofun hquiet.looping
      (fun hyes => ?_) (hquiet.counted.take i))
    exact absurd (hover.symm.trans hyes) Bool.false_ne_true
  · have hji : j ≠ i := hj.ne hpc nofun
    refine Or.inr ⟨j, hj.keep hji hpcs nofun ?_ (hj.counted.take i)⟩
    obtain ⟨hpcj | hpcj, -, hloops⟩ := (hroom j hji).of_turning hj.stage.turning
    · rw [hpcj]
      exact Or.inl hloops
    · rw [hpcj]
      exact hloops

theorem Tally.overrun {i : ι} {tempLoops : Int} (h : s.Tally size total)
    (hpc : (s.sessions i).pc = .fetch tempLoops) (hend : s.targetsIndex = size)
    (hroom : ∀ j, j ≠ i → (s.pcs j).LeavesTurn size s.targetsIndex s.targetsLoops)
    (hover : s.targetsLoopingOver = false) :
    (setPc { s with targetsIndex := s.targetsIndex + 1 } i
      (.casLoops tempLoops (s.targetsIndex + 1))).Tally size total := by
  have hquiet : s.Quiet size total := by
    rcases h with hquiet | ⟨j, hj⟩
    · exact hquiet
    · obtain ⟨-, hleft, -⟩ := (hroom j (hj.ne hpc nofun)).of_turning hj.stage.turning
      omega
  refine Or.inr ⟨i, turning_of_update (pcs_setPc _ i _) (fun j _ => hquiet.idle j)
    (hquiet.looping hover) fun k hk => ?_⟩
  have hcount := hquiet.counted k hk
  rw [if_pos (by omega)] at hcount
  change (s.accesses.count k : Int) =
    total - (s.targetsLoops + 0) + if k < s.targetsIndex + 1 then 1 else 0
  rw [if_pos (by omega), hcount]

private theorem Tally.decrement {i : ι} {tempLoops : Int} {tempIndex : Nat} (h : s.Tally size total)
    (hpc : (s.sessions i).pc = .casLoops tempLoops tempIndex) :
    (setPc { s with targetsLoops := s.targetsLoops - 1 } i (.casIndex tempIndex)).Tally
      size total := by
  obtain ⟨halone, hstage, hcounted⟩ := h.turning hpc rfl
  have hpos : 0 < s.targetsLoops := hstage
  refine Or.inr ⟨i, turning_of_update (pcs_setPc _ i _) halone (Int.le_sub_one_of_lt hpos)
    fun k hk => ?_⟩
  have hcount : (s.accesses.count k : Int) =
    total - (s.targetsLoops + 0) + if k < s.targetsIndex then 1 else 0 := hcounted k hk
  change (s.accesses.count k : Int) =
    total - (s.targetsLoops - 1 + 1) + if k < s.targetsIndex then 1 else 0
  rw [hcount, add_zero, sub_add_cancel]

theorem Tally.reset {i : ι} {tempIndex : Nat} (h : s.Tally size total)
    (hpc : (s.sessions i).pc = .casIndex tempIndex) (hend : s.targetsIndex = size + 1) :
    (setPc { s with targetsIndex := 0 } i .checkLoops).Tally size total := by
  obtain ⟨halone, hstage, hcounted⟩ := h.turning hpc rfl
  have hnonneg : 0 ≤ s.targetsLoops := hstage
  refine Or.inr ⟨i, turning_of_update (pcs_setPc _ i _) halone ?_ fun k hk => ?_⟩
  · rcases hnonneg.lt_or_eq with hpos | hzero
    · exact Or.inl hpos
    · exact Or.inr ⟨hzero.symm, rfl⟩
  · have hcount : (s.accesses.count k : Int) =
      total - (s.targetsLoops + 1) + if k < s.targetsIndex then 1 else 0 := hcounted k hk
    rw [if_pos (by omega)] at hcount
    change (s.accesses.count k : Int) =
      total - (s.targetsLoops + 0) + if k < 0 then 1 else 0
    rw [if_neg (Nat.not_lt_zero k)]
    omega

private theorem tally_step {a : ClientStep ι} (hstep : s.step targets a = some t)
    (hturns : s.TakesTurns targets a) (hbounds : s.InBounds targets)
    (horder : ∀ i, (s.sessions i).InOrder targets.length s.targetsLoopingOver)
    (h : s.Tally targets.length total) : t.Tally targets.length total := by
  cases fires hstep with
  | testOver i hpc =>
    apply h.move hpc nofun
    split <;> simp [SessionPc.turning]
  | loadLoops i hpc | ask i hpc | goOn i hpc => exact h.move hpc nofun nofun
  | readLine i line pc hpc hnext =>
    apply h.move hpc nofun
    rcases hnext with rfl | rfl <;> simp [SessionPc.turning]
  | send i ok hpc =>
    have hrequested := h.request (s.requests ++ [(s.sessions i).pieces])
    apply hrequested.move hpc nofun
    split <;> simp [SessionPc.turning]
  | fetch i tempLoops hpc hindex =>
    exact h.take hpc (hturns.hasTurn hpc) ((horder i).holds hpc).2
  | overrun i tempLoops hpc hindex =>
    have hroom := hturns.hasTurn hpc
    obtain ⟨hend, -⟩ := hbounds.rounds.at_end hpc nofun
      (fun j hj => (hroom j hj).leavesRoom) hindex
    exact h.overrun hpc hend hroom ((horder i).holds hpc).2
  | casLoops i tempLoops tempIndex hpc =>
    have hloops : s.targetsLoops = tempLoops := hturns.hasTurn hpc
    rw [if_pos hloops, ← hloops]
    exact h.decrement hpc
  | casIndex i tempIndex hpc =>
    obtain ⟨rfl, hend⟩ := hbounds.rounds.fits_at hpc
    rw [if_pos rfl]
    exact h.reset hpc hend
  | again i hpc hpos =>
    obtain ⟨halone, -, hcounted⟩ := h.turning hpc rfl
    exact Or.inr ⟨i, turning_of_update (pcs_setPc _ i _) halone hpos hcounted⟩
  | enough i hpc hle =>
    obtain ⟨halone, hstage, hcounted⟩ := h.turning hpc rfl
    have hlast : s.targetsLoops = 0 ∧ s.targetsIndex = 0 :=
      hstage.resolve_left (not_lt.mpr hle)
    exact Or.inr ⟨i, turning_of_update (pcs_setPc _ i _) halone hlast hcounted⟩
  | fetchAgain i hpc =>
    obtain ⟨halone, hstage, hcounted⟩ := h.turning hpc rfl
    have hlooping : s.targetsLoopingOver = false := ((horder i).holds hpc).2
    refine Or.inl (quiet_of_update (pcs_take s i) halone nofun (fun _ => hstage) (fun hyes => ?_)
      (hcounted.take i))
    exact absurd (hlooping.symm.trans hyes) Bool.false_ne_true
  | storeOver i hpc =>
    obtain ⟨halone, hstage, hcounted⟩ := h.turning hpc rfl
    exact Or.inl (quiet_of_update (pcs_setPc _ i _) halone nofun nofun (fun _ => hstage) hcounted)

/-! ## The pieces -/

private theorem inOrder_update {sessions : ι → Session} {ended : Bool} {i : ι} {u : Session}
    (hothers : ∀ j, j ≠ i → (sessions j).InOrder size ended) (hu : u.InOrder size ended) (j : ι) :
    (Function.update sessions i u j).InOrder size ended := by
  by_cases hj : j = i
  · rw [hj, Function.update_self]
    exact hu
  · rw [Function.update_of_ne hj]
    exact hothers j hj

private theorem inOrder_take {i : ι} (h : ∀ j, (s.sessions j).InOrder size s.targetsLoopingOver)
    (hpieces : (s.sessions i).pieces = [] ∧ s.targetsLoopingOver = false)
    (hindex : s.targetsIndex < size) (j : ι) :
    ((s.take i).sessions j).InOrder size s.targetsLoopingOver := by
  obtain ⟨hnil, hover⟩ := hpieces
  apply inOrder_update (fun j _ => h j)
  refine ⟨(h i).interactive, ?_⟩
  rw [hover, hnil]
  exact ⟨s.targetsIndex, hindex, rfl⟩

theorem inOrder_step {a : ClientStep ι} (hstep : s.step targets a = some t)
    (hturns : s.TakesTurns targets a) (hbounds : s.InBounds targets)
    (h : ∀ i, (s.sessions i).InOrder targets.length s.targetsLoopingOver) (j : ι) :
    (t.sessions j).InOrder targets.length t.targetsLoopingOver := by
  cases fires hstep with
  | testOver i hpc =>
    have hnil := (h i).holds hpc
    apply inOrder_update (fun j _ => h j)
    refine ⟨(h i).interactive, ?_⟩
    cases hover : s.targetsLoopingOver with
    | true => exact hnil
    | false => exact ⟨hnil, rfl⟩
  | loadLoops i hpc | casLoops i tempLoops tempIndex hpc | casIndex i tempIndex hpc
  | again i hpc | enough i hpc | overrun i tempLoops hpc hindex =>
    have hpieces := (h i).holds hpc
    apply inOrder_update (fun j _ => h j)
    exact ⟨(h i).interactive, hpieces⟩
  | fetch i tempLoops hpc hindex =>
    have hpieces := (h i).holds hpc
    exact inOrder_take h hpieces hindex j
  | fetchAgain i hpc =>
    have hpieces := (h i).holds hpc
    exact inOrder_take h hpieces (hbounds.rounds.fits_at hpc) j
  | storeOver i hpc =>
    have hothers : ∀ j, j ≠ i → ¬(s.sessions j).pc.betweenTests := hturns.hasTurn hpc
    have hpieces := (h i).holds hpc
    apply inOrder_update (fun j hj => (h j).stop (hothers j hj))
    exact ⟨fun _ => rfl, hpieces.1⟩
  | ask i hpc hover =>
    have hpieces := (h i).holds hpc
    rw [hover] at hpieces
    apply inOrder_update (fun j _ => h j)
    exact ⟨fun _ => hover, hpieces⟩
  | goOn i hpc hover =>
    have hpieces := (h i).holds hpc
    rw [hover] at hpieces
    obtain ⟨k, hk, hpieces⟩ := hpieces
    apply inOrder_update (fun j _ => h j)
    refine ⟨(h i).interactive, ⟨.element k, hpieces, hk⟩, fun hinteractive => ?_⟩
    exact absurd (hover.symm.trans ((h i).interactive hinteractive)) Bool.false_ne_true
  | readLine i line pc hpc hnext =>
    have hpieces := (h i).holds hpc
    have hline : (s.sessions i).pieces ++ [Piece.line line] = [.line line] :=
      congrArg (· ++ [Piece.line line]) hpieces
    apply inOrder_update (fun j _ => h j)
    refine ⟨(h i).interactive, ?_⟩
    dsimp only
    rw [hline]
    rcases hnext with rfl | rfl
    · intro k hk
      exact nomatch List.mem_singleton.mp hk
    · exact ⟨⟨.line line, rfl, trivial⟩, fun _ => ⟨line, rfl⟩⟩
  | send i ok hpc =>
    apply inOrder_update (fun j _ => h j)
    refine ⟨(h i).interactive, ?_⟩
    cases ok with
    | true => exact rfl
    | false => exact fun k => List.not_mem_nil

section Accounts

variable [Fintype ι]

/-- Every fetched element has been requested on its own or is held by a session. -/
def Accounted (s : Client ι) : Prop :=
  ∀ k, s.accesses.count k = s.requests.count [.element k] + s.held k

private theorem held_setSession (i : ι) (u : Session) (k : Nat) :
    (s.setSession i u).held k + (s.sessions i).pieces.count (.element k) =
      s.held k + u.pieces.count (.element k) :=
  sum_update_add (fun u => u.pieces.count (.element k)) s.sessions i u

theorem Accounted.keep {i : ι} {u : Session} (h : s.Accounted)
    (hu : ∀ k, u.pieces.count (.element k) = (s.sessions i).pieces.count (.element k)) :
    (s.setSession i u).Accounted := by
  intro k
  have hheld := held_setSession (s := s) i u k
  have hk := hu k
  have hcount := h k
  change s.accesses.count k = s.requests.count [.element k] + (s.setSession i u).held k
  omega

theorem Accounted.take (h : s.Accounted) (i : ι) : (s.take i).Accounted := by
  intro k
  have hheld := held_setSession (s := s) i { s.sessions i with
    pc := .testInteractive, pieces := (s.sessions i).pieces ++ [.element s.targetsIndex] } k
  have hcount := h k
  have hpiece : [Piece.element s.targetsIndex].count (.element k) = [s.targetsIndex].count k := by
    simp [List.count_singleton]
  rw [List.count_append, hpiece] at hheld
  change (s.accesses ++ [s.targetsIndex]).count k = s.requests.count [.element k] + (s.take i).held k
  rw [List.count_append]
  change (s.take i).held k + _ = _ at hheld
  omega

theorem Accounted.send {i : ι} {u : Session} (h : s.Accounted)
    (hsingle : Single size (s.sessions i).pieces) (hu : u.pieces = []) :
    (setSession { s with requests := s.requests ++ [(s.sessions i).pieces] } i u).Accounted := by
  obtain ⟨p, hp, -⟩ := hsingle
  intro k
  have hheld := held_setSession (s := s) i u k
  have hcount := h k
  have hrequest : [[p]].count [.element k] = [p].count (.element k) := by
    simp [List.count_singleton]
  rw [hu, hp, List.count_nil] at hheld
  rw [hp]
  change s.accesses.count k =
    (s.requests ++ [[p]]).count [.element k] + (s.setSession i u).held k
  rw [List.count_append, hrequest]
  omega

private theorem accounted_step {a : ClientStep ι} (hstep : s.step targets a = some t)
    (horder : ∀ i, (s.sessions i).InOrder size s.targetsLoopingOver) (h : s.Accounted) :
    t.Accounted := by
  cases fires hstep with
  | testOver | loadLoops | again | enough | ask | goOn => exact h.keep fun _ => rfl
  | casLoops | casIndex | overrun | storeOver => exact h.keep fun _ => rfl
  | fetch i | fetchAgain i => exact h.take i
  | readLine i line pc hpc hnext =>
    apply h.keep
    simp [List.count_append]
  | send i ok hpc =>
    exact h.send ((horder i).holds hpc).1 rfl

omit [DecidableEq ι] [Fintype ι] in
private theorem count_of_interactive {u : Session} (h : u.InOrder size true) (hu : u.interactive) (k : Nat) :
    u.pieces.count (.element k) = 0 := by
  rw [List.count_eq_zero]
  cases hpc : u.pc with
  | testOver | readLine | testInteractive =>
    have hnil : u.pieces = [] := h.holds hpc
    simp [hnil]
  | send =>
    obtain ⟨line, hline⟩ := (h.holds hpc).2 hu
    simp [hline]
  | closed => exact h.holds hpc k
  | _ => exact absurd (h.holds hpc).2 (by decide)

structure Books (targets : List Text) (total : Int) (s : Client ι) : Prop where
  bounds : s.InBounds targets
  order : ∀ i, (s.sessions i).InOrder targets.length s.targetsLoopingOver
  tally : s.Tally targets.length total
  accounted : s.Accounted
  single : ∀ r ∈ s.requests, Single targets.length r

omit [DecidableEq ι] in
private theorem books_init {loops : Int} (hloops : 0 < loops) : (init ι loops).Books targets loops where
  bounds := inBounds_init loops
  order _ := ⟨nofun, rfl⟩
  tally := by
    refine Or.inl ⟨nofun, fun _ => hloops, fun hover => ?_, fun k _ => ?_⟩
    · exact absurd (of_decide_eq_true hover) (not_le.mpr hloops)
    · simp [init]
  accounted k := by simp [init, held]
  single := nofun

private theorem books_step (hne : targets ≠ []) {a : ClientStep ι} (hstep : s.step targets a = some t)
    (hturns : s.TakesTurns targets a) (h : s.Books targets total) : t.Books targets total where
  bounds := inBounds_step hne hstep hturns.inTurn h.bounds
  order := inOrder_step hstep hturns h.bounds h.order
  tally := tally_step hstep hturns h.bounds h.order h.tally
  accounted := accounted_step hstep h.order h.accounted
  single := by
    cases fires hstep with
    | send i ok hpc =>
      have hpieces := (h.order i).holds hpc
      intro r hr
      rcases List.mem_append.mp hr with hr | hr
      · exact h.single r hr
      · exact List.mem_singleton.mp hr ▸ hpieces.1
    | _ => exact h.single

omit [DecidableEq ι] in
/-- When the looping is over and every session has moved on to interactive input, every element
has been requested as often as there were loops. -/
theorem Books.settled (h : s.Books targets total) (hover : s.targetsLoopingOver = true)
    (hinteractive : ∀ i, (s.sessions i).interactive) {k : Nat} (hk : k < targets.length) :
    (s.requests.count [.element k] : Int) = total := by
  have horder := h.order
  rw [hover] at horder
  have hheld : s.held k = 0 :=
    Finset.sum_eq_zero fun i _ => count_of_interactive (horder i) (hinteractive i) k
  have hquiet : s.Quiet targets.length total := by
    rcases h.tally with hquiet | ⟨i, hi⟩
    · exact hquiet
    · have hpieces := (horder i).pieces
      have hturning := hi.stage.turning
      cases hpc : (s.sessions i).pc <;> simp_all [pcs, SessionPc.Holds, SessionPc.turning]
  obtain ⟨hloops, hindex⟩ := hquiet.ended hover
  have hcount := hquiet.counted k hk
  have haccounted := h.accounted k
  rw [hloops, hindex, if_neg (Nat.not_lt_zero k)] at hcount
  omega

end Accounts

end Client

/-- In a run whose sessions take turns every request is for one element or one typed line, and in
the end every element has been requested as often as the user has entered. -/
theorem every_target_requested {ι : Type*} [DecidableEq ι] [Fintype ι] (targets : List Text)
    (hne : targets ≠ []) (loops : Int) (hloops : 0 < loops) (as : List (ClientStep ι))
    (hturns : (clientMachine targets ι).Guarded (Client.TakesTurns targets) (.init ι loops) as) :
    (clientMachine targets ι).Always
      (fun s => (∀ r ∈ s.requests, Single targets.length r) ∧
        (s.targetsLoopingOver = true → (∀ i, (s.sessions i).interactive) →
          ∀ k, k < targets.length → (s.requests.count [.element k] : Int) = loops))
      (.init ι loops) as :=
  (hturns.always (fun _ _ _ => Client.books_step hne) (Client.books_init hloops)).mono
    fun _ h => ⟨h.single, fun hover hinteractive _ hk => h.settled hover hinteractive hk⟩

/-- One session requests the only target in one round and stops the looping. -/
def soleRoundSteps : List (ClientStep Bool) :=
  [.run true, .run true, .run true, .run true, .send true true, .run true, .run true, .run true,
    .run true, .run true, .run true, .run true, .run true, .run false, .run false]

theorem every_target_requested_sole_round :
    (clientMachine [['a']] Bool).Always
      (fun s => (∀ r ∈ s.requests, Single 1 r) ∧
        (s.targetsLoopingOver = true → (∀ i, (s.sessions i).interactive) →
          ∀ k, k < 1 → (s.requests.count [.element k] : Int) = 1))
      (.init Bool 1) soleRoundSteps :=
  every_target_requested [['a']] (by decide) 1 (by decide) soleRoundSteps (by decide +kernel)

/-- One session stops the looping while the other one holds the only target, to which it then
appends a typed line. -/
def appendedSteps : List (ClientStep Bool) :=
  [.run true, .run true, .run true, .run false, .run false, .run false, .run false, .run false,
    .run false, .run false, .run true, .readLine true ['b'], .send true true, .run false]

theorem target_lost_to_typed_line :
    ¬∀ (targets : List Text), targets ≠ [] → ∀ loops : Int, 0 < loops →
      ∀ as : List (ClientStep Bool), (∀ i, .send i false ∉ as) →
        (clientMachine targets Bool).Always
          (fun s => s.targetsLoopingOver = true → (∀ i, (s.sessions i).interactive) →
            (∀ r ∈ s.requests, Single targets.length r) ∧
              ∀ k, k < targets.length → (s.requests.count [.element k] : Int) = loops)
          (.init Bool loops) as := by
  intro hclaim
  have hrun : ((clientMachine [['a']] Bool).run (.init Bool 1) appendedSteps).map
      (fun s => (s.targetsLoopingOver, (s.sessions true).interactive,
        (s.sessions false).interactive, s.requests)) =
      some (true, true, true, [[.element 0, .line ['b']]]) := by
    decide +kernel
  obtain ⟨s, hs, hlast⟩ := Option.map_eq_some_iff.mp hrun
  simp only [Prod.mk.injEq] at hlast
  obtain ⟨hover, htrue, hfalse, hrequests⟩ := hlast
  have hend := (hclaim [['a']] (by decide) 1 (by decide) appendedSteps (by decide)).last hs hover
    (fun i => by cases i <;> assumption)
  have hcount := hend.2 0 (by decide)
  rw [hrequests] at hcount
  exact absurd hcount (by decide)

end PetProject.ClientHttp
