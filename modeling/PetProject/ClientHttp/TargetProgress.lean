import Mathlib.Algebra.Group.Action.Defs
import Mathlib.Algebra.Order.BigOperators.Group.Finset
import Mathlib.Tactic.Ring
import PetProject.ClientHttp.TargetLoop
import PetProject.Framework.Custody
import PetProject.Framework.Progress

/-!
# The target loop comes to an end

The sessions share the counters of the loop without a lock: a session that loses a
`compare_exchange_strong` goes on with what it has, and may start a round that another one has
started already. Each exchange that is lost is still paid for by a loop that somebody has taken
away, so however the sessions are interleaved, they all come to wait for a line of input.
-/

namespace PetProject.ClientHttp

open Framework
open scoped BigOperators

/-- The step is a line of input. -/
def ClientStep.typed {ι : Type*} : ClientStep ι → Bool
  | .readLine _ _ => true
  | _ => false

/-! ## What is left to do -/

/-- The weight of one loop over `targets`, for each session that can take it away or lose it. -/
def roundWeight (size : Nat) : Nat := 5 * size + 9

namespace SessionPc

/-- `temp_loops` has fallen behind `targets_loops`: the session cannot take a loop away. -/
def Stale (loops tempLoops : Int) : Prop := 0 < loops ∧ loops ≠ tempLoops

instance (loops tempLoops : Int) : Decidable (Stale loops tempLoops) :=
  inferInstanceAs (Decidable (_ ∧ _))

def staleWeight (size : Nat) (loops tempLoops : Int) : Nat :=
  if Stale loops tempLoops then roundWeight size else 0

/-- How many steps the session can still take before it waits for a line, apart from the elements
of `targets` that are left and the loops that are left. -/
def weight (size : Nat) (loops : Int) (looped : Bool) : SessionPc → Nat
  | .send => 5 * size + 9
  | .testOver => 5 * size + 8
  | .loadLoops => 5 * size + 7
  | .fetch tempLoops => 5 * size + 6 + staleWeight size loops tempLoops
  | .casLoops tempLoops _ => 5 * size + 5 + staleWeight size loops tempLoops
  | .casIndex _ => if 0 < loops then 10 * size + 13 else 5 * size + 4
  | .checkLoops => if 0 < loops then 5 * size + 12 else 3
  | .fetchAgain => 5 * size + 11
  | .storeOver => 2
  | .testInteractive => if looped then 1 else 5 * size + 10
  | .readLine | .closed => 0

private theorem weight_true_le (size : Nat) (loops : Int) (looped : Bool) (pc : SessionPc) :
    pc.weight size loops true ≤ pc.weight size loops looped := by
  cases pc with
  | testInteractive =>
    cases looped with
    | true => exact le_rfl
    | false => exact Nat.le_add_left 1 _
  | _ => exact le_rfl

private theorem weight_testInteractive_le (size : Nat) (loops : Int) (looped : Bool) :
    SessionPc.testInteractive.weight size loops looped ≤ 5 * size + 10 := by
  cases looped with
  | true => exact Nat.le_add_left 1 _
  | false => exact le_rfl

private theorem weight_sub_one_le (size : Nat) (loops : Int) (looped : Bool) (pc : SessionPc) :
    pc.weight size (loops - 1) looped ≤ pc.weight size loops looped +
      if 0 < loops then roundWeight size else 0 := by
  have hstale : ∀ tempLoops, staleWeight size (loops - 1) tempLoops ≤
      staleWeight size loops tempLoops + if 0 < loops then roundWeight size else 0 := by
    intro tempLoops
    by_cases hloops : 0 < loops
    · rw [if_pos hloops]
      refine le_trans ?_ (Nat.le_add_left _ _)
      unfold staleWeight
      split
      · exact le_rfl
      · exact Nat.zero_le _
    · have hfresh : ¬Stale (loops - 1) tempLoops := fun h => hloops (by have := h.1; omega)
      rw [staleWeight, if_neg hfresh]
      exact Nat.zero_le _
  cases pc with
  | fetch tempLoops | casLoops tempLoops tempIndex =>
    have htemp := hstale tempLoops
    simp only [weight]
    omega
  | casIndex | checkLoops =>
    simp only [weight]
    split <;> split <;> omega
  | _ => exact Nat.le_add_right _ _

end SessionPc

namespace Client

variable {ι : Type*} [Fintype ι] {targets : List Text} {s t : Client ι}

/-- The loops that are left, each one for every session and for the one that takes it away, the
elements that are left in this loop, and what each session still does. -/
def weight (targets : List Text) (s : Client ι) : Nat :=
  roundWeight targets.length * ((Fintype.card ι + 1) * s.targetsLoops.toNat) +
    5 * (targets.length - s.targetsIndex) +
    ∑ i, (s.pcs i).weight targets.length s.targetsLoops s.targetsLoopingOver

private theorem weight_init (loops : Int) : (init ι loops).weight targets =
    roundWeight targets.length * ((Fintype.card ι + 1) * loops.toNat) + 5 * targets.length +
      Fintype.card ι * (5 * targets.length + 8) := by
  simp [weight, init, pcs, SessionPc.weight]

variable [DecidableEq ι]

private theorem weight_lt {i : ι} {old pc : SessionPc} {d k : Nat}
    (hold : (s.sessions i).pc = old) (hpcs : t.pcs = Function.update s.pcs i pc)
    (hothers : ∀ pc : SessionPc, pc.weight targets.length t.targetsLoops t.targetsLoopingOver ≤
      pc.weight targets.length s.targetsLoops s.targetsLoopingOver + d)
    (hlt : roundWeight targets.length * ((Fintype.card ι + 1) * t.targetsLoops.toNat) +
        5 * (targets.length - t.targetsIndex) + Fintype.card ι * d +
        pc.weight targets.length t.targetsLoops t.targetsLoopingOver <
      roundWeight targets.length * ((Fintype.card ι + 1) * s.targetsLoops.toNat) +
        5 * (targets.length - s.targetsIndex) +
        old.weight targets.length t.targetsLoops t.targetsLoopingOver + k) :
    t.weight targets < s.weight targets + k := by
  have hi : s.pcs i = old := hold
  have hmoved := sum_update_add
    (SessionPc.weight targets.length t.targetsLoops t.targetsLoopingOver) s.pcs i pc
  rw [hi] at hmoved
  have hstayed : ∑ j, (s.pcs j).weight targets.length t.targetsLoops t.targetsLoopingOver ≤
      ∑ j, (s.pcs j).weight targets.length s.targetsLoops s.targetsLoopingOver +
        Fintype.card ι * d := by
    refine (Finset.sum_le_sum fun j _ => hothers (s.pcs j)).trans_eq ?_
    rw [Finset.sum_add_distrib, Finset.sum_const, Finset.card_univ, smul_eq_mul]
  unfold weight
  rw [hpcs]
  omega

private theorem weight_lt_of_move {i : ι} {old pc : SessionPc} {k : Nat}
    (hold : (s.sessions i).pc = old) (hpcs : t.pcs = Function.update s.pcs i pc)
    (hloops : t.targetsLoops = s.targetsLoops)
    (hover : t.targetsLoopingOver = s.targetsLoopingOver)
    (hlt : 5 * (targets.length - t.targetsIndex) +
        pc.weight targets.length s.targetsLoops s.targetsLoopingOver <
      5 * (targets.length - s.targetsIndex) +
        old.weight targets.length s.targetsLoops s.targetsLoopingOver + k) :
    t.weight targets < s.weight targets + k := by
  refine weight_lt (d := 0) hold hpcs (fun pc => ?_) ?_
  · rw [hloops, hover]
    exact le_rfl
  · rw [hloops, hover]
    omega

private theorem weight_casLoops {i : ι} {tempLoops : Int} {tempIndex : Nat}
    (hpc : (s.sessions i).pc = .casLoops tempLoops tempIndex) :
    (setPc { s with targetsLoops :=
      if s.targetsLoops = tempLoops then tempLoops - 1 else s.targetsLoops } i
        (.casIndex tempIndex)).weight targets < s.weight targets := by
  by_cases heq : s.targetsLoops = tempLoops
  case neg =>
    -- the copy is stale, and the session pays with it for the round that it may start
    refine weight_lt_of_move (k := 0) hpc (pcs_setPc _ i _) (if_neg heq) rfl ?_
    by_cases hloops : 0 < s.targetsLoops
    · have hstale : SessionPc.Stale s.targetsLoops tempLoops := ⟨hloops, heq⟩
      simp only [SessionPc.weight, SessionPc.staleWeight, if_pos hstale, if_pos hloops,
        roundWeight, setPc, setSession]
      omega
    · simp only [SessionPc.weight, if_neg hloops, setPc, setSession]
      omega
  case pos =>
    obtain rfl := heq
    refine weight_lt (k := 0) (d := if 0 < s.targetsLoops then roundWeight targets.length else 0)
      hpc (pcs_setPc _ i _) (fun pc => ?_) ?_
    · simp only [setPc, setSession, ↓reduceIte]
      exact pc.weight_sub_one_le targets.length s.targetsLoops s.targetsLoopingOver
    · simp only [setPc, setSession, ↓reduceIte, SessionPc.weight]
      by_cases hloops : 0 < s.targetsLoops
      · have hnat : s.targetsLoops.toNat = (s.targetsLoops - 1).toNat + 1 := by omega
        have hround : roundWeight targets.length *
            ((Fintype.card ι + 1) * ((s.targetsLoops - 1).toNat + 1)) =
            roundWeight targets.length * ((Fintype.card ι + 1) * (s.targetsLoops - 1).toNat) +
              Fintype.card ι * roundWeight targets.length + roundWeight targets.length := by
          ring
        have hweight : roundWeight targets.length = 5 * targets.length + 9 := rfl
        rw [if_pos hloops, hnat, hround]
        split <;> omega
      · have hnat : s.targetsLoops.toNat = (s.targetsLoops - 1).toNat := by omega
        have hless : ¬0 < s.targetsLoops - 1 := by omega
        rw [if_neg hloops, if_neg hless, hnat]
        omega

/-- Every step lowers the weight, but for the line of input that sends a session back to work. -/
theorem weight_step {a : ClientStep ι} (h : s.step targets a = some t) :
    t.weight targets < s.weight targets + if a.typed then 5 * targets.length + 10 else 0 := by
  cases fires h with
  | testOver i hpc =>
    refine weight_lt_of_move hpc (pcs_setPc s i _) rfl rfl ?_
    cases hover : s.targetsLoopingOver <;>
      simp [SessionPc.weight, setPc, setSession, ClientStep.typed]
  | loadLoops i hpc =>
    refine weight_lt_of_move hpc (pcs_setPc s i _) rfl rfl ?_
    -- the number of loops has just been read
    have hfresh : ¬SessionPc.Stale s.targetsLoops s.targetsLoops := fun hstale => hstale.2 rfl
    simp [SessionPc.weight, SessionPc.staleWeight, hfresh, setPc, setSession, ClientStep.typed]
  | fetch i tempLoops hpc hindex =>
    refine weight_lt_of_move hpc (pcs_take s i) rfl rfl ?_
    have hask := SessionPc.weight_testInteractive_le targets.length s.targetsLoops
      s.targetsLoopingOver
    simp only [SessionPc.weight, take, setSession, ClientStep.typed] at hask ⊢
    omega
  | overrun i tempLoops hpc hindex =>
    refine weight_lt_of_move hpc (pcs_setPc _ i _) rfl rfl ?_
    simp only [SessionPc.weight, setPc, setSession, ClientStep.typed]
    omega
  | casLoops i tempLoops tempIndex hpc =>
    exact weight_casLoops hpc
  | casIndex i tempIndex hpc =>
    refine weight_lt_of_move hpc (pcs_setPc _ i _) rfl rfl ?_
    simp only [SessionPc.weight, setPc, setSession, ClientStep.typed]
    split <;> split <;> omega
  | again i hpc hloops =>
    refine weight_lt_of_move hpc (pcs_setPc s i _) rfl rfl ?_
    simp [SessionPc.weight, hloops, setPc, setSession, ClientStep.typed]
  | enough i hpc hloops =>
    refine weight_lt_of_move hpc (pcs_setPc s i _) rfl rfl ?_
    simp [SessionPc.weight, hloops.not_gt, setPc, setSession, ClientStep.typed]
  | fetchAgain i hpc =>
    refine weight_lt_of_move hpc (pcs_take s i) rfl rfl ?_
    have hask := SessionPc.weight_testInteractive_le targets.length s.targetsLoops
      s.targetsLoopingOver
    simp only [SessionPc.weight, take, setSession, ClientStep.typed] at hask ⊢
    omega
  | storeOver i hpc =>
    refine weight_lt (d := 0) hpc (pcs_setPc _ i _)
      (fun pc => pc.weight_true_le targets.length s.targetsLoops s.targetsLoopingOver) ?_
    simp [SessionPc.weight, setPc, setSession, ClientStep.typed]
  | ask i hpc hover =>
    refine weight_lt_of_move hpc (pcs_setSession s i _) rfl rfl ?_
    simp [SessionPc.weight, hover, setSession, ClientStep.typed]
  | goOn i hpc hover =>
    refine weight_lt_of_move hpc (pcs_setPc s i _) rfl rfl ?_
    simp [SessionPc.weight, hover, setPc, setSession, ClientStep.typed]
  | readLine i line pc hpc hnext =>
    refine weight_lt_of_move hpc (pcs_setSession s i _) rfl rfl ?_
    rcases hnext with rfl | rfl <;> simp [SessionPc.weight, setSession, ClientStep.typed]
  | send i ok hpc =>
    refine weight_lt_of_move hpc (pcs_setSession _ i _) rfl rfl ?_
    cases ok <;> simp [SessionPc.weight, setSession, ClientStep.typed]

/-! ## Where the loop ends -/

/-- Every session waits for a line of input, or has ended. -/
def AtRest (s : Client ι) : Prop := ∀ i, s.pcs i = .readLine ∨ s.pcs i = .closed

omit [Fintype ι] in
private theorem exists_step_of_not_atRest (targets : List Text) (h : ¬s.AtRest) :
    ∃ a t, a.typed = false ∧ s.step targets a = some t := by
  obtain ⟨i, hi⟩ := not_forall.mp h
  obtain ⟨hread, hclosed⟩ := not_or.mp hi
  have hrun : (∃ t, s.runStep targets i = some t) →
      ∃ a t, a.typed = false ∧ s.step targets a = some t := fun ⟨t, ht⟩ => ⟨.run i, t, rfl, ht⟩
  cases hpc : (s.sessions i).pc with
  | readLine => exact absurd hpc hread
  | closed => exact absurd hpc hclosed
  | send => exact ⟨.send i true, _, rfl, if_pos hpc⟩
  | fetch | testInteractive =>
    refine hrun ?_
    unfold runStep
    rw [hpc]
    dsimp only
    split <;> exact ⟨_, rfl⟩
  | _ =>
    refine hrun ?_
    unfold runStep
    rw [hpc]
    exact ⟨_, rfl⟩

end Client

/-- What a session that is about to stop the looping, or that waits for a line, knows. -/
def SessionPc.Ends (loops : Int) (looped : Bool) : SessionPc → Prop
  | .storeOver => loops ≤ 0
  | .readLine => looped = true
  | _ => True

theorem SessionPc.Ends.mono {loops loops' : Int} {looped looped' : Bool} (hloops : loops' ≤ loops)
    (hlooped : looped = true → looped' = true) {pc : SessionPc} (h : pc.Ends loops looped) :
    pc.Ends loops' looped' := by
  cases pc with
  | storeOver => exact hloops.trans h
  | readLine => exact hlooped h
  | _ => trivial

namespace Client

variable {ι : Type*} [DecidableEq ι] {targets : List Text} {s t : Client ι}

/-- The looping is over only when no loop is left. -/
structure Ending (s : Client ι) : Prop where
  looped : s.targetsLoopingOver = true → s.targetsLoops ≤ 0
  ends : ∀ i, (s.pcs i).Ends s.targetsLoops s.targetsLoopingOver

omit [DecidableEq ι] in
private theorem ending_init (loops : Int) : (init ι loops).Ending :=
  ⟨of_decide_eq_true, fun _ => trivial⟩

private theorem Ending.update {i : ι} {pc : SessionPc} (h : s.Ending)
    (hpcs : t.pcs = Function.update s.pcs i pc) (hloops : t.targetsLoops ≤ s.targetsLoops)
    (hlooped : s.targetsLoopingOver = true → t.targetsLoopingOver = true)
    (hended : t.targetsLoopingOver = true → t.targetsLoops ≤ 0)
    (hpc : pc.Ends t.targetsLoops t.targetsLoopingOver) : t.Ending := by
  refine ⟨hended, fun j => ?_⟩
  rw [hpcs]
  by_cases hj : j = i
  · rw [hj, Function.update_self]
    exact hpc
  · rw [Function.update_of_ne hj]
    exact (h.ends j).mono hloops hlooped

private theorem ending_step {a : ClientStep ι} (hstep : s.step targets a = some t) (h : s.Ending) :
    t.Ending := by
  cases fires hstep with
  | testOver i hpc =>
    refine h.update (pcs_setPc s i _) le_rfl id h.looped ?_
    split <;> trivial
  | loadLoops i | again i | goOn i => exact h.update (pcs_setPc s i _) le_rfl id h.looped trivial
  | fetch i | fetchAgain i => exact h.update (pcs_take s i) le_rfl id h.looped trivial
  | overrun i | casIndex i => exact h.update (pcs_setPc _ i _) le_rfl id h.looped trivial
  | casLoops i tempLoops tempIndex hpc =>
    have hloops : (if s.targetsLoops = tempLoops then tempLoops - 1 else s.targetsLoops) ≤
        s.targetsLoops := by
      split <;> omega
    exact h.update (pcs_setPc _ i _) hloops id (fun hlooped => hloops.trans (h.looped hlooped))
      trivial
  | enough i hpc hloops => exact h.update (pcs_setPc s i _) le_rfl id h.looped hloops
  | storeOver i hpc =>
    have hi : SessionPc.Ends s.targetsLoops s.targetsLoopingOver .storeOver := hpc ▸ h.ends i
    exact h.update (pcs_setPc _ i _) le_rfl (fun _ => rfl) (fun _ => hi) trivial
  | ask i hpc hlooped => exact h.update (pcs_setSession s i _) le_rfl id h.looped hlooped
  | readLine i line pc hpc hnext =>
    refine h.update (pcs_setSession s i _) le_rfl id h.looped ?_
    rcases hnext with rfl | rfl <;> trivial
  | send i ok hpc =>
    refine h.update (pcs_setSession _ i _) le_rfl id h.looped ?_
    cases ok <;> trivial

end Client

/-- However the sessions are interleaved, the loops that the user has entered come to an end: a run
has at most so many steps as the loops, the targets and the typed lines allow, a session short of
waiting for a line can always go on, and none waits for one before the loops are used up. -/
theorem sessions_come_to_rest {ι : Type*} [Fintype ι] [DecidableEq ι] (targets : List Text)
    (loops : Int) {as : List (ClientStep ι)} {s : Client ι}
    (hrun : (clientMachine targets ι).run (.init ι loops) as = some s) :
    as.length ≤ (5 * targets.length + 9) * ((Fintype.card ι + 1) * loops.toNat) +
        5 * targets.length + Fintype.card ι * (5 * targets.length + 8) +
        (5 * targets.length + 10) * as.countP ClientStep.typed ∧
      (s.AtRest ∨ ∃ a t, a.typed = false ∧ s.step targets a = some t) ∧
      ((∃ i, s.pcs i = .readLine) → s.targetsLoopingOver = true ∧ s.targetsLoops ≤ 0) := by
  have hlength : as.length + s.weight targets ≤ (Client.init ι loops).weight targets +
      (5 * targets.length + 10) * as.countP ClientStep.typed :=
    Machine.length_le_of_paid (fun _ _ _ h => Client.weight_step h) hrun
  have hending : s.Ending := Machine.run_invariant (P := Client.Ending)
    (fun _ _ _ => Client.ending_step) hrun (Client.ending_init loops)
  rw [Client.weight_init, roundWeight] at hlength
  refine ⟨by omega, Classical.or_iff_not_imp_left.mpr (Client.exists_step_of_not_atRest targets),
    fun ⟨i, hi⟩ => ?_⟩
  have hlooped : SessionPc.Ends s.targetsLoops s.targetsLoopingOver .readLine := hi ▸ hending.ends i
  exact ⟨hlooped, hending.looped hlooped⟩

/-- One session takes the only target, uses up the only loop, and waits for a line. -/
def oneLoopSteps : List (ClientStep Bool) :=
  List.replicate 4 (.run true) ++ .send true true :: List.replicate 8 (.run true)

theorem sessions_come_to_rest_one_loop :
    ∃ s, (clientMachine [['a']] Bool).run (.init Bool 1) oneLoopSteps = some s ∧
      oneLoopSteps.length ≤ 73 ∧ s.targetsLoopingOver = true ∧ s.targetsLoops ≤ 0 := by
  have hreads : ((clientMachine [['a']] Bool).run (.init Bool 1) oneLoopSteps).any
      (fun s => decide (s.pcs true = .readLine)) = true := by decide +kernel
  obtain ⟨s, hs, hpc⟩ := (Option.any_eq_true _ _).mp hreads
  obtain ⟨hlength, -, hends⟩ := sessions_come_to_rest [['a']] 1 hs
  exact ⟨s, hs, hlength, hends ⟨true, of_decide_eq_true hpc⟩⟩

end PetProject.ClientHttp
