import Mathlib.Order.Nat
import PetProject.Framework.Machine

/-!
# Work that comes to an end

A machine works towards a goal when its useful steps lower a number and, short of the goal, one of
them is enabled. Then no run of useful steps is longer than the number, and each of them can be
continued to the goal.
-/

namespace Framework

namespace Machine

variable {σ α : Type*}

theorem Guarded.forall_mem {M : Machine σ α} {G : σ → α → Prop} {L : α → Prop}
    (hL : ∀ s a, G s a → L a) {s t : σ} {as : List α} (h : M.Guarded G s as)
    (hrun : M.run s as = some t) : ∀ a ∈ as, L a := by
  induction as generalizing s with
  | nil => exact fun _ ha => absurd ha List.not_mem_nil
  | cons a as ih =>
    obtain ⟨u, hu, hrest⟩ := M.run_cons_eq_some.mp hrun
    obtain ⟨ha, has⟩ := h u hu
    exact List.forall_mem_cons.mpr ⟨hL s a ha, ih has hrest⟩

/-- The useful steps keep an invariant and lower a number, and one of them is enabled in every
state short of the goal. -/
structure WorksTowards (M : Machine σ α) (I : σ → Prop) (useful : σ → α → Prop) (m : σ → Nat)
    (goal : σ → Prop) : Prop where
  keep : ∀ s a t, M.step s a = some t → useful s a → I s → I t
  lower : ∀ s a t, M.step s a = some t → useful s a → I s → m t < m s
  enabled : ∀ s, I s → ¬goal s → ∃ a t, useful s a ∧ M.step s a = some t

variable {M : Machine σ α} {I : σ → Prop} {useful : σ → α → Prop} {m : σ → Nat} {goal : σ → Prop}

theorem WorksTowards.length_le (h : M.WorksTowards I useful m goal) {s t : σ} {as : List α}
    (hs : I s) (hrun : M.run s as = some t) (huseful : M.Guarded useful s as) :
    as.length + m t ≤ m s ∧ I t := by
  induction as generalizing s with
  | nil =>
    obtain rfl := Option.some.inj hrun
    exact ⟨(Nat.zero_add _).le, hs⟩
  | cons a as ih =>
    obtain ⟨u, hu, hrest⟩ := M.run_cons_eq_some.mp hrun
    obtain ⟨ha, has⟩ := huseful u hu
    have hlower := h.lower s a u hu ha hs
    have htail := ih (h.keep s a u hu ha hs) hrest has
    rw [List.length_cons]
    exact ⟨by omega, htail.2⟩

theorem WorksTowards.reaches (h : M.WorksTowards I useful m goal) {s : σ} (hs : I s) :
    ∃ as t, M.Guarded useful s as ∧ M.run s as = some t ∧ I t ∧ goal t := by
  induction hn : m s using Nat.strongRecOn generalizing s with
  | ind n ih =>
    by_cases hgoal : goal s
    · exact ⟨[], s, trivial, rfl, hs, hgoal⟩
    · obtain ⟨a, u, ha, hu⟩ := h.enabled s hs hgoal
      have hlower := h.lower s a u hu ha hs
      obtain ⟨as, t, hguarded, hrun, ht⟩ := ih (m u) (hn ▸ hlower) (h.keep s a u hu ha hs) rfl
      refine ⟨a :: as, t, fun v hv => ?_, M.run_cons_eq_some.mpr ⟨u, hu, hrun⟩, ht⟩
      obtain rfl := Option.some.inj (hu.symm.trans hv)
      exact ⟨ha, hguarded⟩

/-- A run whose steps lower a number, apart from the labels that are paid for. -/
theorem length_le_of_paid {M : Machine σ α} {m : σ → Nat} {paid : α → Bool} {k : Nat}
    (h : ∀ s a t, M.step s a = some t → m t < m s + if paid a then k else 0)
    {s t : σ} {as : List α} (hrun : M.run s as = some t) :
    as.length + m t ≤ m s + k * as.countP paid := by
  induction as generalizing s with
  | nil =>
    obtain rfl := Option.some.inj hrun
    simp
  | cons a as ih =>
    obtain ⟨u, hu, hrest⟩ := M.run_cons_eq_some.mp hrun
    have hlower := h s a u hu
    have htail := ih hrest
    rw [List.length_cons, List.countP_cons, Nat.mul_add]
    split at hlower
    case isTrue hpaid =>
      rw [if_pos hpaid]
      omega
    case isFalse hpaid =>
      rw [if_neg hpaid]
      omega

end Machine

end Framework
