import Mathlib.Data.List.Nodup
import Mathlib.Logic.Function.Basic
import Mathlib.Order.Basic

/-!
# Handles and their owners

Handles are handed to owners, passed on from one owner to another and released. As long as an owner
receives a handle only while it has none, every handle has one owner until it is released, and is
released once.
-/

namespace Framework

/-- The handle of each owner, the handles that were ever handed out, and the released ones, in
order. -/
structure Ledger (τ ι : Type*) where
  held : ι → Option τ
  handed : List τ
  released : List τ

namespace Ledger

variable {τ ι : Type*}

inductive Move (τ ι : Type*)
  | stay
  | receive (i : ι) (x : Option τ)
  | pass (i j : ι)
  | release (i : ι)

/-- The move is possible: a handle is handed out once, and to an owner without one. -/
def Move.Possible (L : Ledger τ ι) : Move τ ι → Prop
  | .receive i x => L.held i = none ∧ ∀ y, x = some y → y ∉ L.handed
  | .pass i j => i ≠ j
  | _ => True

/-- The owner to whom a handle is passed has none. -/
def Move.Gentle (L : Ledger τ ι) : Move τ ι → Prop
  | .pass i _ => L.held i = none
  | _ => True

/-- No handle has two owners, or is released twice or while it has one. -/
structure Exclusive (L : Ledger τ ι) : Prop where
  unique : ∀ i j x, L.held i = some x → L.held j = some x → i = j
  known : ∀ i x, L.held i = some x → x ∈ L.handed
  apart : ∀ i x, L.held i = some x → x ∉ L.released
  nodup : L.released.Nodup
  released_handed : ∀ x ∈ L.released, x ∈ L.handed

/-- Every handle has an owner or has been released. -/
def Settled (L : Ledger τ ι) : Prop := ∀ x ∈ L.handed, x ∈ L.released ∨ ∃ i, L.held i = some x

/-- Every handle has one owner and has not been released, or has been released, once. -/
def EachOnce [DecidableEq τ] (L : Ledger τ ι) : Prop :=
  ∀ x ∈ L.handed, ((∃! i, L.held i = some x) ∧ x ∉ L.released) ∨
    ((∀ i, L.held i ≠ some x) ∧ L.released.count x = 1)

theorem Exclusive.eachOnce_iff [DecidableEq τ] {L : Ledger τ ι} (h : L.Exclusive) :
    L.EachOnce ↔ L.Settled := by
  refine forall_congr' fun x => imp_congr_right fun _ => ?_
  constructor
  · rintro (⟨⟨i, hi, -⟩, -⟩ | ⟨-, hcount⟩)
    · exact Or.inr ⟨i, hi⟩
    · exact Or.inl (List.count_pos_iff.mp (by omega))
  · rintro (hreleased | ⟨i, hi⟩)
    · refine Or.inr ⟨fun i hi => h.apart i x hi hreleased, ?_⟩
      exact List.count_eq_one_of_mem h.nodup hreleased
    · exact Or.inl ⟨⟨i, hi, fun j hj => h.unique j i x hj hi⟩, h.apart i x hi⟩

variable [DecidableEq ι]

def apply (L : Ledger τ ι) : Move τ ι → Ledger τ ι
  | .stay => L
  | .receive i x => ⟨Function.update L.held i x, L.handed ++ x.toList, L.released⟩
  | .pass i j => ⟨Function.update (Function.update L.held i (L.held j)) j none, L.handed, L.released⟩
  | .release i =>
    ⟨Function.update L.held i none, L.handed, L.released ++ (L.held i).toList⟩

theorem held_pass {L : Ledger τ ι} {i j k : ι} (hij : i ≠ j) {x : τ} :
    (L.apply (.pass i j)).held k = some x ↔
      (k = i ∧ L.held j = some x) ∨ (k ≠ i ∧ k ≠ j ∧ L.held k = some x) := by
  show Function.update (Function.update L.held i (L.held j)) j none k = some x ↔ _
  rw [Function.update_apply, Function.update_apply]
  by_cases hkj : k = j
  · subst hkj
    simp [hij.symm]
  · by_cases hki : k = i
    · subst hki
      simp [hkj]
    · simp [hkj, hki]

theorem held_release {L : Ledger τ ι} {i k : ι} {x : τ} :
    (L.apply (.release i)).held k = some x ↔ k ≠ i ∧ L.held k = some x := by
  show Function.update L.held i none k = some x ↔ _
  rw [Function.update_apply]
  by_cases hki : k = i <;> simp [hki]

theorem held_receive {L : Ledger τ ι} {i k : ι} {r : Option τ} {x : τ} :
    (L.apply (.receive i r)).held k = some x ↔
      (k = i ∧ r = some x) ∨ (k ≠ i ∧ L.held k = some x) := by
  show Function.update L.held i r k = some x ↔ _
  rw [Function.update_apply]
  by_cases hki : k = i <;> simp [hki]

theorem exclusive_apply {L : Ledger τ ι} {m : Move τ ι} (h : L.Exclusive) (hm : m.Possible L) :
    (L.apply m).Exclusive := by
  cases m with
  | stay => exact h
  | receive i r =>
    obtain ⟨hfree, hfresh⟩ := hm
    have hnew : ∀ k x, L.held k = some x → r ≠ some x := fun k x hk hx =>
      hfresh x hx (h.known k x hk)
    refine ⟨?_, ?_, ?_, h.nodup, fun x hx => List.mem_append_left _ (h.released_handed x hx)⟩
    · intro k l x hk hl
      rcases held_receive.mp hk with ⟨hki, hx⟩ | ⟨-, hk⟩ <;>
        rcases held_receive.mp hl with ⟨hli, hx'⟩ | ⟨-, hl⟩
      · exact hki.trans hli.symm
      · exact absurd hx (hnew l x hl)
      · exact absurd hx' (hnew k x hk)
      · exact h.unique k l x hk hl
    · intro k x hk
      rcases held_receive.mp hk with ⟨-, hx⟩ | ⟨-, hk⟩
      · exact List.mem_append_right _ (Option.mem_toList.mpr hx)
      · exact List.mem_append_left _ (h.known k x hk)
    · intro k x hk
      rcases held_receive.mp hk with ⟨-, hx⟩ | ⟨-, hk⟩
      · exact fun hreleased => hfresh x hx (h.released_handed x hreleased)
      · exact h.apart k x hk
  | pass i j =>
    have hbefore : ∀ k x, (L.apply (.pass i j)).held k = some x → ∃ l, L.held l = some x := by
      intro k x hk
      rcases (held_pass hm).mp hk with ⟨-, hj⟩ | ⟨-, -, hk⟩
      · exact ⟨j, hj⟩
      · exact ⟨k, hk⟩
    refine ⟨?_, ?_, ?_, h.nodup, h.released_handed⟩
    · intro k l x hk hl
      rcases (held_pass hm).mp hk with ⟨hki, hj⟩ | ⟨-, hkj, hk⟩ <;>
        rcases (held_pass hm).mp hl with ⟨hli, hj'⟩ | ⟨-, hlj, hl⟩
      · exact hki.trans hli.symm
      · exact absurd (h.unique l j x hl hj) hlj
      · exact absurd (h.unique k j x hk hj') hkj
      · exact h.unique k l x hk hl
    · intro k x hk
      obtain ⟨l, hl⟩ := hbefore k x hk
      exact h.known l x hl
    · intro k x hk
      obtain ⟨l, hl⟩ := hbefore k x hk
      exact h.apart l x hl
  | release i =>
    refine ⟨?_, ?_, ?_, ?_, ?_⟩
    · intro k l x hk hl
      exact h.unique k l x (held_release.mp hk).2 (held_release.mp hl).2
    · intro k x hk
      exact h.known k x (held_release.mp hk).2
    · intro k x hk hreleased
      obtain ⟨hki, hk⟩ := held_release.mp hk
      rcases List.mem_append.mp hreleased with hx | hx
      · exact h.apart k x hk hx
      · exact hki (h.unique k i x hk (Option.mem_toList.mp hx))
    · refine List.nodup_append.mpr ⟨h.nodup, by cases L.held i <;> simp, ?_⟩
      rintro x hx _ hx' rfl
      exact h.apart i x (Option.mem_toList.mp hx') hx
    · intro x hx
      rcases List.mem_append.mp hx with hx | hx
      · exact h.released_handed x hx
      · exact h.known i x (Option.mem_toList.mp hx)

/-- A move leaves every handle with an owner or released exactly if it is gentle. -/
theorem settled_apply_iff {L : Ledger τ ι} {m : Move τ ι} (h : L.Exclusive) (hm : m.Possible L)
    (hsettled : L.Settled) : (L.apply m).Settled ↔ m.Gentle L := by
  cases m with
  | stay => exact iff_of_true hsettled trivial
  | receive i r =>
    refine iff_of_true (fun x hx => ?_) trivial
    rcases List.mem_append.mp hx with hx | hx
    · rcases hsettled x hx with hreleased | ⟨k, hk⟩
      · exact Or.inl hreleased
      · have hki : k ≠ i := by
          rintro rfl
          rw [hm.1] at hk
          cases hk
        exact Or.inr ⟨k, held_receive.mpr (Or.inr ⟨hki, hk⟩)⟩
    · exact Or.inr ⟨i, held_receive.mpr (Or.inl ⟨rfl, Option.mem_toList.mp hx⟩)⟩
  | pass i j =>
    constructor
    · intro hpassed
      -- what the new owner had would be lost
      cases hi : L.held i with
      | none => exact hi
      | some x =>
        exfalso
        rcases hpassed x (h.known i x hi) with hreleased | ⟨k, hk⟩
        · exact h.apart i x hi hreleased
        · rcases (held_pass hm).mp hk with ⟨-, hj⟩ | ⟨hki, -, hk⟩
          · exact hm (h.unique i j x hi hj)
          · exact hki (h.unique k i x hk hi)
    · intro hfree x hx
      rcases hsettled x hx with hreleased | ⟨k, hk⟩
      · exact Or.inl hreleased
      · by_cases hkj : k = j
        · subst hkj
          exact Or.inr ⟨i, (held_pass hm).mpr (Or.inl ⟨rfl, hk⟩)⟩
        · have hki : k ≠ i := by
            rintro rfl
            rw [hfree] at hk
            cases hk
          exact Or.inr ⟨k, (held_pass hm).mpr (Or.inr ⟨hki, hkj, hk⟩)⟩
  | release i =>
    refine iff_of_true (fun x hx => ?_) trivial
    rcases hsettled x hx with hreleased | ⟨k, hk⟩
    · exact Or.inl (List.mem_append_left _ hreleased)
    · by_cases hki : k = i
      · subst hki
        exact Or.inl (List.mem_append_right _ (Option.mem_toList.mpr hk))
      · exact Or.inr ⟨k, held_release.mpr ⟨hki, hk⟩⟩

end Ledger

end Framework
