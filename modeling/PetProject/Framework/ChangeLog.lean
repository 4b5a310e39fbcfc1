import Mathlib.Data.Finset.Basic
import PetProject.Framework.Bag

/-!
# Snapshots and logs

A log of the changes of a set, replayed over a bag that was taken as a snapshot at some time. The
log overrules the snapshot on every element that it removes; on an element that it only inserts
it counts on top of the snapshot. So a snapshot that already has such an element spoils the replay.
-/

namespace Framework

variable {α : Type*} [DecidableEq α]

/-- The changes that lead from the first set to the second. -/
inductive ChangeLog (start : Finset α) : List (BagOp α) → Finset α → Prop
  | nil : ChangeLog start [] start
  | add {ops : List (BagOp α)} {now : Finset α} (log : ChangeLog start ops now) {a : α}
      (ha : a ∉ now) : ChangeLog start (ops ++ [.add a]) (insert a now)
  | drop {ops : List (BagOp α)} {now : Finset α} (log : ChangeLog start ops now) {a : α}
      (ha : a ∈ now) : ChangeLog start (ops ++ [.drop a]) (now.erase a)

namespace ChangeLog

variable {start now : Finset α} {ops : List (BagOp α)}

theorem mem_of_add (log : ChangeLog start ops now) {a : α} (hadd : .add a ∈ ops)
    (hdrop : .drop a ∉ ops) : a ∈ now := by
  induction log with
  | nil => exact nomatch hadd
  | @add ops now log b hb ih =>
    rcases List.mem_append.mp hadd with hadd | hadd
    · exact Finset.mem_insert_of_mem (ih hadd fun h => hdrop (List.mem_append_left _ h))
    · obtain rfl : a = b := by simpa using hadd
      exact Finset.mem_insert_self a now
  | @drop ops now log b hb ih =>
    have hops : .add a ∈ ops := by simpa using hadd
    have hne : a ≠ b := by
      rintro rfl
      exact hdrop (by simp)
    exact Finset.mem_erase.mpr ⟨hne, ih hops fun h => hdrop (List.mem_append_left _ h)⟩

theorem tally_replay (log : ChangeLog start ops now) (a : α) (n : Nat) :
    ops.foldl (BagOp.tally a) n =
      if .drop a ∈ ops then if a ∈ now then 1 else 0
      else if .add a ∈ ops then n + 1 else n := by
  induction log with
  | nil => simp
  | @add ops now log b hb ih =>
    rw [List.foldl_append, ih, List.foldl_cons, List.foldl_nil]
    by_cases hab : b = a
    · subst hab
      have hnew : .add b ∈ ops → .drop b ∈ ops := fun h => by
        by_contra hdrop
        exact hb (log.mem_of_add h hdrop)
      by_cases hdrop : .drop b ∈ ops
      · simp [BagOp.tally, BagOp.removes, BagOp.adds, hdrop, hb]
      · simp [BagOp.tally, BagOp.removes, BagOp.adds, hdrop, mt hnew hdrop]
    · simp [BagOp.tally, BagOp.removes, BagOp.adds, hab, Ne.symm hab]
  | @drop ops now log b hb ih =>
    rw [List.foldl_append, ih, List.foldl_cons, List.foldl_nil]
    by_cases hab : b = a
    · simp [BagOp.tally, BagOp.removes, hab]
    · simp [BagOp.tally, BagOp.removes, BagOp.adds, hab, Ne.symm hab]

/-- The replay over a snapshot that is right about the untouched elements yields the set exactly
when no element of the snapshot is inserted without being removed as well. -/
theorem replay_eq_iff (log : ChangeLog start ops now) {snapshot : Multiset α}
    (huntouched : ∀ a, .add a ∉ ops → .drop a ∉ ops →
      snapshot.count a = if a ∈ now then 1 else 0) :
    BagOp.applyAll ops snapshot = now.val ↔ ∀ a ∈ snapshot, .add a ∈ ops → .drop a ∈ ops := by
  have hcount : ∀ a, now.val.count a = if a ∈ now then 1 else 0 := fun a => by
    simp only [Multiset.count_eq_of_nodup now.nodup, Finset.mem_val]
  simp only [Multiset.ext, BagOp.count_applyAll, log.tally_replay, hcount]
  constructor
  · intro hreplay a ha hadd
    by_contra hdrop
    have hsum := hreplay a
    rw [if_neg hdrop, if_pos hadd, if_pos (log.mem_of_add hadd hdrop)] at hsum
    have hpos := Multiset.count_pos.mpr ha
    omega
  · intro hseen a
    by_cases hdrop : .drop a ∈ ops
    · rw [if_pos hdrop]
    · rw [if_neg hdrop]
      by_cases hadd : .add a ∈ ops
      · have habsent : a ∉ snapshot := fun ha => hdrop (hseen a ha hadd)
        rw [if_pos hadd, if_pos (log.mem_of_add hadd hdrop), Multiset.count_eq_zero.mpr habsent]
      · rw [if_neg hadd, huntouched a hadd hdrop]

end ChangeLog

end Framework
